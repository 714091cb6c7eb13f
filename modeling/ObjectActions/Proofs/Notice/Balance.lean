import Mathlib.Data.List.Basic
import ObjectActions.Proofs.Command.Repeated
import ObjectActions.Proofs.Diagnostic.Soundness
import ObjectActions.Proofs.Script.Composition

/-!
# Nothing is left out without a notice

Whatever a script says is either carried out or noticed, and the two add up.

* Every statement without a command is noticed once, in the order in which the statements are
  written, before anything else (`forall₂_ofWritten`, `length_ofWritten`).
* Every action is kept as the first of its trigger or noticed as repeated
  (`countP_isRepeated_ofActions`), and what is kept makes an entry or is noticed as emptied
  (`countP_isEmptied_ofActions`).
* Every command of an action that is kept has an effect or is noticed
  (`countP_isIneffective_ofActions`).  Nothing is noticed about the commands of an
  action that is not kept.

Merging meets the actions one after another and remembers the triggers it has met.  What it keeps
of the actions that are left (`Action.fresh`) is what carries these counts from one action to the
next.
-/

namespace ObjectActions

/-! ## What is kept after some triggers have been met -/

namespace Action

/-- The first action of each trigger that is not among the earlier ones. -/
def fresh (earlier : List Trigger) (actions : List Action) : List Action :=
  (firstOfEach actions).filter fun action => action.trigger ∉ earlier

variable {earlier : List Trigger} {action : Action} {rest : List Action}

@[simp] theorem fresh_nil : fresh earlier [] = [] := rfl

@[simp] theorem fresh_of_nil (actions : List Action) : fresh [] actions = firstOfEach actions := by
  simp [fresh]

theorem fresh_cons_of_mem (h : action.trigger ∈ earlier) :
    fresh earlier (action :: rest) = fresh earlier rest := by
  rw [fresh, firstOfEach, List.filter_cons_of_neg (by simpa using h), List.filter_filter, fresh]
  refine List.filter_congr fun later _ => ?_
  -- a later action of the same trigger is not kept anyway
  by_cases heq : later.trigger = action.trigger
  · simp [heq, h]
  · simp [heq]

theorem fresh_cons_of_not_mem (h : action.trigger ∉ earlier) :
    fresh earlier (action :: rest) = action :: fresh (action.trigger :: earlier) rest := by
  rw [fresh, firstOfEach, List.filter_cons_of_pos (by simpa using h), List.filter_filter, fresh]
  congr 1
  refine List.filter_congr fun later _ => ?_
  rw [Bool.and_comm]
  simp

/-- An action makes an entry exactly if merging leaves something of it. -/
theorem isSome_entry? (action : Action) :
    action.entry?.isSome = !(Command.merge action.commands).isEmpty := by
  unfold entry?
  cases Command.merge action.commands <;> rfl

/-- Of some actions, each makes an entry or merging leaves nothing of it. -/
theorem length_filterMap_entry? (actions : List Action) :
    (actions.filterMap entry?).length +
        actions.countP (fun action => (Command.merge action.commands).isEmpty) =
      actions.length := by
  induction actions with
  | nil => rfl
  | cons action rest ih =>
      have hentry := isSome_entry? action
      rw [List.filterMap_cons, List.countP_cons, List.length_cons]
      cases hmade : action.entry? with
      | none =>
          rw [hmade] at hentry
          simp only [Option.isSome_none, Bool.false_eq, Bool.not_eq_false'] at hentry
          simp only [hentry, if_true]
          omega
      | some entry =>
          rw [hmade] at hentry
          simp only [Option.isSome_some, Bool.true_eq, Bool.not_eq_true'] at hentry
          simp only [hentry, List.length_cons]
          simp only [Bool.false_eq_true, if_false]
          omega

end Action

namespace Notice

open ObjectActions.Action

/-! ## Sorts of notices about merging -/

/-- Whether an action is noticed that is not the first of its trigger. -/
def isRepeated : Notice → Bool
  | repeated _ => true
  | _ => false

/-- Whether a command is noticed that says nothing. -/
def isIneffective : Notice → Bool
  | ineffective _ => true
  | _ => false

/-- Whether an action is noticed of which nothing is left. -/
def isEmptied : Notice → Bool
  | emptied _ => true
  | _ => false

/-! ## Statements -/

/-- A statement without a command is noticed, with its text and an attribute. -/
theorem exists_ofStatement?_of_none {statement : Statement} (h : statement.command? = none) :
    ∃ a, statement.command = .error a ∧
      ofStatement? statement = some (.setTwice statement.text a) := by
  rw [ofStatement?, Statement.repeated?]
  cases hcommand : statement.command with
  | ok command =>
      rw [Statement.command?, hcommand] at h
      cases h
  | error a => exact ⟨a, rfl, rfl⟩

theorem ofStatement?_of_some {statement : Statement} {command : Command}
    (h : statement.command? = some command) : ofStatement? statement = none := by
  rw [ofStatement?, Statement.repeated?]
  cases hcommand : statement.command with
  | ok other => rfl
  | error a =>
      rw [Statement.command?, hcommand] at h
      cases h

/-- The notices about statements are one for each statement without a command, in order. -/
theorem forall₂_filterMap_ofStatement? (statements : List Statement) :
    List.Forall₂
      (fun notice statement => ∃ a, statement.command = .error a ∧
        notice = .setTwice statement.text a)
      (statements.filterMap ofStatement?)
      (statements.filter fun statement => statement.command? = none) := by
  induction statements with
  | nil => exact .nil
  | cons statement rest ih =>
      cases hcommand : statement.command? with
      | none =>
          obtain ⟨a, herror, hnotice⟩ := exists_ofStatement?_of_none hcommand
          rw [List.filterMap_cons, hnotice, List.filter_cons_of_pos (by simp [hcommand])]
          exact .cons ⟨a, herror, rfl⟩ ih
      | some command =>
          rw [List.filterMap_cons, ofStatement?_of_some hcommand,
            List.filter_cons_of_neg (by simp [hcommand])]
          exact ih

theorem ofWritten_eq_filterMap (written : List WrittenAction) :
    ofWritten written =
      (written.flatMap WrittenAction.statements).filterMap ofStatement? := by
  induction written with
  | nil => rfl
  | cons action rest ih =>
      rw [List.flatMap_cons, List.filterMap_append, ← ih]
      rfl

theorem forall₂_ofWritten (written : List WrittenAction) :
    List.Forall₂
      (fun notice statement => ∃ a, statement.command = .error a ∧
        notice = .setTwice statement.text a)
      (ofWritten written)
      ((written.flatMap WrittenAction.statements).filter fun statement =>
        statement.command? = none) := by
  rw [ofWritten_eq_filterMap]
  exact forall₂_filterMap_ofStatement? _

theorem commands_eq_map (written : List WrittenAction) :
    (written.map WrittenAction.action).flatMap Action.commands =
      (written.flatMap WrittenAction.statements).map Statement.command? := by
  induction written with
  | nil => rfl
  | cons action rest ih =>
      rw [List.map_cons, List.flatMap_cons, List.flatMap_cons, List.map_append, ih]
      rfl

/-- As many statements are noticed as have no command. -/
theorem length_ofWritten (written : List WrittenAction) :
    (ofWritten written).length =
      ((written.map WrittenAction.action).flatMap Action.commands).count none := by
  rw [(forall₂_ofWritten written).length_eq, commands_eq_map, List.count_eq_countP,
    List.countP_map, ← List.countP_eq_length_filter]
  refine List.countP_congr fun statement _ => ?_
  simp

theorem level_of_mem_ofWritten {written : List WrittenAction} {notice : Notice}
    (h : notice ∈ ofWritten written) : notice.level = .debug := by
  rw [ofWritten_eq_filterMap] at h
  obtain ⟨statement, -, hnotice⟩ := List.mem_filterMap.mp h
  obtain ⟨a, -, rfl⟩ := Option.map_eq_some_iff.mp hnotice
  rfl

/-! ## One action -/

theorem countP_filterMap_ofCommand? (p : Notice → Bool) (commands : List Command) :
    (commands.filterMap ofCommand?).countP p =
      commands.countP fun command =>
        !command.isEffective && p (.ineffective command.kind) := by
  induction commands with
  | nil => rfl
  | cons command rest ih =>
      rw [List.filterMap_cons, List.countP_cons, ofCommand?]
      by_cases heffective : command.isEffective
      · simp [heffective, ih]
      · simp [heffective, ih, List.countP_cons]

theorem countP_isRepeated_ofAction (action : Action) :
    (ofAction action).countP isRepeated = 0 := by
  rw [ofAction, List.countP_append, countP_filterMap_ofCommand?]
  split <;> simp [isRepeated]

theorem countP_isEmptied_ofAction (action : Action) :
    (ofAction action).countP isEmptied =
      if (Command.merge action.commands).isEmpty then 1 else 0 := by
  rw [ofAction, List.countP_append, countP_filterMap_ofCommand?]
  split <;> simp [isEmptied]

theorem countP_isIneffective_ofAction (action : Action) :
    (ofAction action).countP isIneffective =
      (action.commands.filterMap id).countP fun command =>
        command.isEmpty && !command.kind.keptWhenEmpty := by
  have hempty : (if (Command.merge action.commands).isEmpty then [emptied action.trigger]
      else []).countP isIneffective = 0 := by
    split <;> rfl
  rw [ofAction, List.countP_append, countP_filterMap_ofCommand?, hempty, Nat.add_zero]
  refine List.countP_congr fun command _ => ?_
  simp [isIneffective, Command.isEffective]

/-! ## All actions -/

/-- What is noticed about each action that is kept, and nothing but repetitions besides. -/
theorem countP_ofActions (p : Notice → Bool) (hp : ∀ trigger, p (.repeated trigger) = false)
    (earlier : List Trigger) (actions : List Action) :
    (ofActions earlier actions).countP p = ((fresh earlier actions).flatMap ofAction).countP p := by
  induction actions generalizing earlier with
  | nil => rfl
  | cons action rest ih =>
      rw [ofActions]
      split
      · next hmem => rw [List.countP_cons_of_neg (by simp [hp]), ih, fresh_cons_of_mem hmem]
      · next hmem =>
          rw [List.countP_append, ih, fresh_cons_of_not_mem hmem, List.flatMap_cons,
            List.countP_append]

/-- Every action is kept or noticed as repeated. -/
theorem countP_isRepeated_ofActions (earlier : List Trigger) (actions : List Action) :
    (fresh earlier actions).length + (ofActions earlier actions).countP isRepeated =
      actions.length := by
  induction actions generalizing earlier with
  | nil => rfl
  | cons action rest ih =>
      rw [ofActions, List.length_cons]
      split
      · next hmem =>
          rw [fresh_cons_of_mem hmem, List.countP_cons_of_pos rfl, ← Nat.add_assoc, ih]
      · next hmem =>
          rw [fresh_cons_of_not_mem hmem, List.countP_append, countP_isRepeated_ofAction,
            List.length_cons, Nat.zero_add, Nat.add_right_comm, ih]

/-- Every action that is kept makes an entry or is noticed as emptied. -/
theorem countP_isEmptied_ofActions (earlier : List Trigger) (actions : List Action) :
    ((fresh earlier actions).filterMap entry?).length +
        (ofActions earlier actions).countP isEmptied =
      (fresh earlier actions).length := by
  rw [countP_ofActions isEmptied (fun _ => rfl), ← length_filterMap_entry? (fresh earlier actions)]
  congr 1
  induction fresh earlier actions with
  | nil => rfl
  | cons action rest ih =>
      rw [List.flatMap_cons, List.countP_append, ih, countP_isEmptied_ofAction, List.countP_cons,
        Nat.add_comm]

/-- Every command of the actions that are kept has an effect or is noticed. -/
theorem countP_isIneffective_ofActions (earlier : List Trigger) (actions : List Action) :
    (ofActions earlier actions).countP isIneffective =
      ((fresh earlier actions).flatMap fun action => action.commands.filterMap id).countP
        fun command => command.isEmpty && !command.kind.keptWhenEmpty := by
  rw [countP_ofActions isIneffective (fun _ => rfl)]
  induction fresh earlier actions with
  | nil => rfl
  | cons action rest ih =>
      rw [List.flatMap_cons, List.flatMap_cons, List.countP_append, List.countP_append, ih,
        countP_isIneffective_ofAction]

/-- Merging notices nothing but repetitions, commands that say nothing, and emptied actions. -/
theorem sort_of_mem_ofActions {earlier : List Trigger} {actions : List Action} {notice : Notice}
    (h : notice ∈ ofActions earlier actions) :
    (notice.isRepeated || notice.isIneffective || notice.isEmptied) = true := by
  have hlevel := level_of_mem_ofActions h
  cases notice <;> first | rfl | cases hlevel

/-! ## Scripts -/

/-- **Nothing is left out without a notice.**  If a script can be read, then first every statement
without a command is noticed, in the order in which they are written.  What follows is
about merging: the actions are as many as the entries, the notices of repeated actions and those of
emptied ones together, and the commands that say nothing are noticed as often as there are such
commands in the first actions of their triggers.  If a script cannot be read, this is
the only notice, and there are no entries. -/
theorem ofScript_balance (script : String) :
    match Action.ofScript? script with
    | some actions =>
        ∃ written voided merging,
          Script.written? (Text.clean script).toList = some written ∧
          actions = written.map WrittenAction.action ∧
          Notice.ofScript script = voided ++ merging ∧
          (List.Forall₂
            (fun notice statement => ∃ a, statement.command = .error a ∧
              notice = .setTwice statement.text a)
            voided
            ((written.flatMap WrittenAction.statements).filter fun statement =>
              statement.command? = none)) ∧
          voided.length = (actions.flatMap Action.commands).count none ∧
          (∀ notice ∈ voided, notice.level = .debug) ∧
          (∀ notice ∈ merging, notice.level = .trace ∧
            (notice.isRepeated || notice.isIneffective || notice.isEmptied) = true) ∧
          actions.length =
            (ActionMap.ofScript script).entries.length + merging.countP isRepeated +
              merging.countP isEmptied ∧
          merging.countP isIneffective =
            ((Action.firstOfEach actions).flatMap fun action =>
              action.commands.filterMap id).countP
                fun command => command.isEmpty && !command.kind.keptWhenEmpty
    | none =>
        ∃ diagnostic, Diagnostic.ofScript? script = some diagnostic ∧
          Notice.ofScript script = [.rejected diagnostic] ∧
          (rejected diagnostic).level = .debug ∧
          ActionMap.ofScript script = .empty := by
  split
  · next actions hactions =>
      obtain ⟨written, hwritten, rfl⟩ := Option.map_eq_some_iff.mp hactions
      have hrepeated := countP_isRepeated_ofActions [] (written.map WrittenAction.action)
      have hemptied := countP_isEmptied_ofActions [] (written.map WrittenAction.action)
      have hineffective := countP_isIneffective_ofActions [] (written.map WrittenAction.action)
      rw [fresh_of_nil] at hrepeated hemptied hineffective
      have hentries : (ActionMap.ofScript script).entries =
          (firstOfEach (written.map WrittenAction.action)).filterMap entry? := by
        rw [ActionMap.ofScript_of_some hactions]
        rfl
      refine ⟨written, ofWritten written, ofActions [] (written.map WrittenAction.action),
        hwritten, rfl, ?_, forall₂_ofWritten written, length_ofWritten written,
        fun _ => level_of_mem_ofWritten,
        fun _ h => ⟨level_of_mem_ofActions h, sort_of_mem_ofActions h⟩, ?_, hineffective⟩
      · unfold ofScript
        rw [hwritten]
      · rw [hentries]
        omega
  · next hactions =>
      have hwritten : Script.written? (Text.clean script).toList = none :=
        Option.map_eq_none_iff.mp hactions
      obtain ⟨diagnostic, hdiagnostic, -⟩ := Diagnostic.exists_ofText? hwritten
      refine ⟨diagnostic, hdiagnostic, ?_, rfl, ActionMap.ofScript_of_none hactions⟩
      unfold ofScript
      rw [hwritten, Diagnostic.ofScript?, hdiagnostic]
      rfl

end Notice

end ObjectActions
