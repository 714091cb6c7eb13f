import ObjectActions.Proofs.Grammar.Tracking
import ObjectActions.Proofs.Script.ArgumentEvaluation

/-!
# Scripts are evaluated to what was read

A script that can be read has trees, and its trees are evaluated without a failure to the actions
that were read, with the notices that reading gives (`builds_actions`).  This is shown from the inside
out: for commands, whose attributes are set one after the other (`foldlM_assign`), for clauses,
where the name of the part decides as the grammar did (`buildsOne_clause`), and for lists.
-/

namespace ObjectActions.Script

open Grammar

variable {verb : Verb} {α : Type}

/-! ## Commands -/

/-- Attributes are set as they are when settings are put together. -/
theorem foldlM_assign {parts : List (Tree Rule)} {said : List (Argument verb)}
    (h : List.Forall₂ (Means verb) parts said) (record : Record verb.attributes) :
    parts.foldlM Evaluation.assign record =
      ((said.filterMap id).foldlM (m := Except Attribute)
        (fun (record : Record verb.attributes) (setting : Setting verb.attributes) =>
          if (record.get? setting.name).isSome then .error setting.name
          else .ok (record.set setting)) record).mapError Failure.setTwice := by
  induction h generalizing record with
  | nil => rfl
  | @cons part said parts more hmeans hrest ih =>
      rw [List.foldlM_cons, Evaluation.assign, hmeans, ok_bind]
      cases said with
      | none => exact ih record
      | some setting =>
          have hmore : (some setting :: more).filterMap id = setting :: more.filterMap id := rfl
          rw [hmore, List.foldlM_cons]
          simp only
          split
          · rfl
          · exact ih _

theorem map_mapError {β δ ε : Type} (result : Except δ α) (f : δ → ε) (g : α → β) :
    (result.mapError f).map g = (result.map g).mapError f := by
  cases result <;> rfl

/-- Whether a part is evaluated to the command that a clause stands for. -/
def Commands (part : Tree Rule) (clause : Clause) : Prop :=
  ∀ text, Evaluation.command part =
    (Statement.command ⟨text, clause⟩).mapError Failure.setTwice

theorem command_of_isPhrase {part keyword : Tree Rule} {further : List (Tree Rule)}
    {said : List (Argument verb)} (hname : part.name = .command (.named (.verb verb)))
    (hparts : part.parts = keyword :: further) (hmeans : List.Forall₂ (Means verb) further said) :
    Evaluation.command part = (further.foldlM Evaluation.assign Record.unset).map (.act verb) := by
  unfold Evaluation.command Evaluation.arguments
  rw [hname, hparts]
  cases verb with
  | examine =>
      -- nothing can be said about the attributes of this verb, which has none
      cases hmeans with
      | nil => rfl
      | cons hargument hrest => cases hargument
  | _ => rfl

theorem commands_act {part : Tree Rule} {said : List (Argument verb)}
    (hname : part.name = .command (.named (.verb verb))) (hparts : IsPhrase verb part.parts said) :
    Commands part (.act verb (said.filterMap id)) := by
  obtain ⟨keyword, further, hparts, hmeans⟩ := hparts
  intro text
  rw [command_of_isPhrase hname hparts hmeans, foldlM_assign hmeans, map_mapError]
  rfl

theorem buildsOne_namedClause (k : Keyword) : BuildsOne (namedClause k) Commands := by
  cases k with
  | verb verb =>
      have hbody : Builds (.map (fun said => Clause.act verb (said.filterMap id))
          (verbArguments verb)) fun parts clause =>
            ∃ said, IsPhrase verb parts said ∧ clause = .act verb (said.filterMap id) :=
        Builds.map ((builds_verbArguments verb).mono fun _ said h => ⟨said, h, rfl⟩)
      refine (hbody.rule _).mono ?_
      rintro part _ ⟨hname, said, hparts, rfl⟩
      exact commands_act hname hparts
  | warp =>
      have hbody : Builds (.map Clause.warp (keyword .warp *> place)) fun parts clause =>
          ∃ word block destination, parts = [word, block] ∧
            Evaluation.place block = .ok destination ∧ clause = .warp destination := by
        refine Builds.map (Builds.map (((builds_keyword .warp).seq evaluates_place.alone).mono ?_))
        rintro _ ⟨_, destination⟩ ⟨_, _, rfl, ⟨word, rfl⟩, block, rfl, -, hplace⟩
        exact ⟨word, block, destination, rfl, hplace, rfl⟩
      refine (hbody.rule _).mono ?_
      rintro part _ ⟨hname, word, block, destination, hparts, hplace, rfl⟩ text
      simp only [Evaluation.command, hname, Evaluation.arguments, hparts, List.tail_cons,
        List.head?_cons, need_some, ok_bind, hplace]
      rfl

theorem buildsOne_invalidClause : BuildsOne invalidClause Commands := by
  refine BuildsOne.map ((buildsOne_token _ _ _).mono ?_)
  rintro part w ⟨hname, hvalue⟩ text
  rw [Evaluation.command, hname, eq_of_nonempty? hvalue]
  rfl

/-- **Clauses.**  The first alternative that can be read is the one that is evaluated. -/
theorem buildsOne_clause : BuildsOne clause Commands := by
  unfold clause
  generalize Keyword.all = keywords
  induction keywords with
  | nil => exact buildsOne_invalidClause
  | cons k keywords ih => exact (buildsOne_namedClause k).choice ih

/-! ## Evaluating with notices -/

/-- Whether an evaluation does not fail, what it gives, and what is noticed on the way. -/
def Gives (evaluation : Evaluation.Noticing α) (value : α) (notices : List Notice) : Prop :=
  ∀ log, evaluation.run.run log = (.ok value, log ++ notices)

namespace Gives

variable {β : Type} {evaluation : Evaluation.Noticing α} {value : α} {notices : List Notice}

theorem pure (value : α) : Gives (Pure.pure value) value [] :=
  fun log => congrArg (Prod.mk (Except.ok value)) (List.append_nil log).symm

theorem ofExcept (value : α) : Gives (MonadExcept.ofExcept (.ok value)) value [] := Gives.pure value

theorem bind {next : α → Evaluation.Noticing β} {result : β} {later : List Notice}
    (h : Gives evaluation value notices) (hnext : Gives (next value) result later) :
    Gives (evaluation >>= next) result (notices ++ later) := by
  intro log
  have hrun : (evaluation >>= next).run.run log = (next value).run.run (log ++ notices) := by
    rw [ExceptT.run_bind, StateT.run_bind, h log]
    rfl
  rw [hrun, hnext, List.append_assoc]

theorem bind_pure (h : Gives evaluation value notices) (f : α → β) :
    Gives (evaluation >>= fun a => Pure.pure (f a)) (f value) notices := by
  rw [← List.append_nil notices]
  exact h.bind (Gives.pure (f value))

/-- Evaluations one after the other. -/
theorem mapM {evaluate : Tree Rule → Evaluation.Noticing β} {use : α → β}
    {noticed : α → List Notice} {parts : List (Tree Rule)} {values : List α}
    (h : List.Forall₂ (fun part value => Gives (evaluate part) (use value) (noticed value))
      parts values) : Gives (parts.mapM evaluate) (values.map use) (values.flatMap noticed) := by
  induction h with
  | nil => exact Gives.pure []
  | cons hpart hrest ih =>
      rw [List.mapM_cons, List.map_cons, List.flatMap_cons]
      refine hpart.bind ?_
      exact ih.bind_pure _

end Gives

/-- Whether a part is evaluated to the command of a statement and noticed as the statement is. -/
def States (part : Tree Rule) (statement : Statement) : Prop :=
  Gives (Evaluation.command? part) statement.command? (Notice.ofStatement? statement).toList

theorem Commands.states {part : Tree Rule} {statement : Statement}
    (h : Commands part statement.clause) (htext : part.text = statement.text) :
    States part statement := by
  intro log
  have hcommand := h statement.text
  change Evaluation.command part = statement.command.mapError Failure.setTwice at hcommand
  unfold Evaluation.command? Statement.command? Notice.ofStatement? Statement.repeated?
  rw [hcommand, htext]
  cases statement.command with
  | ok command =>
      rw [Option.map_none, Option.toList_none, List.append_nil]
      rfl
  | error name => rfl

theorem buildsOne_statement : BuildsOne statement States := by
  refine BuildsOne.map (buildsOne_clause.captured.mono ?_)
  rintro part ⟨text, clause⟩ ⟨htext, hcommand⟩
  exact @Commands.states part ⟨text, clause⟩ hcommand htext

/-! ## Lists -/

theorem builds_separatedList {Stands : Tree Rule → α → Prop} {item : Grammar Rule α}
    (h : BuildsOne item Stands) (mark : String) :
    Builds (separatedList mark item) fun parts values => List.Forall₂ Stands parts values := by
  have hmarks : Builds (separators mark) fun parts _ => parts = [] := by
    refine Builds.map (((builds_literal mark).seq (builds_literal mark).many_nil).mono ?_)
    rintro _ _ ⟨_, _, rfl, rfl, rfl⟩
    rfl
  have hfurther : Builds (separators mark *> item) (Alone Stands) := by
    refine Builds.map ((hmarks.seq h.alone).mono ?_)
    rintro _ ⟨_, value⟩ ⟨_, _, rfl, rfl, hvalue⟩
    exact hvalue
  have hseparated : Builds (separated mark item) fun parts values =>
      List.Forall₂ Stands parts values := by
    refine Builds.map ((h.alone.seq hfurther.many_alone).mono ?_)
    rintro _ ⟨value, values⟩ ⟨_, further, rfl, ⟨part, rfl, hvalue⟩, hvalues⟩
    exact .cons hvalue hvalues
  refine Builds.map ((hseparated.optional.seq (builds_literal mark).many_nil).mono ?_)
  rintro _ ⟨values?, _⟩ ⟨front, _, rfl, hfront, rfl⟩
  rw [List.append_nil]
  rcases hfront with ⟨rfl, rfl⟩ | ⟨values, rfl, hvalues⟩
  · exact .nil
  · exact hvalues

/-! ## Actions -/

/-- Whether a part is evaluated to what is written and noticed as it is. -/
def Acts (part : Tree Rule) (written : WrittenAction) : Prop :=
  part.name = .action ∧
    Gives (Evaluation.action part) written.action
      (written.statements.filterMap Notice.ofStatement?)

theorem buildsOne_action : BuildsOne action Acts := by
  have hbody : Builds (.map (fun parts => (⟨parts.1, parts.2⟩ : WrittenAction))
      (.seq trigger (separatedList "," statement))) fun parts written =>
        ∃ word further, parts = word :: further ∧
          Trigger.ofKeyword? word.text = some written.trigger ∧
          List.Forall₂ States further written.statements := by
    have htrigger := (buildsOne_token Rule.trigger (.run Text.isNameChar) Trigger.ofKeyword?).alone
    refine Builds.map ((htrigger.seq (builds_separatedList buildsOne_statement ",")).mono ?_)
    rintro _ ⟨trigger, statements⟩ ⟨_, further, rfl, ⟨word, rfl, -, htrigger⟩, hfurther⟩
    exact ⟨word, further, rfl, htrigger, hfurther⟩
  refine (hbody.rule _).mono ?_
  rintro part written ⟨hname, word, further, hparts, htrigger, hfurther⟩
  refine ⟨hname, ?_⟩
  have hcommands := Gives.mapM hfurther
  rw [← List.filterMap_eq_flatMap_toList] at hcommands
  unfold Evaluation.action
  rw [hparts, List.head?_cons, need_some, List.tail_cons]
  refine (Gives.ofExcept word).bind ?_
  rw [htrigger, need_some]
  refine (Gives.ofExcept written.trigger).bind ?_
  exact hcommands.bind_pure _

/-! ## Scripts -/

/-- An action at the top of a script is put behind the ones before it. -/
theorem Acts.item {part : Tree Rule} {written : WrittenAction} (h : Acts part written)
    (actions : List Action) :
    Gives (Evaluation.item actions part) (actions ++ [written.action])
      (written.statements.filterMap Notice.ofStatement?) := by
  unfold Evaluation.item
  rw [h.1]
  exact h.2.bind_pure _

theorem foldlM_item {parts : List (Tree Rule)} {written : List WrittenAction}
    (h : List.Forall₂ Acts parts written) (text : String) (actions : List Action) :
    Gives ((parts ++ [Tree.node Rule.endOfInput text []]).foldlM Evaluation.item actions)
      (actions ++ written.map WrittenAction.action) (Notice.ofWritten written) := by
  induction h generalizing actions with
  | nil =>
      rw [List.nil_append, List.foldlM_cons, List.map_nil, List.append_nil]
      exact Gives.pure actions
  | @cons part first parts written hpart hrest ih =>
      have hmore := ih (actions ++ [first.action])
      rw [List.append_assoc, List.singleton_append] at hmore
      rw [List.cons_append, List.foldlM_cons]
      exact (hpart.item actions).bind hmore

/-- **Scripts.**  The trees of a script that can be read are evaluated to its actions. -/
theorem builds_actions : Builds actions fun parts written =>
    Evaluation.evaluate parts =
      (.ok (written.map WrittenAction.action), Notice.ofWritten written) := by
  have hactions := builds_separatedList buildsOne_action ";"
  refine Builds.map ((hactions.seq (builds_finish Rule.endOfInput)).mono ?_)
  rintro _ ⟨written, _⟩ ⟨parts, _, rfl, hparts, rfl⟩
  exact foldlM_item hparts "" [] []

theorem matched_of_written? {text : List Char} {written : List WrittenAction}
    (h : written? text = some written) :
    ∃ parts, Evaluation.matched text = .ok parts ∧
      Evaluation.evaluate parts =
        (.ok (written.map WrittenAction.action), Notice.ofWritten written) := by
  rw [written?, Option.map_eq_some_iff] at h
  obtain ⟨result, hread, rfl⟩ := h
  obtain ⟨parts, htrees, hparts⟩ := builds_actions hread
  refine ⟨parts, ?_, hparts⟩
  unfold Evaluation.matched
  rw [htrees]

end ObjectActions.Script
