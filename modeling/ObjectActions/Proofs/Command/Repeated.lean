import Mathlib.Data.List.Induction
import ObjectActions.Notice
import ObjectActions.Proofs.Attribute.Settings
import ObjectActions.Proofs.Script.Provenance
import ObjectActions.Proofs.Script.Silence

/-!
# Attributes that are set again

A statement that sets an attribute twice has no command, and this is noticed once: with the text
of the statement and the first attribute that is set again.  Nothing else takes its command away
from a statement, and no statement takes away the command of another one.

The settings of a statement are what its arguments say, in the order in which they are written;
an argument that says nothing (`Verb.Silent`) is no setting.

* `Record.exists_firstAgain` and `Record.ofSettings_of_firstAgain`: of settings that repeat one is
  the first to do so, and it is the one that is reported;
* `Statement.judged`: what becomes of one statement;
* `Notice.ofScript_of_written?`: what becomes of all statements of a script, and what is noticed.
-/

namespace ObjectActions

/-! ## The first setting that sets an attribute again -/

/-- Whether a setting is the first one among some settings whose attribute has been set before. -/
def FirstAgain {allowed : List Attribute} (settings : List (Setting allowed))
    (setting : Setting allowed) : Prop :=
  ∃ before after, settings = before ++ setting :: after ∧ (before.map Setting.name).Nodup ∧
    setting.name ∈ before.map Setting.name

namespace Record

variable {allowed : List Attribute} {settings : List (Setting allowed)}
  {setting : Setting allowed}

theorem exists_firstAgain (h : ¬ (settings.map Setting.name).Nodup) :
    ∃ setting, FirstAgain settings setting := by
  induction settings using List.reverseRecOn with
  | nil => exact absurd List.nodup_nil h
  | append_singleton settings last ih =>
      -- either the settings before the last one repeat already, or the last one is the first to
      by_cases hnodup : (settings.map Setting.name).Nodup
      · refine ⟨last, settings, [], rfl, hnodup, ?_⟩
        by_contra hfresh
        apply h
        rw [List.map_append, List.map_cons, List.map_nil, List.nodup_append]
        refine ⟨hnodup, by simp, fun a ha b hb heq => ?_⟩
        rw [List.mem_singleton.mp hb] at heq
        exact hfresh (heq ▸ ha)
      · obtain ⟨setting, before, after, rfl, hfirst⟩ := ih hnodup
        exact ⟨setting, before, after ++ [last], by simp, hfirst⟩

/-- The first setting that sets an attribute again is reported. -/
theorem ofSettings_of_firstAgain (h : FirstAgain settings setting) :
    ofSettings settings = .error setting.name := by
  obtain ⟨before, after, rfl, hnodup, hagain⟩ := h
  obtain ⟨record, hrecord, hget⟩ := ofSettings_of_nodup hnodup
  obtain ⟨other, hother, hname⟩ := List.mem_map.mp hagain
  have hset : (record.get? setting.name).isSome = true := by
    rw [← hname, (hget other.name other.value).mpr ⟨other.mem, hother⟩]
    rfl
  unfold ofSettings at hrecord ⊢
  have hpure : (Except.ok record : Except Attribute (Record allowed)) = pure record := rfl
  rw [List.foldlM_append, hrecord, hpure, pure_bind, List.foldlM_cons, if_pos hset]
  rfl

end Record

/-! ## Statements -/

/-- What becomes of a verb with settings that were written in this order. -/
structure Statement.Judged (statement : Statement) (verb : Verb)
    (settings : List (Setting verb.attributes)) : Prop where
  /-- There is no command exactly if an attribute is set again. -/
  command?_eq_none_iff : statement.command? = none ↔ ¬ (settings.map Setting.name).Nodup
  /-- Then one thing is noticed: the first attribute that is set again. -/
  notice_of_repeated : ¬ (settings.map Setting.name).Nodup →
    ∃ setting, FirstAgain settings setting ∧
      Notice.ofStatement? statement = some (.setTwice statement.text setting.name)
  /-- Otherwise nothing is noticed, and the command sets exactly what was written. -/
  command_of_nodup : (settings.map Setting.name).Nodup →
    Notice.ofStatement? statement = none ∧
      ∃ record : Record verb.attributes, statement.command? = some (.act verb record) ∧
        ∀ a v, record.get? a = some v ↔ ∃ mem, (⟨a, v, mem⟩ : Setting verb.attributes) ∈ settings

theorem Statement.judged {statement : Statement} {verb : Verb}
    {settings : List (Setting verb.attributes)} (h : statement.clause = .act verb settings) :
    statement.Judged verb settings := by
  have hcommand : statement.command = (Record.ofSettings settings).map (.act verb) := by
    rw [Statement.command, h]
  by_cases hnodup : (settings.map Setting.name).Nodup
  · obtain ⟨record, hrecord, hget⟩ := Record.ofSettings_of_nodup hnodup
    rw [hrecord] at hcommand
    have hsome : statement.command? = some (.act verb record) := by
      rw [Statement.command?, hcommand]
      rfl
    have hnotice : Notice.ofStatement? statement = none := by
      rw [Notice.ofStatement?, Statement.repeated?, hcommand]
      rfl
    exact ⟨by simp [hsome, hnodup], fun hnot => absurd hnodup hnot,
      fun _ => ⟨hnotice, record, hsome, hget⟩⟩
  · obtain ⟨setting, hfirst⟩ := Record.exists_firstAgain hnodup
    rw [Record.ofSettings_of_firstAgain hfirst] at hcommand
    have hnone : statement.command? = none := by
      rw [Statement.command?, hcommand]
      rfl
    have hnotice : Notice.ofStatement? statement =
        some (.setTwice statement.text setting.name) := by
      rw [Notice.ofStatement?, Statement.repeated?, hcommand]
      rfl
    exact ⟨by simp [hnone, hnodup], fun _ => ⟨setting, hfirst, hnotice⟩,
      fun hyes => absurd hyes hnodup⟩

/-! ## Scripts -/

/-- What is noticed while actions are merged is nothing to worry about. -/
theorem Notice.level_of_mem_ofActions {earlier : List Trigger} {actions : List Action}
    {notice : Notice} (h : notice ∈ ofActions earlier actions) : notice.level = .trace := by
  have haction {action : Action} (h : notice ∈ ofAction action) : notice.level = .trace := by
    rcases List.mem_append.mp h with hcommand | hempty
    · obtain ⟨command, -, hnotice⟩ := List.mem_filterMap.mp hcommand
      rw [ofCommand?] at hnotice
      split at hnotice
      · cases hnotice
      · cases hnotice
        rfl
    · split at hempty
      · rw [List.mem_singleton.mp hempty]
        rfl
      · cases hempty
  induction actions generalizing earlier with
  | nil => cases h
  | cons action rest ih =>
      rw [ofActions] at h
      split at h
      · rcases List.mem_cons.mp h with rfl | hrest
        · rfl
        · exact ih hrest
      · exact (List.mem_append.mp h).elim haction ih

/-- **Attributes that are set again.**  In a script that can be read, every statement has the
command or the notice that its own settings call for. -/
theorem Notice.ofScript_of_written? {script : String} {written : List WrittenAction}
    (h : Script.written? (Text.clean script).toList = some written) :
    Action.ofScript? script = some (written.map WrittenAction.action) ∧
      (∃ later, Notice.ofScript script =
          (written.flatMap fun action => action.statements.filterMap Notice.ofStatement?) ++ later ∧
        ∀ notice ∈ later, notice.level = .trace) ∧
      ∀ action ∈ written, ∀ statement ∈ action.statements,
        ∃ front rest, front ++ rest <:+ (Text.clean script).toList ∧
          statement.text = String.ofList front ∧
          match statement.clause with
          | .act verb settings =>
              (∃ arguments,
                (Script.verbArguments verb).read? (front ++ rest) = some (arguments, rest) ∧
                  verb.Phrase front arguments ∧ settings = arguments.filterMap id) ∧
                (∀ part, verb.Says part none ↔ verb.Silent part) ∧
                statement.Judged verb settings
          | .warp destination =>
              statement.command? = some (.warp destination) ∧
                Notice.ofStatement? statement = none
          | .invalid text =>
              statement.command? = some (.invalid text) ∧
                Notice.ofStatement? statement = none := by
  refine ⟨by rw [Action.ofScript?, h, Option.map_some], ?_, ?_⟩
  · refine ⟨ofActions [] (written.map WrittenAction.action), ?_,
      fun notice => level_of_mem_ofActions⟩
    unfold ofScript
    rw [h]
    rfl
  · intro action haction statement hstatement
    have hclean := Text.isClean_clean script
    obtain ⟨front, rest, hsuffix, hwritten, hread⟩ :=
      Script.exists_statement_written hclean h haction hstatement
    refine ⟨front, rest, hsuffix, hwritten.text_eq, ?_⟩
    obtain ⟨text, clause⟩ := statement
    cases clause with
    | act verb settings =>
        obtain ⟨arguments, harguments, hsettings⟩ := Script.exists_read?_verbArguments hread
        obtain ⟨part, hpart, hphrase⟩ :=
          Script.shows_verbArguments verb (Text.passesOn_isClean hsuffix hclean) harguments
        obtain rfl := List.append_cancel_right hpart
        exact ⟨⟨arguments, harguments, hphrase, hsettings⟩, fun _ => Verb.says_none_iff,
          Statement.judged rfl⟩
    | warp | invalid => exact ⟨rfl, rfl⟩

/-- A color that is set twice, and a statement that it does not matter to. -/
theorem Notice.ofScript_color_twice :
    ∃ later, Notice.ofScript "create color red tint blue, sign" =
        .setTwice "color red tint blue" .color :: later ∧
      ∀ notice ∈ later, notice.level = .trace :=
  have h : Script.written? (Text.clean "create color red tint blue, sign").toList =
      some [⟨.create,
        [⟨"color red tint blue",
            .act .color [{ name := .color, value := ⟨255, 0, 0⟩ }, { name := .tint, value := true },
              { name := .color, value := ⟨0, 0, 255⟩ }]⟩,
          ⟨"sign", .act .sign []⟩]⟩] := by rfl
  (Notice.ofScript_of_written? h).2.1

end ObjectActions
