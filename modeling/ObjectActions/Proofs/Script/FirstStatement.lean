import ObjectActions.Proofs.Script.Opening
import ObjectActions.Proofs.Script.Provenance

/-!
# The first statement behind a trigger

A script that opens with a trigger is decided from the left.  The statement behind the trigger is
read first, and whatever else the script says depends on nothing but the text that this statement
leaves.  So two scripts whose first statements leave the same text say the same from there on,
however different their first commands are.

* `OpensWith text command rest`: a statement with this command stands at the front of the text and
  leaves `rest`;
* `GoesOn rest commands actions`: the text that is left says the further commands of the action
  and the further actions;
* `ofScript?_eq_some_cons_iff`: a script says exactly what the two say together;
* `ofScript?_keyword_eq_some_cons_iff`: the same with the keyword of the first statement told apart.
-/

namespace ObjectActions.Script

open Grammar

variable {text rest : List Char} {command : Option Command}

/-- A statement stands at the front of a text and leaves a rest.  Its command is missing if it sets
an attribute twice. -/
def OpensWith (text : List Char) (command : Option Command) (rest : List Char) : Prop :=
  ∃ written, statement.read? text = some (written, rest) ∧ written.command? = command

/-- What a statement commands is decided by its clause. -/
theorem opensWith_iff :
    OpensWith text command rest ↔
      ∃ said, clause.read? text = some (said, rest) ∧
        ∀ text, Statement.command? ⟨text, said⟩ = command := by
  constructor
  · rintro ⟨⟨text', said⟩, hread, rfl⟩
    exact ⟨said, read?_clause_of_read?_statement hread, fun _ => rfl⟩
  · rintro ⟨said, hread, hcommand⟩
    exact ⟨_, read?_statement hread, hcommand _⟩

/-- A verb whose settings make up a record commands what this record sets. -/
theorem command?_of_ofSettings {verb : Verb} {settings : List (Setting verb.attributes)}
    {record : Record verb.attributes} (h : Record.ofSettings settings = .ok record)
    (written : String) :
    Statement.command? ⟨written, .act verb settings⟩ = some (.act verb record) := by
  simp only [Statement.command?, Statement.command, h]
  rfl

/-- The statements behind the first one, given the text that it leaves, and what is left of this
text behind them. -/
def laterStatements (rest : List Char) : List Statement × List Char :=
  if (Text.skipBlanks rest).head? = some ',' then listing "," statement (skipMarks ',' rest)
  else ([], Text.skipBlanks rest)

/-- The text that the first statement leaves says the further commands and the further actions. -/
def GoesOn (rest : List Char) (commands : List (Option Command)) (actions : List Action) : Prop :=
  (laterStatements rest).1.map Statement.command? = commands ∧
    (furtherActions? (laterStatements rest).2).map (·.map WrittenAction.action) = some actions

/-- The first statement and the later ones are all statements. -/
theorem statementsOf_of_read? {written : Statement}
    (h : statement.read? (Text.skipBlanks text) = some (written, rest)) :
    statementsOf text = (written :: (laterStatements rest).1, (laterStatements rest).2) := by
  unfold statementsOf laterStatements
  split
  · next hmark => exact listing_of_mark rfl rfl h hmark
  · next hend => exact listing_of_end rfl rfl h hend

/-- **The first statement.**  A script that opens with a trigger says a first command, further
commands and further actions exactly if its first statement has this command and the text that it
leaves says the rest. -/
theorem ofScript?_eq_some_cons_iff {trigger : Trigger} {word : String}
    (hword : Text.lower word.toList = trigger.name.toList) {script : String} {first : Trigger}
    {commands : List (Option Command)} {actions : List Action} :
    Action.ofScript? (word ++ " " ++ script) = some (⟨first, command :: commands⟩ :: actions) ↔
      first = trigger ∧ ∃ rest, OpensWith (Text.skipBlanks (Text.clean script).toList) command rest ∧
        GoesOn rest commands actions := by
  rw [ofScript?_trigger hword]
  generalize (Text.clean script).toList = text
  cases hread : statement.read? (Text.skipBlanks text) with
  | none =>
      -- without a first statement there is no first command
      have hnil : (statementsOf text).1 = [] := by rw [statementsOf, listing_of_none rfl rfl hread]
      simp [OpensWith, hread, hnil]
  | some result =>
      obtain ⟨written, rest⟩ := result
      rw [statementsOf_of_read? hread]
      simp only [OpensWith, GoesOn, hread, Option.map_eq_some_iff, List.map_cons, List.cons.injEq,
        Action.mk.injEq, Option.some.injEq, Prod.mk.injEq]
      constructor
      · rintro ⟨further, hfurther, ⟨rfl, hcommand, hcommands⟩, hactions⟩
        exact ⟨rfl, rest, ⟨written, ⟨rfl, rfl⟩, hcommand⟩, hcommands, further, hfurther, hactions⟩
      · rintro ⟨rfl, _, ⟨_, ⟨rfl, rfl⟩, hcommand⟩, hcommands, further, hfurther, hactions⟩
        exact ⟨further, hfurther, ⟨rfl, hcommand, hcommands⟩, hactions⟩

/-- A keyword behind the trigger begins the first statement. -/
theorem ofScript?_keyword_eq_some_cons_iff {trigger : Trigger} {word : String}
    (hword : Text.lower word.toList = trigger.name.toList) (k : Keyword) {script : String}
    {first : Trigger} {commands : List (Option Command)} {actions : List Action} :
    Action.ofScript? (word ++ (" " ++ k.word ++ " ") ++ script) =
        some (⟨first, command :: commands⟩ :: actions) ↔
      first = trigger ∧
        ∃ rest, OpensWith (k.word.toList ++ ' ' :: (Text.clean script).toList) command rest ∧
          GoesOn rest commands actions := by
  have hsplit : word ++ (" " ++ k.word ++ " ") ++ script =
      word ++ " " ++ (k.word ++ " " ++ script) := by simp only [String.append_assoc]
  have hopens : Text.skipBlanks (Text.clean (k.word ++ " " ++ script)).toList =
      k.word.toList ++ ' ' :: (Text.clean script).toList := by
    rw [toList_clean_word k.isAlpha_of_mem_word]
    exact Text.skipBlanks_eq_self (isBlank_head_keyword k _)
  rw [hsplit, ofScript?_eq_some_cons_iff hword, hopens]

end ObjectActions.Script
