import ObjectActions.Proofs.Script.Opening
import ObjectActions.Proofs.Script.Provenance

/-!
# Commands that are not understood

A command that is not understood is kept as the text it was written as.  These texts are known:
they are exactly the clean ones of `Script.IsUnrecognized`.  Each of them makes a script with the
one command that holds it, and no command of any script holds another text.
-/

namespace ObjectActions

namespace Script

/-- A text that is not understood is the only statement behind its trigger. -/
theorem statementsOf_of_isUnrecognized {text : List Char} (h : IsUnrecognized text) :
    statementsOf text =
      ([⟨String.ofList text, .invalid (String.ofList text)⟩], []) := by
  rw [statementsOf_of_read?_clause h.not_blank_first (read?_clause_of_isUnrecognized h) rfl,
    List.length_nil, Nat.sub_zero, List.take_length]

end Script

open Script

/-- A command that is not understood comes from a statement that is not understood, and keeps all
of it. -/
theorem Statement.Written.isUnrecognized {front : List Char} {statement : Statement}
    {text : String} (hwritten : statement.Written front)
    (h : statement.command? = some (.invalid text)) :
    text.toList = front ∧ IsUnrecognized text.toList := by
  obtain ⟨_, clause⟩ := statement
  obtain ⟨-, hclause⟩ := hwritten
  cases hclause with
  | @act verb _ arguments hphrase =>
      -- a verb has a command of its own or, if it repeats an attribute, none at all
      have hcommand : ((Record.ofSettings (arguments.filterMap id)).map
          (Command.act verb)).toOption = some (.invalid text) := h
      generalize Record.ofSettings (arguments.filterMap id) = result at hcommand
      cases result <;> cases hcommand
  | warp => cases h
  | invalid hunrecognized =>
      cases h
      rw [String.toList_ofList]
      exact ⟨rfl, hunrecognized⟩

/-- The text of a command that is not understood is unrecognized, and clean as the script is from
which it comes. -/
theorem Action.isUnrecognized_of_mem_commands {script : String} {actions : List Action}
    (h : ofScript? script = some actions) {action : Action} (haction : action ∈ actions)
    {text : String} (hcommand : some (.invalid text) ∈ action.commands) :
    Text.IsClean text.toList ∧ IsUnrecognized text.toList := by
  obtain ⟨statement, hinvalid, front, hfront, hwritten⟩ :=
    exists_statement_of_mem_commands h haction hcommand
  obtain ⟨heq, hunrecognized⟩ := hwritten.isUnrecognized hinvalid
  have hclean : Text.IsClean text.toList := by
    rw [heq]
    exact (Text.isClean_clean script).of_isInfix hfront
  exact ⟨hclean, hunrecognized⟩

/-- **Commands that are not understood.**  The texts that make a script of one command that is
not understood are exactly the unrecognized ones, and no other text, nor one that is not clean, is
ever the text of a command that is not understood. -/
theorem Command.invalid_iff_isUnrecognized :
    (∀ text : String, Text.IsClean text.toList →
      (Action.ofScript? ("create " ++ text) = some [⟨.create, [some (.invalid text)]⟩] ↔
        IsUnrecognized text.toList)) ∧
    ∀ script actions, Action.ofScript? script = some actions → ∀ action ∈ actions,
      ∀ text, some (.invalid text) ∈ action.commands →
        Text.IsClean text.toList ∧ IsUnrecognized text.toList := by
  refine ⟨fun text hclean => ⟨fun h => ?_, fun h => ?_⟩, ?_⟩
  · exact (Action.isUnrecognized_of_mem_commands h List.mem_cons_self List.mem_cons_self).2
  · have hword : Text.lower "create".toList = Trigger.create.name.toList := by decide
    have hcleaned : Text.clean text = text := by
      rw [← @String.ofList_toList text, Text.clean_ofList hclean]
    rw [show "create " = "create" ++ " " from rfl, ofScript?_trigger hword, hcleaned,
      statementsOf_of_isUnrecognized h, furtherActions?_nil, String.ofList_toList]
    rfl
  · intro script actions hactions action haction text hcommand
    exact Action.isUnrecognized_of_mem_commands hactions haction hcommand

/-- A keyword that lacks what belongs to it is kept as it is written, and so is a word that is none
of the keywords, with the blanks inside it but not those behind it. -/
theorem Command.invalid_warp_home :
    Action.ofScript? "create warp home" = some [⟨.create, [some (.invalid "warp home")]⟩] ∧
    Action.ofScript? "bump sign, dance\t now ;" =
      some [⟨.bump, [some (.act .sign .unset), some (.invalid "dance\t now")]⟩] ∧
    Text.IsClean "dance\t now".toList ∧ IsUnrecognized "dance\t now".toList := by
  have hplace : ¬ BeginsPlace "home".toList := rest?_place_eq_none_iff.mp (by decide)
  have hwarp : Action.ofScript? "create warp home" =
      some [⟨.create, [some (.invalid "warp home")]⟩] :=
    (Command.invalid_iff_isUnrecognized.1 "warp home" (by decide)).mpr
      ⟨by simp, by simp [Text.isSeparator], by simp [Text.isBlank], by simp [Text.isBlank],
        .inr ⟨by decide, hplace⟩⟩
  have hdance : Action.ofScript? "bump sign, dance\t now ;" =
      some [⟨.bump, [some (.act .sign .unset), some (.invalid "dance\t now")]⟩] := by
    decide +kernel
  exact ⟨hwarp, hdance, Command.invalid_iff_isUnrecognized.2 _ _ hdance _ List.mem_cons_self _
    (List.mem_cons_of_mem _ List.mem_cons_self)⟩

end ObjectActions
