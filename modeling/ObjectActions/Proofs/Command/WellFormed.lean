import ObjectActions.Proofs.Attribute.Range
import ObjectActions.Proofs.Command.Repeated

/-!
# Commands that come out of scripts

A command can hold any names, numbers and texts, but not all of them come out of a script.  A
command is well formed if each of its attributes is in range and everything in it that is a text
stands in the script, letter by letter.  Every command of every script is well formed
(`Command.wellFormed_of_ofScript?`).

The proof follows a value back to where it is written: a command has the settings of its
statement, a setting is what one of the arguments says, and an argument has been spelled as the
table of usages has it.
-/

namespace ObjectActions

namespace Command

/-- Whether everything that a command holds is in range, and its texts are written in a source. -/
def WellFormed (source : List Char) : Command → Prop
  | .act verb record =>
      ∀ a v, record.get? a = some v → a.InRange verb v ∧ a.shape.Quotes source v
  | .warp destination => destination.InRange
  | .invalid text => Shape.text.Quotes source text

theorem WellFormed.mono {source more : List Char} {command : Command}
    (h : command.WellFormed source) (hmore : source <:+: more) : command.WellFormed more := by
  cases command with
  | act verb record =>
      intro a v hget
      obtain ⟨hrange, hquotes⟩ := h a v hget
      exact ⟨hrange, hquotes.mono hmore⟩
  | warp destination => exact h
  | invalid text => exact @Shape.Quotes.mono source .text text more h hmore

end Command

/-- The command of a statement holds what is written in the statement. -/
theorem Statement.Written.wellFormed {front : List Char} {statement : Statement}
    {command : Command} (hclean : Text.IsClean front) (hwritten : statement.Written front)
    (h : statement.command? = some command) : command.WellFormed front := by
  obtain ⟨text, clause⟩ := statement
  have hclause : clause.Written front := hwritten.clause
  cases hclause with
  | @act verb _ arguments hphrase =>
      have hjudged : Statement.Judged ⟨text, .act verb (arguments.filterMap id)⟩ verb _ :=
        Statement.judged rfl
      -- a repetition would have left the statement without a command
      have hnodup : ((arguments.filterMap id).map Setting.name).Nodup := by
        by_contra hrepeated
        rw [hjudged.command?_eq_none_iff.mpr hrepeated] at h
        cases h
      obtain ⟨-, record, hrecord, hget⟩ := hjudged.command_of_nodup hnodup
      cases hrecord.symm.trans h
      intro a v hv
      obtain ⟨mem, hmem⟩ := (hget a v).mp hv
      have hsound := hphrase.isSound hclean _ hmem
      exact ⟨hsound.inRange, hsound.quotes⟩
  | warp hword hstop hblanks hplace =>
      cases h
      obtain ⟨core, blanks, rfl, hmore, hplace⟩ := hplace
      exact hplace.inRange
  | invalid hunrecognized =>
      cases h
      exact Shape.quotes_ofList hclean List.infix_rfl

/-- **Commands of scripts** are well formed. -/
theorem Command.wellFormed_of_ofScript? {script : String} {actions : List Action}
    (h : Action.ofScript? script = some actions) {action : Action} (haction : action ∈ actions)
    {command : Command} (hcommand : some command ∈ action.commands) :
    command.WellFormed (Text.clean script).toList := by
  obtain ⟨statement, hstatement, front, hfront, hwritten⟩ :=
    Action.exists_statement_of_mem_commands h haction hcommand
  have hclean := (Text.isClean_clean script).of_isInfix hfront
  exact (hwritten.wellFormed hclean hstatement).mono hfront

/-- A light with a name, a type and a time, behind a command that is not understood. -/
theorem Command.wellFormed_light :
    (Command.act .light
      (((Record.unset.set { name := .targetName, value := "lamp" }).set
        { name := .lightType, value := "Point" }).set
          { name := .time, value := .ofRatio false 5 2 })).WellFormed
      (Text.clean "bump dance, light Name=lamp type=Point time=2.5").toList := by
  have h : Action.ofScript? "bump dance, light Name=lamp type=Point time=2.5" =
      some [⟨.bump, [some (.invalid "dance"),
        some (.act .light
          (((Record.unset.set { name := .targetName, value := "lamp" }).set
            { name := .lightType, value := "Point" }).set
              { name := .time, value := .ofRatio false 5 2 }))]⟩] := by
    decide +kernel
  exact wellFormed_of_ofScript? h List.mem_cons_self
    (List.mem_cons_of_mem _ List.mem_cons_self)

end ObjectActions
