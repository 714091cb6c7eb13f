import ObjectActions.Grammar.Frontier
import ObjectActions.Script.Clause
import ObjectActions.Text.Clean

/-!
# Reading scripts

A script is a list of actions between semicolons, and an action is a trigger followed by
statements between commas.  Separators may be repeated and may stand at the end, but a
script does not begin with one unless it holds no action at all.

`Script.written?` reads a cleaned script; `Action.ofScript?` reads any script and keeps
only the commands that the statements stand for.
-/

namespace ObjectActions

namespace Script

/-- A trigger in any case. -/
def trigger : Grammar Rule Trigger := word .trigger Trigger.ofKeyword?

/-- One separator or more. -/
def separators (mark : String) : Grammar Rule (List Unit) := .oneOrMore (.literal mark)

/-- Items between separators: at least one. -/
def separated {α : Type} (mark : String) (item : Grammar Rule α) : Grammar Rule (List α) :=
  .map (fun parts => parts.1 :: parts.2) (.seq item (.many (separators mark *> item)))

/-- Items between separators, or none at all, and separators at the end. -/
def separatedList {α : Type} (mark : String) (item : Grammar Rule α) : Grammar Rule (List α) :=
  .map (fun parts => parts.1.getD [])
    (.seq (.optional (separated mark item)) (.many (.literal mark)))

/-- A trigger with its statements. -/
def action : Grammar Rule WrittenAction :=
  .rule .action <|
    .map (fun parts => ⟨parts.1, parts.2⟩) (.seq trigger (separatedList "," statement))

/-- All actions up to the end of the text. -/
def actions : Grammar Rule (List WrittenAction) :=
  separatedList ";" action <* .finish .endOfInput

/-- The actions that are written in a cleaned script, if it makes sense as a whole. -/
def written? (text : List Char) : Option (List WrittenAction) :=
  (actions.read? (Text.skipBlanks text)).map Prod.fst

end Script

namespace Action

/-- The actions of a script, if it makes sense as a whole. -/
def ofScript? (script : String) : Option (List Action) :=
  (Script.written? (Text.clean script).toList).map (·.map WrittenAction.action)

end Action

end ObjectActions
