import ObjectActions.ActionMap.Basic
import ObjectActions.Diagnostic

/-!
# Notices

Whatever of a script is not carried out is noticed: that it cannot be read, that a
statement sets an attribute twice, that an action comes too late, that a command says
nothing, and that nothing is left of an action.  Notices are given in the order in which
this is found out: first all about the statements, then all about merging.
-/

namespace ObjectActions

/-- How much a notice matters. -/
inductive Level where
  /-- Something is wrong with the script. -/
  | debug
  /-- Something is left out as it should be. -/
  | trace
deriving DecidableEq, Repr

namespace Level

/-- The name of a level. -/
def name : Level → String
  | debug => "DEBUG"
  | trace => "TRACE"

end Level

/-- What is not carried out, and why. -/
inductive Notice where
  /-- The script cannot be read. -/
  | rejected (diagnostic : Diagnostic)
  /-- A statement sets an attribute again. -/
  | setTwice (text : String) (name : Attribute)
  /-- An action is not the first one of its trigger. -/
  | repeated (trigger : Trigger)
  /-- A command says nothing. -/
  | ineffective (kind : CommandKind)
  /-- Nothing is left of an action. -/
  | emptied (trigger : Trigger)
deriving DecidableEq

namespace Notice

/-- How much a notice matters. -/
def level : Notice → Level
  | rejected _ => .debug
  | setTwice _ _ => .debug
  | repeated _ => .trace
  | ineffective _ => .trace
  | emptied _ => .trace

/-- What a notice says. -/
def message : Notice → String
  | rejected diagnostic => "action string rejected: " ++ diagnostic.render
  | setTwice text name =>
      "dropping command '" ++ text ++ "': attribute '" ++ name.key ++ "' given more than once"
  | repeated trigger => "ignoring repeated '" ++ trigger.name ++ "' action"
  | ineffective kind => "dropping '" ++ kind.word ++ "' command without attributes"
  | emptied trigger => "'" ++ trigger.name ++ "' has no commands left after merging"

/-! ## Finding out -/

/-- What is noticed about a statement. -/
def ofStatement? (statement : Statement) : Option Notice :=
  statement.repeated?.map (.setTwice statement.text)

/-- What is noticed about the statements of actions. -/
def ofWritten (written : List WrittenAction) : List Notice :=
  written.flatMap fun action => action.statements.filterMap ofStatement?

/-- What is noticed about a command. -/
def ofCommand? (command : Command) : Option Notice :=
  if command.isEffective then none else some (.ineffective command.kind)

/-- What is noticed while the commands of an action are merged. -/
def ofAction (action : Action) : List Notice :=
  (action.commands.filterMap id).filterMap ofCommand? ++
    if (Command.merge action.commands).isEmpty then [.emptied action.trigger] else []

/-- What is noticed while actions are merged, after those of some triggers. -/
def ofActions (earlier : List Trigger) : List Action → List Notice
  | [] => []
  | action :: rest =>
      if action.trigger ∈ earlier then .repeated action.trigger :: ofActions earlier rest
      else ofAction action ++ ofActions (action.trigger :: earlier) rest

/-- Everything that is noticed about a script. -/
def ofScript (script : String) : List Notice :=
  match Script.written? (Text.clean script).toList with
  | none => (Diagnostic.ofScript? script).toList.map .rejected
  | some written => ofWritten written ++ ofActions [] (written.map WrittenAction.action)

end Notice

end ObjectActions
