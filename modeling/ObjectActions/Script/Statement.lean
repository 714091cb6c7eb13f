import ObjectActions.Command.Basic
import ObjectActions.Trigger

/-!
# What a script says

A script is read into actions as they were written: a trigger with its statements.  A
statement keeps the text it was read from and the settings in the order in which they
were written, so it can still say that an attribute is set twice.

`Statement.command` gives the command that a statement stands for.  An attribute that is
set twice leaves it without a command, and nothing else does.
-/

namespace ObjectActions

/-- What a statement asks for. -/
inductive Clause where
  /-- A verb with settings in the order in which they were written. -/
  | act (verb : Verb) (settings : List (Setting verb.attributes))
  /-- Going to a place in the same world. -/
  | warp (destination : Place)
  /-- Something that is not understood. -/
  | invalid (text : String)

/-- A clause and the text it was read from. -/
structure Statement where
  text : String
  clause : Clause

/-- A trigger with its statements. -/
structure WrittenAction where
  trigger : Trigger
  statements : List Statement

/-- A trigger with its commands; `none` stands where a statement has no command. -/
structure Action where
  trigger : Trigger
  commands : List (Option Command)
deriving DecidableEq

namespace Statement

/-- The command that a statement stands for, or the attribute that it sets again. -/
def command (statement : Statement) : Except Attribute Command :=
  match statement.clause with
  | .act verb settings => (Record.ofSettings settings).map (.act verb)
  | .warp destination => .ok (.warp destination)
  | .invalid text => .ok (.invalid text)

/-- The command that a statement stands for, if it has one. -/
def command? (statement : Statement) : Option Command := statement.command.toOption

/-- The attribute that a statement sets again, if it does. -/
def repeated? (statement : Statement) : Option Attribute :=
  match statement.command with
  | .ok _ => none
  | .error a => some a

end Statement

namespace WrittenAction

/-- The action that was written. -/
def action (written : WrittenAction) : Action :=
  ⟨written.trigger, written.statements.map Statement.command?⟩

end WrittenAction

end ObjectActions
