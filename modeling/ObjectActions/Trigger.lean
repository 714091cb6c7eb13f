import ObjectActions.Text.Class

/-!
# Triggers

A trigger is the event of an object at which a list of commands is carried out.  In a
script its keyword may be written in any case; in a JSON text its name is exact.
-/

namespace ObjectActions

/-- The events that commands can be attached to. -/
inductive Trigger where
  | create
  | activate
  | bump
  | adone
  /-- The trigger whose keyword is `end`. -/
  | ending
deriving DecidableEq, Repr

namespace Trigger

/-- All triggers. -/
def all : List Trigger := [create, activate, bump, adone, ending]

/-- The name of a trigger, which is also its keyword in lower case. -/
def name : Trigger → String
  | create => "create"
  | activate => "activate"
  | bump => "bump"
  | adone => "adone"
  | ending => "end"

/-- The trigger of an exact name. -/
def ofName? (name : String) : Option Trigger := all.find? (·.name == name)

/-- The trigger of a keyword in any case. -/
def ofKeyword? (word : String) : Option Trigger := all.find? (Text.alike ·.name word)

@[simp] theorem ofName?_name (trigger : Trigger) : ofName? trigger.name = some trigger := by
  cases trigger <;> decide

end Trigger

end ObjectActions
