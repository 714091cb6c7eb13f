import ObjectActions.Command.Basic

/-!
# The JSON form of commands

A command is an object whose member `commandType` tells its kind; the other members are
the attributes that are set.  The destination of a `warp` stands among the members of
the command itself, that of a `teleport` is an object of its own.

When a command is read, the order of the members does not matter, members that the kind
does not know are left aside, and an attribute that is `null` is unset.  A command may
also be given as an array of its kind and its attributes in their order; only a `warp`
may not, because its members are those of another value.
-/

namespace ObjectActions.Command

/-- The member that tells the kind of a command. -/
def kindKey : String := "commandType"

/-- The member that holds the text of a command that was not understood. -/
def textKey : String := "commandText"

/-- The members of a command beside the one that tells its kind. -/
def members : Command → List (String × Json)
  | act _ record => record.members
  | warp destination => destination.members
  | invalid text => [(textKey, .text text)]

/-- The JSON form of a command. -/
def toJson (command : Command) : Json :=
  .object ((kindKey, .text command.kind.word) :: command.members)

/-- The command of a kind, read from a value that holds its other members. -/
def ofRest? : CommandKind → Json → Option Command
  | .named (.verb verb), rest => do
      let members ← rest.membersOf? (Record.keys verb.attributes)
      (Record.ofMembers? members).map (act verb)
  | .named .warp, rest => do
      let members ← rest.members?
      (Place.ofMembers? members).map warp
  | .invalid, rest => do
      let members ← rest.membersOf? [textKey]
      (Json.required? members textKey Json.text?).map invalid

/-- The command that a JSON value stands for. -/
def ofJson? (value : Json) : Option Command := do
  let (tag, rest) ← value.tagged? kindKey
  let word ← tag.text?
  let kind ← CommandKind.ofWord? word
  ofRest? kind rest

end ObjectActions.Command
