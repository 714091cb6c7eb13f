import ObjectActions.Json.Basic
import ObjectActions.Number.Numeral

/-!
# The text of a JSON value

A value is written either without any blanks, or with one item on a line, indented by
two spaces for each array or object around it.  Texts are quoted with the short escapes
where JSON has them and with `\u00xx` for the other control characters; all other
characters stand for themselves.
-/

namespace ObjectActions.Json

/-- How the text of a value is laid out. -/
inductive Layout where
  /-- On one line, without blanks. -/
  | compact
  /-- One item on a line, indented by its depth. -/
  | indented
deriving DecidableEq, Repr

namespace Layout

/-- The start of a line at some depth. -/
def newline (depth : Nat) : String :=
  String.ofList ('\n' :: List.replicate (2 * depth) ' ')

/-- What stands between a key and its value. -/
def colon : Layout → String
  | .compact => ":"
  | .indented => ": "

/-- Items between brackets, where `depth` counts the brackets around them. -/
def enclose (layout : Layout) (depth : Nat) (opening closing : String) (items : List String) :
    String :=
  match layout, items with
  | _, [] => opening ++ closing
  | .compact, items => opening ++ String.intercalate "," items ++ closing
  | .indented, items =>
      opening ++ newline (depth + 1) ++ String.intercalate ("," ++ newline (depth + 1)) items ++
        newline depth ++ closing

end Layout

/-- How one character is written between quotes. -/
def escape (c : Char) : List Char :=
  if c == '"' then ['\\', '"']
  else if c == '\\' then ['\\', '\\']
  else if c == '\x08' then ['\\', 'b']
  else if c == '\t' then ['\\', 't']
  else if c == '\n' then ['\\', 'n']
  else if c == '\x0c' then ['\\', 'f']
  else if c == '\r' then ['\\', 'r']
  else if c.toNat < 0x20 then
    ['\\', 'u', '0', '0', Nat.digitChar (c.toNat / 16), Nat.digitChar (c.toNat % 16)]
  else [c]

/-- A text between quotes. -/
def quote (text : String) : String :=
  String.ofList ('"' :: text.toList.flatMap escape ++ ['"'])

mutual

/-- The text of a value inside `depth` brackets. -/
def write (layout : Layout) (depth : Nat) : Json → String
  | .null => "null"
  | .flag true => "true"
  | .flag false => "false"
  | .integer value => toString value
  | .number value => if value.isFinite then Numeral.write value else "null"
  | .text value => quote value
  | .array items => layout.enclose depth "[" "]" (writeItems layout (depth + 1) items)
  | .object members =>
      layout.enclose depth "\x7b" "\x7d" (writeMembers layout (depth + 1) members)

/-- The texts of the items of an array. -/
def writeItems (layout : Layout) (depth : Nat) : List Json → List String
  | [] => []
  | item :: items => write layout depth item :: writeItems layout depth items

/-- The texts of the members of an object. -/
def writeMembers (layout : Layout) (depth : Nat) : List (String × Json) → List String
  | [] => []
  | (key, value) :: members =>
      (quote key ++ layout.colon ++ write layout depth value) :: writeMembers layout depth members

end

/-- The text of a value without blanks. -/
def compact (value : Json) : String := value.write .compact 0

/-- The text of a value with one item on a line. -/
def indented (value : Json) : String := value.write .indented 0

end ObjectActions.Json
