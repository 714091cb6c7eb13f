import ObjectActions.Script.Reading

/-!
# Why a script cannot be read

A diagnostic points at the place up to which a script makes sense and lists what could
have followed there.  It shows the line of that place with a mark under it.  Lines end
with a line feed.  A carriage return or line feed at the place itself is shown as a
symbol; elsewhere they are left out of the line that is shown.

The main definitions are `Diagnostic.ofScript?`, which gives no diagnostic exactly when
the script can be read, and `Diagnostic.render`.
-/

namespace ObjectActions

/-- What is wrong with a cleaned script. -/
structure Diagnostic where
  /-- The cleaned script. -/
  text : List Char
  /-- How many characters stand before the place that the diagnostic points at. -/
  position : Nat
  /-- What could have followed there, in the order in which it is listed. -/
  expected : List Rule
deriving DecidableEq

namespace Diagnostic

/-! ## Finding out -/

/-- The parts among some attempts, each once and in their order. -/
def listed (attempts : List Rule) : List Rule :=
  Rule.all.filter fun rule => attempts.contains rule

/-- The diagnostic of a cleaned script, if it cannot be read. -/
def ofText? (text : List Char) : Option Diagnostic :=
  match Script.written? text with
  | some _ => none
  | none =>
      let frontier := (Script.actions.failures (Text.skipBlanks text)).getD ⟨text.length, []⟩
      some ⟨text, text.length - frontier.remaining, listed frontier.names⟩

/-- The diagnostic of a script, if it cannot be read. -/
def ofScript? (script : String) : Option Diagnostic :=
  ofText? (Text.clean script).toList

/-! ## The place in its line -/

/-- The characters before the place. -/
def before (diagnostic : Diagnostic) : List Char :=
  diagnostic.text.take diagnostic.position

/-- The characters from the place on. -/
def after (diagnostic : Diagnostic) : List Char :=
  diagnostic.text.drop diagnostic.position

/-- The number of the line, counted from one. -/
def line (diagnostic : Diagnostic) : Nat :=
  diagnostic.before.count '\n' + 1

/-- The characters of the line before the place. -/
def lineBefore (diagnostic : Diagnostic) : List Char :=
  (diagnostic.before.reverse.takeWhile (· != '\n')).reverse

/-- The number of the character in its line, counted from one. -/
def column (diagnostic : Diagnostic) : Nat :=
  diagnostic.lineBefore.length + 1

/-- A line with the line feed that ends it, at the front of a text. -/
def throughLineFeed : List Char → List Char
  | [] => []
  | c :: rest => if c = '\n' then [c] else c :: throughLineFeed rest

/-- The line of the place, with what ends it. -/
def wholeLine (diagnostic : Diagnostic) : List Char :=
  diagnostic.lineBefore ++ throughLineFeed diagnostic.after

/-- Whether a character ends a line or could. -/
def isLineMark (c : Char) : Bool := c == '\r' || c == '\n'

/-- A character as it is shown where carriage returns and line feeds matter. -/
def visible (c : Char) : Char :=
  if c = '\r' then '␍' else if c = '\n' then '␊' else c

/-- The line as it is shown. -/
def shownLine (diagnostic : Diagnostic) : List Char :=
  if diagnostic.after.head?.any isLineMark then diagnostic.wholeLine.map visible
  else diagnostic.wholeLine.filter fun c => !isLineMark c

/-- The mark under the place, which keeps the tabs of the line above it. -/
def underline (diagnostic : Diagnostic) : List Char :=
  (diagnostic.shownLine.take (diagnostic.column - 1)).map (fun c => if c = '\t' then c else ' ') ++
    ['^', '-', '-', '-']

/-! ## The text of a diagnostic -/

/-- Names in a row, the last of them after `or`. -/
def enumerate : List String → String
  | [] => ""
  | [name] => name
  | [first, second] => first ++ " or " ++ second
  | first :: names =>
      String.intercalate ", " (first :: names.dropLast) ++ ", or " ++ names.getLastD ""

/-- What the diagnostic says. -/
def message (diagnostic : Diagnostic) : String :=
  "expected " ++ enumerate (diagnostic.expected.map Rule.description)

/-- The place, its line with a mark under it, and the message. -/
def render (diagnostic : Diagnostic) : String :=
  let number := toString diagnostic.line
  let margin := String.ofList (List.replicate number.length ' ')
  String.intercalate "\n"
    [margin ++ "--> " ++ number ++ ":" ++ toString diagnostic.column,
      margin ++ " |",
      number ++ " | " ++ String.ofList diagnostic.shownLine,
      margin ++ " | " ++ String.ofList diagnostic.underline,
      margin ++ " |",
      margin ++ " = " ++ diagnostic.message]

end Diagnostic

/-- Why a script cannot be read, or nothing if it can. -/
def explain (script : String) : String :=
  match Diagnostic.ofScript? script with
  | none => ""
  | some diagnostic => "parse error: " ++ diagnostic.render

end ObjectActions
