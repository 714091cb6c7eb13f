import ObjectActions.Grammar.Tracking
import ObjectActions.Grammar.Tree
import ObjectActions.Notice

/-!
# Evaluating trees

A script can also be carried out in two steps: first it is matched, which gives a tree of parts and
no values, and then the tree is evaluated from its top.  The second step knows nothing of the
grammar.  It looks at the names and the texts of parts, and it has an answer to every tree, also to
those that no script has: each place where a part is missing, or is not one of those that make sense
there, is a failure of its own.

A failure is the end of the evaluation, with one exception.  A command that sets an attribute again
is noticed and left out, and the evaluation goes on.
-/

namespace ObjectActions

/-! ## Failures -/

/-- Why a script has no actions. -/
inductive Failure where
  /-- The script cannot be read. -/
  | unmatched (diagnostic : Diagnostic)
  /-- A tree is not made as it should be. -/
  | shape (reason : String)
  /-- A command sets an attribute again. -/
  | setTwice (name : Attribute)
deriving DecidableEq

namespace Failure

/-- What a failure says. -/
def message : Failure → String
  | unmatched diagnostic => "parse error: " ++ diagnostic.render
  | shape reason => "unexpected grammar shape: " ++ reason
  | setTwice name => "attribute '" ++ name.key ++ "' given more than once"

end Failure

namespace Evaluation

open Script

/-- What should be there, or the reason why it should. -/
def need {α : Type} (value? : Option α) (reason : String) : Except Failure α :=
  match value? with
  | some value => .ok value
  | none => .error (.shape reason)

/-! ## Texts and numbers -/

/-- The value of a parameter, as a part. -/
def parameterValue (part : Tree Rule) : Except Failure (Tree Rule) :=
  need part.parts.head? "parameter without value"

/-- A text without the double quotes around it. -/
def unquote (text : String) : String :=
  match text.toList with
  | '"' :: rest => if rest.getLast? = some '"' then String.ofList rest.dropLast else text
  | _ => text

/-- A count, held down to the largest that an attribute can hold. -/
def count (part : Tree Rule) : UInt32 :=
  (Digits.count? part.text).getD Digits.largest

/-- A numeral with a digit before its point. -/
def withIntegral (text : String) : String :=
  if text.toList.head? = some '.' then "0" ++ text else text

/-- A number without a sign. -/
def number (part : Tree Rule) : Except Failure Binary64 := do
  let form ← need part.parts.head? "empty float"
  match form.name with
  | .floatFract => need (Digits.measure? (withIntegral form.text)) "invalid fractional number"
  | .floatWhole => need (Digits.measure? form.text) "invalid whole number"
  | _ => .error (.shape "unexpected float form")

/-- What is known of a number behind some of its parts. -/
structure Signed where
  /-- Whether a sign has been written. -/
  signed : Bool
  /-- Whether the last sign turns the number. -/
  negative : Bool
  /-- The last number without a sign. -/
  value : Option Binary64

/-- What is known behind one more part. -/
def Signed.step (known : Signed) (part : Tree Rule) : Except Failure Signed :=
  match part.name with
  | .sign => .ok { known with signed := true, negative := part.text = "-" }
  | .float => do
      let value ← number part
      return { known with value := some value }
  | _ => .error (.shape "unexpected token in signed number")

/-- A number that may have a sign, and whether it has one. -/
def signedPair (part : Tree Rule) : Except Failure (Binary64 × Bool) := do
  let known ← part.parts.foldlM Signed.step ⟨false, false, none⟩
  let value ← need known.value "signed number without digits"
  return (turn known.negative value, known.signed)

/-- A number that may have a sign. -/
def signedNumber (part : Tree Rule) : Except Failure Binary64 :=
  (signedPair part).map Prod.fst

/-- A list of numbers. -/
def numberList (part : Tree Rule) : Except Failure (List Binary64) :=
  part.parts.mapM signedNumber

/-- A truth value. -/
def boolean (part : Tree Rule) : Except Failure Bool :=
  need (truthWords.lookup part.text) "unknown boolean keyword"

/-! ## Places -/

/-- A number with the letter of its axis. -/
def axisNumber (positive : String) (part : Tree Rule) : Except Failure Binary64 := do
  let value ← number (← need part.parts[0]? "axis without value")
  let letter ← need part.parts[1]? "axis without letter"
  return if Text.alike letter.text positive then value else -value

/-- A position. -/
def position (part : Tree Rule) : Except Failure Position :=
  match part.name with
  | .absoluteCoordinates => do
      let ns ← need part.parts[0]? "missing north/south coordinate"
      let ew ← need part.parts[1]? "missing east/west coordinate"
      return .absolute (← axisNumber "n" ns) (← axisNumber "e" ew)
  | .relativeCoordinates => do
      let x ← need part.parts[0]? "missing relative x"
      let y ← need part.parts[1]? "missing relative y"
      return .relative (← signedNumber x) (← signedNumber y)
  | _ => .error (.shape "unexpected coordinates form")

/-- A place with what one more part says about it. -/
def bearing (place : Place) (part : Tree Rule) : Except Failure Place :=
  match part.name with
  | .altitude => do
      let (value, signed) ← signedPair part
      return { place with altitude := some ⟨signed, value⟩ }
  | .direction => do
      let code ← need part.parts.head? "direction without digits"
      return { place with direction := some (count code) }
  | _ => .error (.shape "unexpected coordinates suffix")

/-- A place. -/
def place (part : Tree Rule) : Except Failure Place := do
  let first ← need part.parts.head? "coordinates block without position"
  let position ← position first
  part.parts.tail.foldlM bearing ⟨position, none, none⟩

/-! ## Arguments -/

/-- What a part with a certain name says about the attributes of a verb. -/
abbrev Arm (verb : Verb) : Type := Tree Rule → Except Failure (Argument verb)

section Arms

variable {verb : Verb} {α : Type}

/-- A part that always sets an attribute. -/
def sets (a : Attribute) (value : Tree Rule → Except Failure a.Value)
    (known : verb.attributes.contains a := by decide) : Arm verb :=
  fun part => (value part).map fun v => some ⟨a, v, List.contains_iff_mem.mp known⟩

/-- A part that sets an attribute if its value makes sense. -/
def maySet (a : Attribute) (value : Tree Rule → Except Failure (Option a.Value))
    (known : verb.attributes.contains a := by decide) : Arm verb :=
  fun part => (value part).map fun v => v.map fun v => ⟨a, v, List.contains_iff_mem.mp known⟩

/-- A part that says nothing. -/
def ignored : Arm verb := fun _ => .ok none

/-- What the value of a parameter says. -/
def parameter (value : Tree Rule → Except Failure α) : Tree Rule → Except Failure α :=
  fun part => parameterValue part >>= value

/-- The text of a part. -/
def text (part : Tree Rule) : Except Failure String := .ok part.text

/-- The color that the text of a part stands for, if it stands for one. -/
def color (part : Tree Rule) : Except Failure (Option Color) := .ok (Color.resolve? part.text)

/-- Truth, whatever the part is. -/
def flag (_ : Tree Rule) : Except Failure Bool := .ok true

/-- Whether the text of a part is a certain word. -/
def status (affirmative : String) (part : Tree Rule) : Except Failure Bool :=
  .ok (part.text = affirmative)

/-- The target of a command as a parameter. -/
def target (known : verb.attributes.contains .targetName := by decide) : Rule × Arm verb :=
  (.parameter .name, sets .targetName (parameter text) known)

end Arms

/-- The parts that make sense as arguments of a verb, by their names. -/
def arms : (verb : Verb) → List (Rule × Arm verb)
  | .texture =>
      [target, (.parameter .mask, sets .mask (parameter text)),
        (.parameter .tag, sets .tag (parameter text)), (.basicResource, sets .texture text)]
  | .sound => [(.resourceTarget, sets .resource text)]
  | .corona =>
      [target, (.parameter .mask, sets .mask (parameter text)),
        (.parameter .size, sets .size (parameter fun part => .ok (count part))),
        (.basicResource, sets .resource text)]
  | .color => [target, (.tintFlag, sets .tint flag), (.colorName, maySet .color color)]
  | .examine => []
  | .solid => [(.boolean, sets .value boolean), target, (.objectName, sets .targetName text)]
  | .name => [(.objectName, sets .targetName text)]
  | .visible => [(.boolean, sets .value boolean), target, (.objectName, sets .targetName text)]
  | .move =>
      [target, (.parameter .time, sets .time (parameter number)),
        (.parameter .wait, sets .wait (parameter number)),
        (.loopStatus, sets .loop (status "loop")), (.resetStatus, sets .reset (status "reset")),
        (.syncStatus, sets .sync (status "sync")), (.smoothFlag, sets .smooth flag),
        (.globalFlag, sets .global flag),
        (.coordinateList, sets .distance fun part => (numberList part).map Triple.ofOffsets)]
  | .rotate =>
      [target, (.parameter .time, sets .time (parameter number)),
        (.parameter .wait, sets .wait (parameter number)),
        (.loopStatus, sets .loop (status "loop")), (.resetStatus, sets .reset (status "reset")),
        (.syncStatus, sets .sync (status "sync")),
        (.coordinateList, sets .speed fun part => (numberList part).map Triple.ofOffsets)]
  | .scale =>
      [target, (.coordinateList, sets .factor fun part => (numberList part).map Triple.ofFactors)]
  | .light =>
      [target, (.parameter .color, maySet .color (parameter color)),
        (.parameter .brightness, sets .brightness (parameter number)),
        (.parameter .radius, sets .radius (parameter number)),
        (.parameter .type, sets .lightType (parameter text)),
        (.parameter .fx, sets .fx (parameter text)),
        (.parameter .time, sets .time (parameter number)),
        (.parameter .angle, sets .angle (parameter signedNumber)),
        (.parameter .pitch, sets .pitch (parameter signedNumber))]
  | .noise => [(.overlapFlag, ignored), (.resourceTarget, sets .resource text)]
  | .picture =>
      [target, (.parameter .update, sets .update (parameter fun part => .ok (count part))),
        (.resourceTarget, sets .resource text)]
  | .media =>
      [target, (.parameter .radius, sets .radius (parameter number)),
        (.resourceTarget, sets .resource text)]
  | .sign =>
      [target, (.parameter .color, maySet .color (parameter color)),
        (.parameter .bcolor, maySet .bcolor (parameter color)),
        (.signText, sets .text fun part => .ok (unquote part.text))]
  | .teleport =>
      [(.worldName, sets .worldName text), (.worldCoordinates, sets .coordinates place)]
  | .url => [(.resourceTarget, sets .resource text)]

/-- The word for a verb where its arguments are concerned. -/
def argumentWord : Verb → String
  | .solid | .visible => "toggle"
  | verb => verb.word

/-- What a part says as an argument of a verb. -/
def argument (verb : Verb) (part : Tree Rule) : Except Failure (Argument verb) :=
  match (arms verb).lookup part.name with
  | some arm => arm part
  | none => .error (.shape ("unexpected " ++ argumentWord verb ++ " argument"))

/-! ## Commands -/

/-- The record with what one more part says; no attribute is set again. -/
def assign {verb : Verb} (record : Record verb.attributes) (part : Tree Rule) :
    Except Failure (Record verb.attributes) := do
  match ← argument verb part with
  | none => return record
  | some setting =>
      if (record.get? setting.name).isSome then .error (.setTwice setting.name)
      else return record.set setting

/-- The parts of a command behind its keyword. -/
def arguments (part : Tree Rule) : List (Tree Rule) := part.parts.tail

/-- The command of a part. -/
def command (part : Tree Rule) : Except Failure Command :=
  match part.name with
  | .command (.named (.verb .examine)) => .ok (.act .examine .unset)
  | .command (.named (.verb verb)) =>
      ((arguments part).foldlM assign Record.unset).map (.act verb)
  | .command (.named .warp) => do
      let block ← need (arguments part).head? "warp without coordinates"
      return .warp (← place block)
  | .command .invalid => .ok (.invalid part.text)
  | _ => .error (.shape "unknown command rule")

/-- What is evaluated while notices are given; those that were given before a failure stay. -/
abbrev Noticing (α : Type) : Type := ExceptT Failure (StateM (List Notice)) α

/-- The command of a part, or none if it sets an attribute again, which is noticed. -/
def command? (part : Tree Rule) : Noticing (Option Command) :=
  match command part with
  | .ok command => pure (some command)
  | .error (.setTwice name) => do
      modify (· ++ [.setTwice part.text name])
      return none
  | .error failure => throw failure

/-! ## Scripts -/

/-- The action of a part. -/
def action (part : Tree Rule) : Noticing Action := do
  let keyword ← ofExcept (need part.parts.head? "action without trigger")
  let trigger ← ofExcept (need (Trigger.ofKeyword? keyword.text) "unknown trigger keyword")
  let commands ← part.parts.tail.mapM command?
  return ⟨trigger, commands⟩

/-- The actions with the one of one more part at the top of a script. -/
def item (actions : List Action) (part : Tree Rule) : Noticing (List Action) :=
  match part.name with
  | .action => do
      let action ← action part
      return actions ++ [action]
  | .endOfInput => pure actions
  | _ => throw (.shape "unexpected top-level item")

/-- The actions of the parts at the top of a script, and the notices about them. -/
def evaluate (parts : List (Tree Rule)) : Except Failure (List Action) × List Notice :=
  ((parts.foldlM item [] : Noticing (List Action)).run).run []

/-- The parts at the top of a cleaned script, or what the record of failed attempts says. -/
def matched (text : List Char) : Except Failure (List (Tree Rule)) :=
  match actions.trees? (Text.skipBlanks text) with
  | some (parts, _) => .ok parts
  | none =>
      let record := actions.track (Text.skipBlanks text) ⟨text.length, []⟩
      .error (.unmatched
        ⟨text, text.length - record.remaining, Diagnostic.listed record.names⟩)

/-- The actions of a script, and the notices about them. -/
def ofScript (script : String) : Except Failure (List Action) × List Notice :=
  match matched (Text.clean script).toList with
  | .ok parts => evaluate parts
  | .error failure => (.error failure, [])

end Evaluation

end ObjectActions
