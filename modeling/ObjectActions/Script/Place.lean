import ObjectActions.Place
import ObjectActions.Script.Numeral

/-!
# Places in scripts

A position is either two numbers that end in the letter of their axis, as in `10n 20w`,
or two numbers that have a sign, as in `+1 -2`.  An altitude ends in `a` and is relative
if it has a sign; a direction is a count.
-/

namespace ObjectActions.Script

/-- The letter of an axis, which is true if it points the negative way. -/
def axis (rule : Rule) (positive negative : String) : Grammar Rule Bool :=
  .token rule .letter fun word =>
    if Text.alike word positive then some false
    else if Text.alike word negative then some true
    else none

/-- A number with the letter of its axis. -/
def axisNumber (rule : Rule) (letter : Grammar Rule Bool) : Grammar Rule Binary64 :=
  .rule rule <| .map (fun parts => turn parts.2 parts.1) (.join number letter)

/-- A point of the grid. -/
def absolutePosition : Grammar Rule Position :=
  .rule .absoluteCoordinates <|
    .map (fun parts => .absolute parts.1 parts.2)
      (.seq (axisNumber .nsCoordinate (axis .nsAxis "n" "s"))
        (axisNumber .ewCoordinate (axis .ewAxis "e" "w")))

/-- An offset from where someone stands. -/
def relativePosition : Grammar Rule Position :=
  .rule .relativeCoordinates <|
    .map (fun parts => .relative parts.1 parts.2) (.seq forcedNumber forcedNumber)

/-- A height. -/
def altitude : Grammar Rule Altitude :=
  .rule .altitude <|
    .map (fun parts => ⟨parts.1.isSome, turn (parts.1.getD false) parts.2.1⟩)
      (.join (.optional sign) (.join number (.literal "a")))

/-- The direction in which someone will look. -/
def direction : Grammar Rule UInt32 := .rule .direction integer

/-- A place. -/
def place : Grammar Rule Place :=
  .rule .worldCoordinates <|
    .map (fun parts => ⟨parts.1, parts.2.1, parts.2.2⟩)
      (.seq (absolutePosition <|> relativePosition)
        (.seq (.optional altitude) (.optional direction)))

end ObjectActions.Script
