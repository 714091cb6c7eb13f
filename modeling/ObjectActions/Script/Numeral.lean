import ObjectActions.Grammar.Basic
import ObjectActions.Number.Digits
import ObjectActions.Script.Rule

/-!
# Numbers in scripts

Numbers are written with decimal digits, and with a point if they have a fraction; there
may be no digits before the point.  A sign stands directly before the digits, so where a
list of numbers is read a sign also begins a new number, and blanks between two numbers
can be left out wherever the digits show where the second one begins.
-/

namespace ObjectActions.Script

/-! ## Rows of digits -/

/-- A word that is not empty. -/
def nonempty? (word : String) : Option String :=
  if word = "" then none else some word

/-- One digit or more. -/
def digits (rule : Rule) : Grammar Rule String :=
  .token rule (.run Char.isDigit) nonempty?

/-- A count; one that is too large stands for the largest one. -/
def integer : Grammar Rule UInt32 :=
  (digits .integer).map fun row => (Digits.word? row.toList).getD Digits.largest

/-- A number with a fraction. -/
def fractionNumber : Grammar Rule Binary64 :=
  .rule .floatFract <|
    .map (fun parts => Digits.toBinary64 parts.1.toList parts.2.2.toList)
      (.join (.token .integral (.run Char.isDigit) some)
        (.join (.literal ".") (digits .fractional)))

/-- A number without a fraction. -/
def wholeNumber : Grammar Rule Binary64 :=
  (digits .floatWhole).map fun word => Digits.toBinary64 word.toList []

/-- A number without a sign. -/
def number : Grammar Rule Binary64 :=
  .rule .float (fractionNumber <|> wholeNumber)

/-! ## Signs -/

/-- A sign, which is true if it turns the number. -/
def sign : Grammar Rule Bool :=
  .token .sign .letter fun word =>
    if word = "+" then some false else if word = "-" then some true else none

/-- The number with its sign turned if asked for. -/
def turn (negative : Bool) (x : Binary64) : Binary64 :=
  if negative then -x else x

/-- A number that may have a sign. -/
def signedNumber : Grammar Rule Binary64 :=
  .rule .signedFloat <|
    .map (fun parts => turn (parts.1.getD false) parts.2) (.join (.optional sign) number)

/-- A number that must have a sign. -/
def forcedNumber : Grammar Rule Binary64 :=
  .rule .forceSignedFloat <|
    .map (fun parts => turn parts.1 parts.2) (.join sign number)

/-- One number or more. -/
def numberList : Grammar Rule (List Binary64) :=
  .rule .coordinateList (.oneOrMore signedNumber)

end ObjectActions.Script
