import ObjectActions.Number.Shortest

/-!
# Writing numbers

A finite number is written with the digits of its shortest decimal.  If the first
digit stands for a power of ten between `leastPositional` and `greatestPositional` the
number is written positionally, always with a point and at least one digit after it;
otherwise one digit stands before the point, which is left out if nothing follows it,
and the power is written out with its sign.  Zero keeps its sign.
-/

namespace ObjectActions.Numeral

/-- The smallest power of ten that is written positionally. -/
def leastPositional : Int := -5

/-- The largest power of ten that is written positionally. -/
def greatestPositional : Int := 15

/-- The digits of a natural number without the zeros at their end. -/
def significantDigits (n : Nat) : List Char :=
  ((Nat.toDigits 10 n).reverse.dropWhile (· == '0')).reverse

/-- A fraction has at least one digit. -/
def orZero : List Char → List Char
  | [] => ['0']
  | digits => digits

/-- Digits of which the first stands for `10 ^ leading`, around a point. -/
def positional (digits : List Char) (leading : Int) : List Char :=
  if leading < 0 then
    ['0', '.'] ++ List.replicate ((-leading).toNat - 1) '0' ++ digits
  else
    let whole := leading.toNat + 1
    digits.take whole ++ List.replicate (whole - digits.length) '0' ++
      ['.'] ++ orZero (digits.drop whole)

/-- Digits of which the first stands for `10 ^ leading`, with the power written out. -/
def scientific (digits : List Char) (leading : Int) : List Char :=
  let fraction := digits.drop 1
  digits.take 1 ++ (if fraction.isEmpty then [] else '.' :: fraction) ++
    ['e', if leading < 0 then '-' else '+'] ++ Nat.toDigits 10 leading.natAbs

/-- The text of a finite magnitude. -/
def magnitude (x : Binary64) : List Char :=
  if x.code = 0 then ['0', '.', '0']
  else
    let decimal := Shortest.shortest x
    let digits := Nat.toDigits 10 decimal.digits
    let leading := decimal.exponent + digits.length - 1
    if leastPositional ≤ leading ∧ leading ≤ greatestPositional then
      positional (significantDigits decimal.digits) leading
    else scientific (significantDigits decimal.digits) leading

/-- The text of a finite number. -/
def write (x : Binary64) : String :=
  String.ofList (if x.negative then '-' :: magnitude x else magnitude x)

end ObjectActions.Numeral
