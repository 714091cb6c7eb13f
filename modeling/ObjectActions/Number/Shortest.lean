import ObjectActions.Number.Binary64

/-!
# The shortest decimal for a number

A magnitude is written with the fewest decimal digits that read back as it; among
decimals of that many digits the nearest one is taken, and of two equally near the
even one.  The decimals that read back as a magnitude are those in an interval around
it, which reaches half way to its neighbours and includes its ends exactly if the
significand is even.  If an interval holds a decimal of some number of digits, it holds
one of the two such decimals next to the magnitude, so it is enough to look at those.

All comparisons are made with natural numbers, hence exactly.
-/

namespace ObjectActions.Shortest

/-- A decimal: its digits as a natural number, and the power of ten of the last one. -/
structure Decimal where
  digits : Nat
  exponent : Int
deriving DecidableEq, Repr

/-- The magnitude `4 * unit`, counted in quarters of its own last place, and how far the
decimals that read back as it reach. -/
structure Interval where
  /-- The numerator of the quarter unit. -/
  unit : Nat
  /-- The denominator of the quarter unit. -/
  scale : Nat
  /-- The magnitude, in quarter units. -/
  middle : Nat
  /-- The lower end, in quarter units. -/
  lower : Nat
  /-- The upper end, in quarter units. -/
  upper : Nat
  /-- Whether the ends belong to the interval. -/
  closed : Bool

/-- The decimals that read back as a finite number, its sign aside.  Below a power of two
the next magnitude is only half as far away. -/
def interval (x : Binary64) : Interval :=
  let m := x.significand
  let quarter := x.exponent - 2
  let narrow := m == Binary64.fractions && Binary64.leastExponent < x.exponent
  { unit := 1 <<< quarter.toNat
    scale := 1 <<< (-quarter).toNat
    middle := 4 * m
    lower := if narrow then 4 * m - 1 else 4 * m - 2
    upper := 4 * m + 2
    closed := m % 2 == 0 }

/-- The number of decimal digits of a natural number. -/
def digitCount (n : Nat) : Nat := (Nat.toDigits 10 n).length

/-- The greatest integer whose power of ten does not exceed a positive quotient. -/
def floorLog (numerator denominator : Nat) : Int :=
  if denominator ≤ numerator then (digitCount (numerator / denominator) : Int) - 1
  else
    let places := digitCount (denominator / numerator)
    if denominator ≤ numerator * Nat.pow 10 (places - 1) then 1 - (places : Int)
    else -(places : Int)

namespace Interval

/-- Whether `digits` steps of size `size / scale` lie in the interval. -/
def holds (i : Interval) (size scale digits : Nat) : Bool :=
  let point := digits * size * i.scale
  let low := i.lower * i.unit * scale
  let high := i.upper * i.unit * scale
  if i.closed then low ≤ point && point ≤ high else low < point && point < high

/-- The decimal nearest to the magnitude among those of the interval whose last digit
stands at a power of ten. -/
def nearest? (i : Interval) (exponent : Int) : Option Decimal :=
  let size := Nat.pow 10 exponent.toNat
  let scale := Nat.pow 10 (-exponent).toNat
  let target := i.middle * i.unit * scale
  let step := size * i.scale
  let below := target / step
  let above := below + 1
  match i.holds size scale below, i.holds size scale above with
  | false, false => none
  | true, false => some ⟨below, exponent⟩
  | false, true => some ⟨above, exponent⟩
  | true, true =>
      let toBelow := target - below * step
      let toAbove := above * step - target
      if toBelow < toAbove then some ⟨below, exponent⟩
      else if toAbove < toBelow then some ⟨above, exponent⟩
      else some ⟨below + below % 2, exponent⟩

end Interval

/-- Seventeen digits always tell two magnitudes apart. -/
def mostDigits : Nat := 17

/-- The shortest decimal that reads back as a finite number other than zero, its sign
aside. -/
def shortest (x : Binary64) : Decimal :=
  let i := interval x
  let leading := floorLog (i.middle * i.unit) i.scale
  ((List.range mostDigits).findSome? fun n : Nat => i.nearest? (leading - n)).getD ⟨0, 0⟩

end ObjectActions.Shortest
