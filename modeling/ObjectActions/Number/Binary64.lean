/-!
# Binary floating-point numbers

The numbers of scripts and of JSON texts are the binary floating-point numbers of 64
bits.  Nothing is computed with them except that signs are turned and factors are
kept within bounds, so a number is represented by what is needed for that: its sign,
and the code of its magnitude, which is its biased exponent and its fraction read as
one natural number.  Codes are ordered as magnitudes are, infinity has the code
`infinityCode`, and the codes above it are not numbers.

A quotient of natural numbers is rounded once, to the nearest magnitude, and a tie
goes to the even code.  The main statements are `roundDiv_mul_le` and
`le_roundDiv_mul`: rounding a quotient is off by at most half a unit.
-/

namespace ObjectActions

/-! ## Rounding a quotient -/

/-- The natural number nearest to a quotient; of two equally near, the even one. -/
def roundDiv (numerator denominator : Nat) : Nat :=
  let quotient := numerator / denominator
  let double := 2 * (numerator % denominator)
  if double < denominator then quotient
  else if denominator < double then quotient + 1
  else quotient + quotient % 2

/-- A rounded quotient is at most half a unit too large. -/
theorem roundDiv_mul_le (numerator denominator : Nat) :
    2 * (roundDiv numerator denominator * denominator) ≤ 2 * numerator + denominator := by
  have hdiv := Nat.div_add_mod numerator denominator
  have hsucc := Nat.succ_mul (numerator / denominator) denominator
  have hcomm := Nat.mul_comm denominator (numerator / denominator)
  unfold roundDiv
  rcases Nat.mod_two_eq_zero_or_one (numerator / denominator) with h | h <;> grind

/-- A rounded quotient is at most half a unit too small. -/
theorem le_roundDiv_mul (numerator : Nat) {denominator : Nat} (hpos : 0 < denominator) :
    2 * numerator ≤ 2 * (roundDiv numerator denominator * denominator) + denominator := by
  have hdiv := Nat.div_add_mod numerator denominator
  have hsucc := Nat.succ_mul (numerator / denominator) denominator
  have hcomm := Nat.mul_comm denominator (numerator / denominator)
  have hlt := Nat.mod_lt numerator hpos
  unfold roundDiv
  rcases Nat.mod_two_eq_zero_or_one (numerator / denominator) with h | h <;> grind

/-! ## The numbers -/

/-- A binary floating-point number of 64 bits: its sign and the code of its magnitude. -/
structure Binary64 where
  /-- Whether the sign is set. -/
  negative : Bool
  /-- The biased exponent and the fraction, read as one number. -/
  code : Nat
  code_lt : code < 0x8000000000000000
deriving DecidableEq

namespace Binary64

/-- The number of fractions that share one exponent. -/
def fractions : Nat := 0x10000000000000

/-- The code of infinity, which follows that of the largest finite magnitude. -/
def infinityCode : Nat := 0x7FF * fractions

/-- The exponent of the unit in which the smallest magnitudes are counted. -/
def leastExponent : Int := -1074

theorem infinityCode_lt : infinityCode < 0x8000000000000000 := by decide

/-- Whether this is neither infinite nor the absence of a number. -/
def isFinite (x : Binary64) : Bool := x.code < infinityCode

/-- Whether this stands for the absence of a number. -/
def isNaN (x : Binary64) : Bool := infinityCode < x.code

/-- Whether this is a number above zero. -/
def isPositive (x : Binary64) : Bool :=
  !x.negative && 0 < x.code && x.code ≤ infinityCode

/-- The number with its sign turned; zero has two signs too. -/
def neg (x : Binary64) : Binary64 := { x with negative := !x.negative }

instance : Neg Binary64 := ⟨neg⟩

/-- Positive infinity. -/
def infinity : Binary64 := ⟨false, infinityCode, infinityCode_lt⟩

/-- The absence of a number. -/
def nan : Binary64 := ⟨false, infinityCode + fractions / 2, by decide⟩

/-! ## Significand and exponent -/

/-- A finite magnitude is `significand * 2 ^ exponent`. -/
def significand (x : Binary64) : Nat :=
  if x.code < fractions then x.code else x.code % fractions + fractions

/-- A finite magnitude is `significand * 2 ^ exponent`. -/
def exponent (x : Binary64) : Int :=
  if x.code < fractions then leastExponent else x.code / fractions + leastExponent - 1

/-! ## Rounding to a number -/

/-- The greatest integer whose power of two does not exceed a positive quotient. -/
def floorLog (numerator denominator : Nat) : Int :=
  let estimate : Int := (Nat.log2 numerator : Int) - (Nat.log2 denominator : Int)
  if denominator <<< estimate.toNat ≤ numerator <<< (-estimate).toNat then estimate
  else estimate - 1

/-- The code of the magnitude nearest to a quotient, without regard to the largest. -/
def nearestCode (numerator denominator : Nat) : Nat :=
  if numerator = 0 then 0
  else
    let unit := max leastExponent (floorLog numerator denominator - 52)
    (unit - leastExponent).toNat * fractions +
      roundDiv (numerator <<< (-unit).toNat) (denominator <<< unit.toNat)

/-- The number nearest to a quotient, with a given sign.  A quotient beyond the largest
finite magnitude becomes infinite. -/
def ofRatio (negative : Bool) (numerator denominator : Nat) : Binary64 where
  negative := negative
  code := min (nearestCode numerator denominator) infinityCode
  code_lt := Nat.lt_of_le_of_lt (Nat.min_le_right _ _) infinityCode_lt

/-- The number nearest to an integer. -/
def ofInt (n : Int) : Binary64 := ofRatio (n < 0) n.natAbs 1

/-- Zero, with the sign clear. -/
def zero : Binary64 := ofRatio false 0 1

/-- One. -/
def one : Binary64 := ofRatio false 1 1

/-! ## Facts -/

/-- Rounding always gives a number. -/
@[simp] theorem isNaN_ofRatio (negative : Bool) (numerator denominator : Nat) :
    (ofRatio negative numerator denominator).isNaN = false :=
  decide_eq_false (Nat.not_lt.mpr (Nat.min_le_right _ _))

@[simp] theorem negative_ofRatio (negative : Bool) (numerator denominator : Nat) :
    (ofRatio negative numerator denominator).negative = negative := rfl

@[simp] theorem negative_neg (x : Binary64) : (-x).negative = !x.negative := rfl

@[simp] theorem code_neg (x : Binary64) : (-x).code = x.code := rfl

@[simp] theorem neg_neg (x : Binary64) : - -x = x := by
  cases x with
  | mk negative code code_lt =>
      show Binary64.mk (!(!negative)) code code_lt = ⟨negative, code, code_lt⟩
      rw [Bool.not_not]

@[simp] theorem isNaN_neg (x : Binary64) : (-x).isNaN = x.isNaN := rfl

@[simp] theorem isFinite_neg (x : Binary64) : (-x).isFinite = x.isFinite := rfl

end Binary64

end ObjectActions
