import Mathlib.Algebra.Order.Field.Power
import Mathlib.Data.List.Induction
import Mathlib.Data.Rat.Cast.Order
import Mathlib.Tactic.FieldSimp
import Mathlib.Tactic.Linarith
import Mathlib.Tactic.NormNum
import Mathlib.Tactic.Ring
import ObjectActions.Number.Digits

/-!
# Numbers that stay finite

A quotient is rounded to infinity only if it is very large.  Everything below `10 ^ 308` stays
finite (`isFinite_ofRatio`), so what has at most 308 digits before its point does
(`isFinite_toBinary64`), however many digits come behind it.

The argument is about the unit in which a quotient is counted before it is rounded: there
are at most `2 ^ 53` of them in it, and the unit is at most that of the largest finite numbers.
-/

namespace ObjectActions

namespace Binary64

/-! ## The greatest power of two in a quotient -/

theorem two_pow_toNat (e : Int) :
    (2 : ℚ) ^ e.toNat = (2 : ℚ) ^ e * (2 : ℚ) ^ (-e).toNat := by
  rw [← zpow_natCast, ← zpow_natCast, ← zpow_add₀ (by norm_num)]
  congr 1
  omega

variable {numerator denominator : Nat}

/-- Shifting both sides compares a quotient with a power of two, whatever its sign. -/
theorem shiftLeft_le_iff (e : Int) :
    denominator <<< e.toNat ≤ numerator <<< (-e).toNat ↔
      (denominator : ℚ) * 2 ^ e ≤ numerator := by
  have hpos : (0 : ℚ) < 2 ^ (-e).toNat := by positivity
  rw [Nat.shiftLeft_eq, Nat.shiftLeft_eq, ← Nat.cast_le (α := ℚ)]
  push_cast
  rw [two_pow_toNat e, ← mul_assoc]
  exact mul_le_mul_iff_left₀ hpos

/-- A positive number lies between the power of two of its logarithm and the next one. -/
theorem log2_spec {n : Nat} (h : 0 < n) :
    (2 : ℚ) ^ (Nat.log2 n : Int) ≤ n ∧ (n : ℚ) < 2 ^ ((Nat.log2 n : Int) + 1) := by
  have hle : 2 ^ Nat.log2 n ≤ n := Nat.log2_self_le (Nat.ne_of_gt h)
  have hlt : n < 2 ^ (Nat.log2 n + 1) := Nat.lt_log2_self
  constructor
  · rw [zpow_natCast]
    exact_mod_cast hle
  · rw [show (Nat.log2 n : Int) + 1 = ((Nat.log2 n + 1 : Nat) : Int) by push_cast; rfl,
      zpow_natCast]
    exact_mod_cast hlt

/-- A quotient lies between the power of two of its `floorLog` and the next one. -/
theorem floorLog_spec (hnumerator : 0 < numerator) (hdenominator : 0 < denominator) :
    (denominator : ℚ) * 2 ^ floorLog numerator denominator ≤ numerator ∧
      (numerator : ℚ) < denominator * 2 ^ (floorLog numerator denominator + 1) := by
  obtain ⟨hnum, hnum'⟩ := log2_spec hnumerator
  obtain ⟨hden, hden'⟩ := log2_spec hdenominator
  have hpow (e : Int) : (0 : ℚ) < 2 ^ e := zpow_pos (by norm_num) e
  have hadd (d e : Int) : (2 : ℚ) ^ d * 2 ^ e = 2 ^ (d + e) := (zpow_add₀ (by norm_num) d e).symm
  set a : Int := ((Nat.log2 numerator : Nat) : Int)
  set b : Int := ((Nat.log2 denominator : Nat) : Int)
  have hfloor : floorLog numerator denominator =
      if (denominator : ℚ) * 2 ^ (a - b) ≤ numerator then a - b else a - b - 1 := by
    rw [floorLog]
    simp only [shiftLeft_le_iff]
    rfl
  rw [hfloor]
  split
  · next hle =>
      refine ⟨hle, ?_⟩
      calc (numerator : ℚ) < 2 ^ (a + 1) := hnum'
        _ = 2 ^ b * 2 ^ (a - b + 1) := by rw [hadd]; congr 1; omega
        _ ≤ denominator * 2 ^ (a - b + 1) := mul_le_mul_of_nonneg_right hden (hpow _).le
  · next hlt =>
      constructor
      · calc (denominator : ℚ) * 2 ^ (a - b - 1) ≤ 2 ^ (b + 1) * 2 ^ (a - b - 1) :=
              mul_le_mul_of_nonneg_right hden'.le (hpow _).le
          _ = 2 ^ a := by rw [hadd]; congr 1; omega
          _ ≤ numerator := hnum
      · rw [Int.sub_add_cancel]
        exact not_le.mp hlt

/-! ## Rounding below the largest number -/

/-- The exponent of the unit in which a quotient is counted. -/
def unitExponent (numerator denominator : Nat) : Int :=
  max leastExponent (floorLog numerator denominator - 52)

/-- How many units of `2 ^ e` are in a quotient, rounded. -/
def unitCount (numerator denominator : Nat) (e : Int) : Nat :=
  roundDiv (numerator <<< (-e).toNat) (denominator <<< e.toNat)

theorem nearestCode_eq (h : numerator ≠ 0) :
    nearestCode numerator denominator =
      (unitExponent numerator denominator - leastExponent).toNat * fractions +
        unitCount numerator denominator (unitExponent numerator denominator) := by
  rw [nearestCode, if_neg h]
  rfl

/-- Rounding adds at most half a unit. -/
theorem unitCount_mul_le (numerator denominator : Nat) (e : Int) :
    2 * (unitCount numerator denominator e : ℚ) * (denominator * 2 ^ e) ≤
      2 * numerator + denominator * 2 ^ e := by
  have hpos : (0 : ℚ) < 2 ^ (-e).toNat := by positivity
  have hround := roundDiv_mul_le (numerator <<< (-e).toNat) (denominator <<< e.toNat)
  rw [← unitCount, Nat.shiftLeft_eq, Nat.shiftLeft_eq, ← Nat.cast_le (α := ℚ)] at hround
  push_cast at hround
  rw [two_pow_toNat e] at hround
  refine le_of_mul_le_mul_right ?_ hpos
  calc 2 * (unitCount numerator denominator e : ℚ) * (denominator * 2 ^ e) * 2 ^ (-e).toNat
      = 2 * (unitCount numerator denominator e * (denominator * (2 ^ e * 2 ^ (-e).toNat))) := by
        ring
    _ ≤ 2 * (numerator * 2 ^ (-e).toNat) + denominator * (2 ^ e * 2 ^ (-e).toNat) := hround
    _ = (2 * numerator + denominator * 2 ^ e) * 2 ^ (-e).toNat := by ring

/-- A quotient of less than `bound` units has at most `bound` of them after rounding. -/
theorem unitCount_le {e : Int} {bound : Nat} (hdenominator : 0 < denominator)
    (h : (numerator : ℚ) < denominator * 2 ^ e * bound) :
    unitCount numerator denominator e ≤ bound := by
  have hunit : (0 : ℚ) < denominator * 2 ^ e :=
    mul_pos (by exact_mod_cast hdenominator) (zpow_pos (by norm_num) e)
  have hround := unitCount_mul_le numerator denominator e
  have hlt : 2 * (unitCount numerator denominator e : ℚ) < 2 * bound + 1 := by
    refine lt_of_mul_lt_mul_right ?_ hunit.le
    calc 2 * (unitCount numerator denominator e : ℚ) * (denominator * 2 ^ e)
        ≤ 2 * numerator + denominator * 2 ^ e := hround
      _ < 2 * (denominator * 2 ^ e * bound) + denominator * 2 ^ e := by linarith
      _ = (2 * bound + 1) * (denominator * 2 ^ e) := by ring
  have hnat : 2 * unitCount numerator denominator e < 2 * bound + 1 := by exact_mod_cast hlt
  omega

/-- The largest unit of a finite number, taken almost as often as it may be, exceeds `10 ^ 308`. -/
theorem ten_pow_le : (10 : ℚ) ^ 308 ≤ 2 ^ (971 : Int) * ((2 ^ 53 - 1 : Nat) : ℚ) := by
  have hnat : 10 ^ 308 ≤ 2 ^ 971 * (2 ^ 53 - 1) := by decide +kernel
  have hcast : ((10 ^ 308 : Nat) : ℚ) ≤ ((2 ^ 971 * (2 ^ 53 - 1) : Nat) : ℚ) := Nat.cast_le.mpr hnat
  rw [Nat.cast_pow, Nat.cast_mul, Nat.cast_pow] at hcast
  exact hcast

/-- **What is below `10 ^ 308` stays finite.** -/
theorem isFinite_ofRatio (negative : Bool) (hdenominator : 0 < denominator)
    (h : (numerator : ℚ) < denominator * 10 ^ 308) :
    (ofRatio negative numerator denominator).isFinite := by
  have hcode : nearestCode numerator denominator < infinityCode := by
    by_cases hzero : numerator = 0
    · rw [hzero, nearestCode, if_pos rfl]
      decide
    · obtain ⟨hfloor, hfloor'⟩ := floorLog_spec (Nat.pos_of_ne_zero hzero) hdenominator
      have hden : (0 : ℚ) < denominator := by exact_mod_cast hdenominator
      rw [nearestCode_eq hzero]
      set f := floorLog numerator denominator
      set e := unitExponent numerator denominator
      have he : f - 52 ≤ e := le_max_right _ _
      have hle : f ≤ 1023 := by
        have hlt : (2 : ℚ) ^ f < 2 ^ (1024 : Int) := by
          calc (2 : ℚ) ^ f < 10 ^ 308 := lt_of_mul_lt_mul_left (hfloor.trans_lt h) hden.le
            _ ≤ 2 ^ (971 : Int) * ((2 ^ 53 - 1 : Nat) : ℚ) := ten_pow_le
            _ < 2 ^ (971 : Int) * 2 ^ (53 : Int) := by
              refine mul_lt_mul_of_pos_left ?_ (zpow_pos (by norm_num) _)
              norm_num
            _ = 2 ^ (1024 : Int) := (zpow_add₀ (by norm_num) 971 53).symm
        have := (zpow_lt_zpow_iff_right₀ (by norm_num)).mp hlt
        omega
      have he' : e ≤ 971 := by
        apply max_le
        · decide
        · omega
      have hcount : unitCount numerator denominator e ≤ 2 ^ 53 := by
        apply unitCount_le hdenominator
        calc (numerator : ℚ) < denominator * 2 ^ (f + 1) := hfloor'
          _ ≤ denominator * 2 ^ (e + 53) :=
            mul_le_mul_of_nonneg_left (zpow_le_zpow_right₀ (by norm_num) (by omega)) hden.le
          _ = denominator * 2 ^ e * ((2 ^ 53 : Nat) : ℚ) := by
            rw [zpow_add₀ (by norm_num), mul_assoc]
            norm_num
      -- Only the largest unit can be taken so often that the code of infinity is reached.
      have hlast : e = 971 → unitCount numerator denominator e ≤ 2 ^ 53 - 1 := by
        intro hlargest
        apply unitCount_le hdenominator
        calc (numerator : ℚ) < denominator * 10 ^ 308 := h
          _ ≤ denominator * (2 ^ (971 : Int) * ((2 ^ 53 - 1 : Nat) : ℚ)) :=
            mul_le_mul_of_nonneg_left ten_pow_le hden.le
          _ = denominator * 2 ^ e * ((2 ^ 53 - 1 : Nat) : ℚ) := by rw [hlargest, mul_assoc]
      simp only [infinityCode, fractions, leastExponent]
      omega
  rw [isFinite, ofRatio, decide_eq_true_eq]
  exact (Nat.min_le_left _ _).trans_lt hcode

end Binary64

/-! ## Numbers from digits -/

namespace Digits

/-- A row of digits denotes less than the power of ten of its length. -/
theorem value_lt {digits : List Char} (h : ∀ c ∈ digits, c.isDigit = true) :
    value digits < 10 ^ digits.length := by
  induction digits using List.reverseRecOn with
  | nil => decide
  | append_singleton digits c ih =>
      have hc : digitValue c ≤ 9 := digitValue_le (h c (by simp))
      have hrest := ih fun d hd => h d (List.mem_append_left _ hd)
      rw [value_append_singleton, List.length_append, List.length_singleton, pow_succ]
      omega

/-- **At most 308 digits before the point** make a number that is finite. -/
theorem isFinite_toBinary64 {integral fraction : List Char}
    (hintegral : ∀ c ∈ integral, c.isDigit = true) (hfraction : ∀ c ∈ fraction, c.isDigit = true)
    (h : integral.length ≤ 308) : (toBinary64 integral fraction).isFinite := by
  have hpos : 0 < Nat.pow 10 fraction.length := Nat.pow_pos (by decide)
  have hdigits : ∀ c ∈ integral ++ fraction, c.isDigit = true := fun c hc =>
    (List.mem_append.mp hc).elim (hintegral c) (hfraction c)
  apply Binary64.isFinite_ofRatio false hpos
  have hvalue : value (integral ++ fraction) < Nat.pow 10 fraction.length * 10 ^ 308 :=
    calc value (integral ++ fraction) < 10 ^ (integral ++ fraction).length := value_lt hdigits
      _ ≤ 10 ^ (fraction.length + 308) :=
        Nat.pow_le_pow_right (by decide) (by rw [List.length_append]; omega)
      _ = Nat.pow 10 fraction.length * 10 ^ 308 := pow_add 10 fraction.length 308
  have hcast := Nat.cast_lt (α := ℚ).mpr hvalue
  rwa [Nat.cast_mul, Nat.cast_pow 10 308] at hcast

end Digits

end ObjectActions
