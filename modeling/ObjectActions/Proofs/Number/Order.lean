import Mathlib.Algebra.Order.Field.Power
import Mathlib.Data.Rat.Cast.Order
import Mathlib.Tactic.Linarith
import Mathlib.Tactic.NormNum
import Mathlib.Tactic.Ring
import ObjectActions.Triple

/-!
# The order of numbers

A finite number stands for a rational number (`toRat`), and of two numbers without a sign the one
with the smaller code stands for the smaller one (`magnitude_strictMono`).  So a factor that has been
brought within its bounds by comparing codes lies between the numbers that the bounds stand for
(`Triple.clampFactor_bounds`).

Codes are split into blocks of `fractions` codes with the same exponent.  The smallest numbers,
which have no leading digit, share the exponent of the first block and are counted with it.
-/

namespace ObjectActions

namespace Binary64

/-- The magnitude that a finite number stands for. -/
def magnitude (x : Binary64) : ℚ := x.significand * 2 ^ x.exponent

/-- The rational number that a finite number stands for. -/
def toRat (x : Binary64) : ℚ := if x.negative then -x.magnitude else x.magnitude

/-- The block of codes with the same exponent, counted from one. -/
def block (x : Binary64) : Nat := if x.code < fractions then 1 else x.code / fractions

/-- A code tells the exponent by its block and the significand by its place in the block. -/
theorem block_spec (x : Binary64) :
    1 ≤ x.block ∧ x.exponent = x.block + leastExponent - 1 ∧
      x.code + fractions = x.block * fractions + x.significand ∧
      x.significand < 2 * fractions ∧ (1 < x.block → fractions ≤ x.significand) := by
  have hpos : 0 < fractions := by decide
  unfold block significand exponent
  by_cases h : x.code < fractions
  · simp only [h, if_true]
    refine ⟨Nat.le_refl 1, by ring, by omega, by omega, by omega⟩
  · have hdiv := Nat.div_add_mod x.code fractions
    have hmod := Nat.mod_lt x.code hpos
    have hone : 1 ≤ x.code / fractions := (Nat.one_le_div_iff hpos).mpr (Nat.not_lt.mp h)
    have hcomm := Nat.mul_comm fractions (x.code / fractions)
    simp only [h, if_false]
    exact ⟨hone, rfl, by omega, by omega, fun _ => by omega⟩

/-- Codes are ordered as magnitudes are. -/
theorem magnitude_strictMono {x y : Binary64} (h : x.code < y.code) : x.magnitude < y.magnitude := by
  obtain ⟨hxone, hx, hxcode, hxlt, hxle⟩ := x.block_spec
  obtain ⟨hyone, hy, hycode, hylt, hyle⟩ := y.block_spec
  unfold magnitude
  -- a later block makes up for half the significand, an equal one compares significands, and an
  -- earlier one would make the code smaller
  rcases Nat.lt_trichotomy x.block y.block with hlt | heq | hgt
  · have hsignificand : x.significand < 2 * y.significand := by
      have hleading := hyle (by omega)
      omega
    have hexponent : x.exponent + 1 ≤ y.exponent := by omega
    calc
      (x.significand : ℚ) * 2 ^ x.exponent < (2 * y.significand : Nat) * 2 ^ x.exponent := by
        gcongr
      _ = y.significand * 2 ^ (x.exponent + 1) := by
        rw [zpow_add_one₀ (by norm_num)]
        push_cast
        ring
      _ ≤ y.significand * 2 ^ y.exponent := by
        gcongr
        norm_num
  · have hsignificand : x.significand < y.significand := by
      rw [heq] at hxcode
      omega
    rw [hx, hy, heq]
    gcongr
  · have hblocks := Nat.mul_le_mul_right fractions (Nat.succ_le_of_lt hgt)
    have hleading := hxle (by omega)
    rw [Nat.succ_mul] at hblocks
    omega

theorem magnitude_mono {x y : Binary64} (h : x.code ≤ y.code) : x.magnitude ≤ y.magnitude := by
  rcases h.lt_or_eq with hlt | heq
  · exact (magnitude_strictMono hlt).le
  · unfold magnitude significand exponent
    rw [heq]

end Binary64

namespace Triple

open Binary64

theorem clampFactor_between (x : Binary64) :
    (clampFactor x).negative = false ∧ leastFactor.code ≤ (clampFactor x).code ∧
      (clampFactor x).code ≤ greatestFactor.code := by
  unfold clampFactor
  by_cases hpositive : x.isPositive = true
  · have hsign : x.negative = false := by
      simp only [isPositive, Bool.and_eq_true, Bool.not_eq_true'] at hpositive
      exact hpositive.1.1
    simp only [hpositive, Bool.not_true, Bool.false_eq_true, if_false]
    split
    · decide +kernel
    · split
      · decide +kernel
      · exact ⟨hsign, by omega, by omega⟩
  · simp only [hpositive, Bool.not_false, if_true]
    decide +kernel

theorem one_fifth_le_leastFactor : 1 / 5 ≤ leastFactor.magnitude := by
  have hsignificand : leastFactor.significand = 7205759403792794 := by decide +kernel
  have hexponent : leastFactor.exponent = -55 := by decide +kernel
  rw [magnitude, hsignificand, hexponent]
  norm_num

theorem greatestFactor_eq_five : greatestFactor.magnitude = 5 := by
  have hsignificand : greatestFactor.significand = 5629499534213120 := by decide +kernel
  have hexponent : greatestFactor.exponent = -50 := by decide +kernel
  rw [magnitude, hsignificand, hexponent]
  norm_num

/-- A factor within its bounds is a number between one fifth and five. -/
theorem clampFactor_bounds (x : Binary64) :
    (clampFactor x).isFinite = true ∧ 1 / 5 ≤ (clampFactor x).toRat ∧
      (clampFactor x).toRat ≤ 5 := by
  obtain ⟨hsign, hleast, hgreatest⟩ := clampFactor_between x
  have hrat : (clampFactor x).toRat = (clampFactor x).magnitude := by
    simp only [toRat, hsign, Bool.false_eq_true, if_false]
  have hfinite : greatestFactor.code < infinityCode := by decide +kernel
  rw [hrat]
  refine ⟨decide_eq_true (Nat.lt_of_le_of_lt hgreatest hfinite), ?_, ?_⟩
  · exact one_fifth_le_leastFactor.trans (magnitude_mono hleast)
  · exact (magnitude_mono hgreatest).trans_eq greatestFactor_eq_five

end Triple

end ObjectActions
