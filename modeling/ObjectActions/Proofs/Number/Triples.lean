import ObjectActions.Proofs.Number.Order

/-!
# What lists of numbers stand for

A list of numbers stands for one number for each axis.  Which ones these are depends on how many
numbers there are:

```text
numbers           offsets          factors
v                 0   v   0        c   c   c
v  w              v   w   0        c   d   1
v  w  u           v   w   u        c   d   e
v  w  u  ...      0   0   0        c   d   e
```

Here the factors `c`, `d` and `e` are the numbers within their bounds, and a number that is not
above zero leaves the size alone.  What a number is compared with is what it stands for, and the
infinity that a long row of digits stands for is above both bounds.
-/

namespace ObjectActions

namespace Binary64

variable {x : Binary64}

theorem magnitude_pos_iff : 0 < x.magnitude ↔ 0 < x.code := by
  have hpow : (0 : ℚ) < 2 ^ x.exponent := by positivity
  have hfractions : 0 < fractions := by decide
  rw [magnitude, mul_pos_iff_of_pos_right hpow, Nat.cast_pos, significand]
  split <;> omega

theorem toRat_of_negative (h : x.negative = true) : x.toRat = -x.magnitude := if_pos h

theorem toRat_of_not_negative (h : x.negative = false) : x.toRat = x.magnitude := by
  rw [toRat, h]
  rfl

theorem magnitude_nonneg (x : Binary64) : 0 ≤ x.magnitude := by
  unfold magnitude
  positivity

theorem not_negative_of_isPositive (h : x.isPositive = true) : x.negative = false := by
  simp only [isPositive, Bool.and_eq_true, Bool.not_eq_true'] at h
  exact h.1.1

/-- What counts as positive is what stands for a number above zero. -/
theorem toRat_pos_iff (h : x.isNaN = false) : 0 < x.toRat ↔ x.isPositive = true := by
  have hcode : x.code ≤ infinityCode := Nat.not_lt.mp (of_decide_eq_false h)
  cases hsign : x.negative with
  | false =>
      rw [toRat_of_not_negative hsign, magnitude_pos_iff]
      simp [isPositive, hsign, hcode]
  | true =>
      rw [toRat_of_negative hsign]
      simp [isPositive, hsign, x.magnitude_nonneg]

end Binary64

namespace Triple

open Binary64

/-- The offsets that a list of numbers stands for. -/
inductive OffsetsOf : List Binary64 → Triple → Prop where
  | one (y : Binary64) : OffsetsOf [y] ⟨.zero, y, .zero⟩
  | two (x y : Binary64) : OffsetsOf [x, y] ⟨x, y, .zero⟩
  | three (x y z : Binary64) : OffsetsOf [x, y, z] ⟨x, y, z⟩
  | more {numbers : List Binary64} (h : 3 < numbers.length) :
      OffsetsOf numbers ⟨.zero, .zero, .zero⟩

theorem offsetsOf_ofOffsets {numbers : List Binary64} (h : numbers ≠ []) :
    OffsetsOf numbers (ofOffsets numbers) := by
  match numbers with
  | [] => exact absurd rfl h
  | [y] => exact .one y
  | [x, y] => exact .two x y
  | [x, y, z] => exact .three x y z
  | x :: y :: z :: w :: numbers => exact .more (by simp)

/-- How a number is brought within the bounds of a factor. -/
inductive Clamps (x : Binary64) : Binary64 → Prop where
  | one (h : x.toRat ≤ 0) : Clamps x .one
  | least (hpos : 0 < x.toRat) (h : x.toRat < leastFactor.toRat) : Clamps x leastFactor
  | greatest (h : greatestFactor.toRat < x.toRat) : Clamps x greatestFactor
  | self (hleast : leastFactor.toRat ≤ x.toRat) (hgreatest : x.toRat ≤ greatestFactor.toRat) :
      Clamps x x

theorem clamps_clampFactor {x : Binary64} (h : x.isNaN = false) : Clamps x (clampFactor x) := by
  have hleast : leastFactor.toRat = leastFactor.magnitude := toRat_of_not_negative rfl
  have hgreatest : greatestFactor.toRat = greatestFactor.magnitude := toRat_of_not_negative rfl
  unfold clampFactor
  cases hx : x.isPositive with
  | false =>
      rw [Bool.not_false, if_pos rfl]
      apply Clamps.one
      rw [← not_lt, toRat_pos_iff h, hx]
      decide
  | true =>
      have hpos := (toRat_pos_iff h).mpr hx
      have hrat := toRat_of_not_negative (not_negative_of_isPositive hx)
      simp only [Bool.not_true, Bool.false_eq_true, if_false]
      split
      · next hcode =>
          refine .least hpos ?_
          rw [hrat, hleast]
          exact magnitude_strictMono hcode
      · next hlow =>
          split
          · next hcode =>
              apply Clamps.greatest
              rw [hrat, hgreatest]
              exact magnitude_strictMono hcode
          · next hhigh =>
              apply Clamps.self
              · rw [hrat, hleast]
                exact magnitude_mono (Nat.not_lt.mp hlow)
              · rw [hrat, hgreatest]
                exact magnitude_mono (Nat.not_lt.mp hhigh)

/-- The factors that a list of numbers stands for. -/
inductive FactorsOf : List Binary64 → Triple → Prop where
  | one {x c : Binary64} (h : Clamps x c) : FactorsOf [x] ⟨c, c, c⟩
  | two {x y c d : Binary64} (hx : Clamps x c) (hy : Clamps y d) : FactorsOf [x, y] ⟨c, d, .one⟩
  | three {x y z c d e : Binary64} (hx : Clamps x c) (hy : Clamps y d) (hz : Clamps z e)
      (further : List Binary64) : FactorsOf (x :: y :: z :: further) ⟨c, d, e⟩

theorem factorsOf_ofFactors {numbers : List Binary64} (hne : numbers ≠ [])
    (h : ∀ x ∈ numbers, x.isNaN = false) : FactorsOf numbers (ofFactors numbers) := by
  have hclamps : ∀ x ∈ numbers, Clamps x (clampFactor x) := fun x hx => clamps_clampFactor (h x hx)
  match numbers with
  | [] => exact absurd rfl hne
  | [x] => exact .one (hclamps x (by simp))
  | [x, y] => exact .two (hclamps x (by simp)) (hclamps y (by simp))
  | x :: y :: z :: further =>
      exact .three (hclamps x (by simp)) (hclamps y (by simp)) (hclamps z (by simp)) further

end Triple

end ObjectActions
