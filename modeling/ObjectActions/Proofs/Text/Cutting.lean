import Mathlib.Data.List.TakeWhile
import ObjectActions.Text.Class

/-!
# Cutting texts that are put together

A script is read from the front, so what matters about a text is what it begins with
behind its blanks.  This module says how `Text.skipBlanks` and `List.takeWhile` act on
two texts in a row, and which characters the classes of `Text` have in common:

* `skipBlanks_append`: blanks are skipped in the second text only if the first one holds
  nothing else;
* `takeWhile_append_cons_of_not` and `dropWhile_append_cons_of_not`: a run of one class
  ends before a character outside that class;
* `toLower_eq_iff`: folding case changes letters only.
-/

namespace ObjectActions.Text

/-! ## Blanks -/

theorem skipBlanks_eq_self {text : List Char} (h : ∀ c ∈ text.head?, isBlank c = false) :
    skipBlanks text = text := by
  cases text with
  | nil => rfl
  | cons c rest => simp [skipBlanks, h c rfl]

/-- What is left after skipping does not begin with a blank. -/
theorem isBlank_head_skipBlanks (text : List Char) :
    ∀ c ∈ (skipBlanks text).head?, isBlank c = false := by
  intro c hc
  have hdrop := List.head?_dropWhile_not isBlank text
  unfold skipBlanks at hc
  rw [Option.mem_def] at hc
  rw [hc] at hdrop
  simpa using hdrop

theorem skipBlanks_cons_of_not {c : Char} (h : isBlank c = false) (rest : List Char) :
    skipBlanks (c :: rest) = c :: rest := by
  simp [skipBlanks, h]

theorem skipBlanks_cons_of_isBlank {c : Char} (h : isBlank c = true) (rest : List Char) :
    skipBlanks (c :: rest) = skipBlanks rest := by
  simp [skipBlanks, h]

/-- Nothing is left exactly if there are only blanks. -/
theorem skipBlanks_eq_nil_iff {text : List Char} : skipBlanks text = [] ↔ text.all isBlank := by
  simp [skipBlanks, List.dropWhile_eq_nil_iff]

theorem exists_blanks_append (text : List Char) :
    ∃ blanks, skipBlanks blanks = [] ∧ text = blanks ++ skipBlanks text := by
  refine ⟨text.takeWhile isBlank, ?_, List.takeWhile_append_dropWhile.symm⟩
  exact skipBlanks_eq_nil_iff.mpr (List.all_eq_true.mpr fun _ hc => List.mem_takeWhile_imp hc)

theorem skipBlanks_append (first second : List Char) :
    skipBlanks (first ++ second) =
      if skipBlanks first = [] then skipBlanks second else skipBlanks first ++ second := by
  unfold skipBlanks
  rw [List.dropWhile_append]
  by_cases h : first.dropWhile isBlank = [] <;> simp [h]

theorem skipBlanks_append_of_ne_nil {first : List Char} (h : skipBlanks first ≠ [])
    (second : List Char) : skipBlanks (first ++ second) = skipBlanks first ++ second := by
  rw [skipBlanks_append, if_neg h]

theorem skipBlanks_append_of_eq_nil {first : List Char} (h : skipBlanks first = [])
    (second : List Char) : skipBlanks (first ++ second) = skipBlanks second := by
  rw [skipBlanks_append, if_pos h]

/-- Less of a text is not more behind its blanks. -/
theorem length_skipBlanks_le_of_isSuffix {last text : List Char} (h : last <:+ text) :
    (skipBlanks last).length ≤ (skipBlanks text).length := by
  obtain ⟨first, rfl⟩ := h
  rw [skipBlanks_append]
  split
  · exact Nat.le_refl _
  · have hle := length_skipBlanks_le last
    rw [List.length_append]
    omega

/-- A character that is no blank ends the blanks before it. -/
theorem skipBlanks_append_cons {c : Char} (h : isBlank c = false) (first second : List Char) :
    skipBlanks (first ++ c :: second) = skipBlanks first ++ c :: second := by
  rw [skipBlanks_append]
  split
  · next hnil => rw [hnil, List.nil_append, skipBlanks_cons_of_not h]
  · rfl

/-! ## Runs of a class -/

theorem takeWhile_append_cons_of_not {member : Char → Bool} {c : Char} (h : member c = false)
    (first second : List Char) :
    (first ++ c :: second).takeWhile member = first.takeWhile member := by
  induction first with
  | nil => simp [h]
  | cons d rest ih => by_cases hd : member d <;> simp [hd, ih]

theorem dropWhile_append_cons_of_not {member : Char → Bool} {c : Char} (h : member c = false)
    (first second : List Char) :
    (first ++ c :: second).dropWhile member = first.dropWhile member ++ c :: second := by
  induction first with
  | nil => simp [h]
  | cons d rest ih => by_cases hd : member d <;> simp [hd, ih]

/-- A run is as long as the characters of its class last. -/
theorem takeWhile_append_of_stop {member : Char → Bool} {first second : List Char}
    (hfirst : ∀ c ∈ first, member c = true) (hsecond : ∀ c ∈ second.head?, member c = false) :
    (first ++ second).takeWhile member = first := by
  rw [List.takeWhile_append_of_pos hfirst]
  cases second with
  | nil => simp
  | cons c rest => simp [hsecond c rfl]

theorem dropWhile_append_of_stop {member : Char → Bool} {first second : List Char}
    (hfirst : ∀ c ∈ first, member c = true) (hsecond : ∀ c ∈ second.head?, member c = false) :
    (first ++ second).dropWhile member = second := by
  rw [List.dropWhile_append_of_pos hfirst]
  cases second with
  | nil => rfl
  | cons c rest => simp [hsecond c rfl]

/-- A run that ends inside the first text does not see the second one. -/
theorem takeWhile_append_of_dropWhile_ne_nil {member : Char → Bool} {first : List Char}
    (h : first.dropWhile member ≠ []) (second : List Char) :
    (first ++ second).takeWhile member = first.takeWhile member := by
  induction first with
  | nil => exact absurd rfl h
  | cons d rest ih =>
      by_cases hd : member d
      · rw [List.dropWhile_cons_of_pos hd] at h
        simp [hd, ih h]
      · simp [hd]

theorem dropWhile_append_of_ne_nil {member : Char → Bool} {first : List Char}
    (h : first.dropWhile member ≠ []) (second : List Char) :
    (first ++ second).dropWhile member = first.dropWhile member ++ second := by
  rw [List.dropWhile_append, if_neg]
  simpa using h

/-- A smaller class leaves more behind. -/
theorem length_dropWhile_le_of_imp {member other : Char → Bool}
    (h : ∀ c, member c = true → other c = true) (text : List Char) :
    (text.dropWhile other).length ≤ (text.dropWhile member).length := by
  induction text with
  | nil => exact Nat.le_refl _
  | cons c text ih =>
      by_cases hc : member c = true
      · rwa [List.dropWhile_cons_of_pos hc, List.dropWhile_cons_of_pos (h c hc)]
      · rw [List.dropWhile_cons_of_neg hc]
        exact (List.dropWhile_sublist other).length_le

/-! ## Letters and case -/

theorem isAlpha_toLower (c : Char) : c.toLower.isAlpha = c.isAlpha := by
  unfold Char.isAlpha Char.isUpper Char.isLower Char.toLower
  split <;> grind [UInt32.toNat_add, Char.toNat_val]

theorem isDigit_of_isAlpha {c : Char} (h : c.isAlpha = true) : c.isDigit = false := by
  unfold Char.isAlpha Char.isUpper Char.isLower at h
  unfold Char.isDigit
  grind

theorem toLower_of_not_isUpper {c : Char} (h : c.isUpper = false) : c.toLower = c := by
  unfold Char.isUpper at h
  unfold Char.toLower
  grind

theorem isUpper_toLower (c : Char) : c.toLower.isUpper = false := by
  unfold Char.isUpper Char.toLower
  split <;> grind [UInt32.toNat_add, Char.toNat_val]

theorem toLower_toLower (c : Char) : c.toLower.toLower = c.toLower :=
  toLower_of_not_isUpper (isUpper_toLower c)

@[simp] theorem lower_lower (word : List Char) : lower (lower word) = lower word := by
  rw [lower, lower, List.map_map]
  exact List.map_congr_left fun c _ => toLower_toLower c

theorem toLower_of_not_isAlpha {c : Char} (h : c.isAlpha = false) : c.toLower = c := by
  unfold Char.isAlpha at h
  rw [Bool.or_eq_false_iff] at h
  exact toLower_of_not_isUpper h.1

/-- Only letters have another case. -/
theorem toLower_eq_iff {c : Char} (h : c.isAlpha = false) (d : Char) :
    d.toLower = c ↔ d = c := by
  constructor
  · intro heq
    have hd : d.isAlpha = false := by rw [← isAlpha_toLower, heq, h]
    rw [← heq, toLower_of_not_isAlpha hd]
  · rintro rfl
    exact toLower_of_not_isAlpha h

/-- Blanks have no case. -/
theorem isBlank_toLower (c : Char) : isBlank c.toLower = isBlank c := by
  have hsame {d : Char} (h : d.isAlpha = false) : (c.toLower == d) = (c == d) := by
    rw [Bool.eq_iff_iff, beq_iff_eq, beq_iff_eq]
    exact toLower_eq_iff h c
  rw [isBlank, isBlank, hsame (by decide), hsame (by decide), hsame (by decide), hsame (by decide)]

/-- The separators are the comma and the semicolon. -/
theorem isSeparator_iff {c : Char} : isSeparator c ↔ c = ',' ∨ c = ';' := by
  simp [isSeparator]

end ObjectActions.Text
