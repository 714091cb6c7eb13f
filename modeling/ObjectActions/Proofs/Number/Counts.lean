import Mathlib.Data.List.Induction
import ObjectActions.Number.Digits

/-!
# Rows of digits in words

A row of digits is taken in one by one, and a word has room for so many of them only.  If no single
digit is lost or refused too early, then no row is: what is taken in is the number that the whole
row denotes, and nothing is taken in exactly if this number is too large (`map_toNat_foldlM`).  So
zeros in front need no room, however many they are.

For counts this means that a row stands for its number, held down to the largest count
(`getD_word?`).
-/

namespace ObjectActions.Digits

variable {row : List Char} {c : Char}

/-- **Rows in words.**  If every digit of a row is taken in exactly, then so is the row. -/
theorem map_toNat_foldlM {Word : Type} {toNat : Word → Nat} {push? : Word → Char → Option Word}
    {base limit : Nat} {digit : Char → Nat} {zero : Word} (hzero : toNat zero = 0)
    (hbase : 0 < base) (hlimit : 0 < limit)
    (hpush : ∀ word, ∀ c ∈ row, (push? word c).map toNat =
      if base * toNat word + digit c < limit then some (base * toNat word + digit c) else none) :
    (row.foldlM push? zero).map toNat =
      if valueIn base digit row < limit then some (valueIn base digit row) else none := by
  induction row using List.reverseRecOn with
  | nil =>
      have hnil : valueIn base digit [] = 0 := rfl
      rw [hnil, if_pos hlimit, ← hzero]
      rfl
  | append_singleton row c ih =>
      have hc (word : Word) := hpush word c (by simp)
      have ih := ih fun word d hd => hpush word d (List.mem_append_left [c] hd)
      have hlast : (row ++ [c]).foldlM push? zero = (row.foldlM push? zero).bind (push? · c) := by
        simp [List.foldlM_append]
      rw [hlast, valueIn_append_singleton]
      split at ih
      · obtain ⟨word, hword, hvalue⟩ := Option.map_eq_some_iff.mp ih
        rw [hword, Option.bind_some, hc word, hvalue]
      · next hlarge =>
          -- a row that is too large stays so with one more digit
          have hmore : valueIn base digit row ≤ base * valueIn base digit row :=
            Nat.le_mul_of_pos_left _ hbase
          rw [Option.map_eq_none_iff.mp ih, Option.bind_none, Option.map_none, if_neg (by omega)]

/-! ## Counts -/

/-- A digit is taken in exactly if there is room for it. -/
theorem map_toNat_pushDigit? (h : c.isDigit = true) (count : UInt32) :
    (pushDigit? count c).map UInt32.toNat =
      if 10 * count.toNat + digitValue c < UInt32.size then some (10 * count.toNat + digitValue c)
      else none := by
  have hnine := digitValue_le h
  have hdigit : (UInt32.ofNat (digitValue c)).toNat = digitValue c :=
    UInt32.toNat_ofNat_of_lt' (Nat.lt_of_le_of_lt hnine (by decide))
  have hle : UInt32.ofNat (digitValue c) ≤ largest := by
    rw [UInt32.le_iff_toNat_le, hdigit, toNat_largest]
    exact Nat.le_trans hnine (by decide)
  have hten : (10 : UInt32).toNat = 10 := rfl
  have hroom : count ≤ (largest - UInt32.ofNat (digitValue c)) / 10 ↔
      10 * count.toNat + digitValue c < UInt32.size := by
    rw [UInt32.le_iff_toNat_le, UInt32.toNat_div, UInt32.toNat_sub_of_le _ _ hle, hdigit,
      toNat_largest, hten, UInt32.size]
    omega
  simp only [pushDigit?, hroom]
  split
  · next hlt =>
      rw [UInt32.size] at hlt
      simp only [Option.map_some, UInt32.toNat_add, UInt32.toNat_mul, hten, hdigit, Option.some.injEq]
      omega
  · rfl

/-- What is taken in of a row of digits is the number that it denotes, unless this is too large. -/
theorem map_toNat_word? (h : ∀ c ∈ row, c.isDigit = true) :
    (word? row).map UInt32.toNat =
      if value row < UInt32.size then some (value row) else none :=
  map_toNat_foldlM rfl (by decide) (by decide) fun count c hc => map_toNat_pushDigit? (h c hc) count

/-- **Counts.**  A row of digits stands for its number, held down to the largest count. -/
theorem getD_word? (h : ∀ c ∈ row, c.isDigit = true) :
    (word? row).getD largest = saturate (value row) := by
  have hnumber := map_toNat_word? h
  rw [← UInt32.toNat_inj, toNat_saturate]
  split at hnumber
  · obtain ⟨count, hcount, hvalue⟩ := Option.map_eq_some_iff.mp hnumber
    rw [hcount, Option.getD_some, hvalue]
    omega
  · rw [Option.map_eq_none_iff.mp hnumber, Option.getD_none, toNat_largest]
    omega

end ObjectActions.Digits
