import ObjectActions.Color
import ObjectActions.Proofs.Number.Counts
import ObjectActions.Proofs.Text.Cutting

/-!
# The numbers behind colors

A word that is no preset names a color by the hexadecimal digits it begins with.  Here these digits
are read as one natural number without any limit, and this number decides everything:

```text
no digits               no color
UInt64.size or more     white
anything else           the last three bytes of the number
```

So words name the same color if their digits agree, zeros in front and the case of letters aside,
whatever stands behind the digits.

* `map_toNat_hexWord?`: taking in the digits one by one gives this number, and fails exactly if it
  is too large, however many zeros stand in front;
* `resolve?_by_value`: the statement for words.
-/

namespace ObjectActions.Color

/-- The hexadecimal digits in lower case, in the order of their values. -/
def hexDigits : List Char :=
  ['0', '1', '2', '3', '4', '5', '6', '7', '8', '9', 'a', 'b', 'c', 'd', 'e', 'f']

/-- The hexadecimal digits, in either case, that a word begins with. -/
def hexRow (word : String) : List Char := word.toList.takeWhile (hexDigits.contains ·.toLower)

/-- The natural number that a row of hexadecimal digits denotes. -/
def hexValue (row : List Char) : Nat := Digits.valueIn 16 (hexDigits.idxOf ·.toLower) row

/-- The digits of a row that matter: in lower case, without the zeros in front. -/
def significantDigits (row : List Char) : List Char := (Text.lower row).dropWhile (· = '0')

/-- The color of a number: its last three bytes, or white if it is too large for a word. -/
def ofValue (value : Nat) : Color :=
  if value < UInt64.size then
    ⟨.ofNat (value / 65536 % 256), .ofNat (value / 256 % 256), .ofNat (value % 256)⟩
  else white

variable {c : Char} {row : List Char} {word : UInt64}

/-! ## Digits

Hexadecimal digits and letters with another case are ASCII characters, so what is said about a
single digit is checked for these. -/

theorem toNat_lt_of_isUpper (h : c.isUpper = true) : c.toNat < 128 := by
  unfold Char.isUpper at h
  simp only [decide_eq_true_eq, UInt32.le_iff_toNat_le, Char.toNat_val] at h
  exact Nat.lt_of_le_of_lt h.2 (by decide)

theorem toNat_lt_of_isHexDigit (h : isHexDigit c = true) : c.toNat < 128 := by
  simp only [isHexDigit, Char.isDigit, Bool.and_eq_true, Bool.or_eq_true, decide_eq_true_eq,
    Char.le_def, UInt32.le_iff_toNat_le, Char.toNat_val] at h
  rcases h with (⟨-, h⟩ | ⟨-, h⟩) | ⟨-, h⟩ <;> exact Nat.lt_of_le_of_lt h (by decide)

theorem isHexDigit_eq_contains (c : Char) : isHexDigit c = hexDigits.contains c.toLower := by
  by_cases hascii : c.toNat < 128
  · have hall : ∀ n < 128,
        isHexDigit (Char.ofNat n) = hexDigits.contains (Char.ofNat n).toLower := by
      decide
    simpa only [Char.ofNat_toNat] using hall c.toNat hascii
  · have hupper : c.isUpper = false := by simpa using mt toNat_lt_of_isUpper hascii
    have hdigits : ∀ d ∈ hexDigits, d.toNat < 128 := by simp [hexDigits]
    have hnot : c ∉ hexDigits := fun h => hascii (hdigits c h)
    rw [Text.toLower_of_not_isUpper hupper, List.contains_eq_mem, decide_eq_false hnot]
    simpa using mt toNat_lt_of_isHexDigit hascii

theorem hexDigitValue_eq_idxOf (h : isHexDigit c = true) :
    hexDigitValue c = hexDigits.idxOf c.toLower := by
  have hall : ∀ n < 128, isHexDigit (Char.ofNat n) = true →
      hexDigitValue (Char.ofNat n) = hexDigits.idxOf (Char.ofNat n).toLower := by
    decide
  simpa only [Char.ofNat_toNat, forall_const, h] using hall c.toNat (toNat_lt_of_isHexDigit h)

theorem idxOf_lt_of_isHexDigit (h : isHexDigit c = true) : hexDigits.idxOf c.toLower < 16 := by
  rw [isHexDigit_eq_contains, List.contains_iff_mem] at h
  exact List.idxOf_lt_length_of_mem h

theorem hexRow_eq_takeWhile (word : String) : hexRow word = word.toList.takeWhile isHexDigit := by
  rw [hexRow, funext isHexDigit_eq_contains]

/-! ## Words of 64 bits -/

/-- A digit is taken in exactly if the number that it completes fits. -/
theorem map_toNat_pushHexDigit? (h : isHexDigit c = true) :
    (pushHexDigit? word c).map UInt64.toNat =
      if 16 * word.toNat + hexDigits.idxOf c.toLower < UInt64.size then
        some (16 * word.toNat + hexDigits.idxOf c.toLower)
      else none := by
  have hdigit := idxOf_lt_of_isHexDigit h
  have hfits : word < 0x1000000000000000 ↔
      16 * word.toNat + hexDigits.idxOf c.toLower < UInt64.size := by
    rw [UInt64.lt_iff_toNat_lt, UInt64.size]
    show word.toNat < 1152921504606846976 ↔ _
    omega
  simp only [pushHexDigit?, hfits, hexDigitValue_eq_idxOf h]
  split
  · next hlt =>
      rw [UInt64.size] at hlt
      have hshift : (word <<< 4).toNat = 16 * word.toNat := by
        simp [UInt64.toNat_shiftLeft, Nat.shiftLeft_eq]
        omega
      rw [Option.map_some, UInt64.toNat_add, UInt64.toNat_ofNat', hshift]
      simp
      omega
  · rfl

/-- **The word of a row** is the number that the row denotes, and missing exactly if this number is
too large. -/
theorem map_toNat_hexWord? (h : ∀ c ∈ row, isHexDigit c = true) :
    (hexWord? row).map UInt64.toNat =
      if hexValue row < UInt64.size then some (hexValue row) else none :=
  Digits.map_toNat_foldlM rfl (by decide) (by decide) fun _ c hc => map_toNat_pushHexDigit? (h c hc)

theorem ofWord_eq_ofValue (word : UInt64) : ofWord word = ofValue word.toNat := by
  rw [ofValue, if_pos word.toNat_lt]
  simp [ofWord, ← UInt8.toNat_inj, UInt64.toNat_shiftRight, Nat.shiftRight_eq_div_pow]

/-! ## Rows of digits -/

theorem hexValue_lower (row : List Char) : hexValue (Text.lower row) = hexValue row := by
  simp only [hexValue, Digits.valueIn, Text.lower, List.foldl_map, Text.toLower_toLower]

/-- Zeros in front add nothing. -/
theorem hexValue_dropWhile_zero (row : List Char) :
    hexValue (row.dropWhile (· = '0')) = hexValue row := by
  induction row with
  | nil => rfl
  | cons c row ih =>
      by_cases hc : c = '0'
      · subst hc
        rw [List.dropWhile_cons_of_pos (by decide), ih]
        rfl
      · rw [List.dropWhile_cons_of_neg (by simpa using hc)]

theorem hexValue_significantDigits (row : List Char) :
    hexValue (significantDigits row) = hexValue row := by
  rw [significantDigits, hexValue_dropWhile_zero, hexValue_lower]

/-! ## Words -/

theorem resolve?_of_notMem {word : String} (h : word ∉ presets.map Prod.fst) :
    resolve? word =
      if hexRow word = [] then none else some (ofValue (hexValue (hexRow word))) := by
  have hlookup : presets.lookup word = none := by
    rw [List.lookup_eq_none_iff]
    intro preset hpreset
    have hne : word ≠ preset.1 := fun heq => h (heq ▸ List.mem_map_of_mem hpreset)
    simpa using hne
  have hrow : ∀ c ∈ hexRow word, isHexDigit c = true := by
    rw [hexRow_eq_takeWhile]
    exact fun c hc => List.mem_takeWhile_imp hc
  have hword : ((hexWord? (hexRow word)).map ofWord).getD white =
      ofValue (hexValue (hexRow word)) := by
    have hnumber := map_toNat_hexWord? hrow
    split at hnumber
    · obtain ⟨w, hw, hvalue⟩ := Option.map_eq_some_iff.mp hnumber
      rw [hw, Option.map_some, Option.getD_some, ofWord_eq_ofValue, hvalue]
    · next hlarge =>
        rw [Option.map_eq_none_iff.mp hnumber, ofValue, if_neg hlarge]
        rfl
  unfold resolve?
  rw [hlookup, ← hexRow_eq_takeWhile, ← hword]
  cases hexRow word <;> rfl

/-- **Colors by value.**  A preset stands for its color, even if it begins with hexadecimal digits.
Any other word stands for a color exactly if it begins with such digits, and this color is that of
the number which all of them denote; so zeros in front, the case of the digits and what stands
behind them do not matter. -/
theorem resolve?_by_value :
    (∀ preset ∈ presets, resolve? preset.1 = some preset.2) ∧
    (∀ word, word ∉ presets.map Prod.fst →
      resolve? word =
        if hexRow word = [] then none else some (ofValue (hexValue (hexRow word)))) ∧
    ∀ first second, first ∉ presets.map Prod.fst → second ∉ presets.map Prod.fst →
      (hexRow first = [] ↔ hexRow second = []) →
      significantDigits (hexRow first) = significantDigits (hexRow second) →
        resolve? first = resolve? second := by
  refine ⟨by decide, fun word => resolve?_of_notMem, ?_⟩
  intro first second hfirst hsecond hempty hdigits
  have hvalue : hexValue (hexRow first) = hexValue (hexRow second) := by
    rw [← hexValue_significantDigits, hdigits, hexValue_significantDigits]
  rw [resolve?_of_notMem hfirst, resolve?_of_notMem hsecond, hvalue]
  simp only [hempty]

/-- A preset that begins with digits, a number too large for a word, and a row that is long only
because of its zeros. -/
theorem resolve?_black_and_beef :
    resolve? "black" = some ⟨0, 0, 0⟩ ∧
    ("10000000000000000" ∉ presets.map Prod.fst ∧ resolve? "10000000000000000" = some white) ∧
    ("beef" ∉ presets.map Prod.fst ∧ "00000000000000000BEeFx" ∉ presets.map Prod.fst ∧
      resolve? "beef" = some ⟨0, 0xbe, 0xef⟩ ∧
      resolve? "00000000000000000BEeFx" = resolve? "beef") := by
  obtain ⟨hpreset, hother, hsame⟩ := resolve?_by_value
  have hlarge : "10000000000000000" ∉ presets.map Prod.fst := by decide
  have hbeef : "beef" ∉ presets.map Prod.fst := by decide
  have hzeros : "00000000000000000BEeFx" ∉ presets.map Prod.fst := by decide
  refine ⟨hpreset ("black", ⟨0, 0, 0⟩) (by decide), ⟨hlarge, ?_⟩, hbeef, hzeros, ?_, ?_⟩
  · rw [hother _ hlarge]
    decide
  · rw [hother _ hbeef]
    decide
  · exact hsame _ _ hzeros hbeef (by decide) (by decide)

end ObjectActions.Color
