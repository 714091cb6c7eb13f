import ObjectActions.Number.Binary64

/-!
# Reading rows of digits

Digits are written in base ten, without any limit on their number.  An attribute that
counts something takes them in one by one and holds at most `UInt32.size - 1`, so larger
numerals stand for that; a measure is rounded once from the exact value of all digits that
were written.

Where a whole text should be a numeral, `count?` and `measure?` say what it denotes, if anything.
-/

namespace ObjectActions.Digits

/-- The value of a digit. -/
def digitValue (c : Char) : Nat := c.toNat - '0'.toNat

/-- The natural number that a row of digits denotes in a base. -/
def valueIn (base : Nat) (value : Char → Nat) (digits : List Char) : Nat :=
  digits.foldl (fun total c => base * total + value c) 0

/-- The natural number that a row of decimal digits denotes. -/
def value (digits : List Char) : Nat := valueIn 10 digitValue digits

/-- The largest count that an attribute can hold. -/
def largest : UInt32 := UInt32.ofNat (UInt32.size - 1)

/-- A count, held down to the largest that an attribute can hold. -/
def saturate (n : Nat) : UInt32 := UInt32.ofNat (min n (UInt32.size - 1))

/-- A count with one more digit at its end, if there is room for it. -/
def pushDigit? (count : UInt32) (c : Char) : Option UInt32 :=
  let digit := UInt32.ofNat (digitValue c)
  if count ≤ (largest - digit) / 10 then some (10 * count + digit) else none

/-- The count that a row of decimal digits denotes, unless it is too large. -/
def word? (digits : List Char) : Option UInt32 := digits.foldlM pushDigit? 0

/-- The number with the given digits before and after its point. -/
def toBinary64 (integral fraction : List Char) : Binary64 :=
  .ofRatio false (value (integral ++ fraction)) (Nat.pow 10 fraction.length)

/-! ## Numerals -/

/-- The count that a numeral denotes: digits, before which a plus sign may stand.  A text that is no
numeral denotes nothing, and neither does one that is too large. -/
def count? (text : String) : Option UInt32 :=
  let digits := if text.toList.head? = some '+' then text.toList.tail else text.toList
  if digits ≠ [] ∧ digits.all Char.isDigit then word? digits else none

/-- The measure that a numeral without a sign denotes: digits, or digits around a point of which
either side may be empty, but not both.  Powers of ten are not written out. -/
def measure? (text : String) : Option Binary64 :=
  let integral := text.toList.takeWhile Char.isDigit
  match text.toList.dropWhile Char.isDigit with
  | [] => if integral ≠ [] then some (toBinary64 integral []) else none
  | c :: fraction =>
      if c = '.' ∧ fraction.all Char.isDigit ∧ integral ++ fraction ≠ [] then
        some (toBinary64 integral fraction)
      else none

/-! ## Facts -/

theorem digitValue_le {c : Char} (h : c.isDigit = true) : digitValue c ≤ 9 := by
  simp only [Char.isDigit, Bool.and_eq_true, decide_eq_true_eq] at h
  have hnine : c.toNat ≤ '9'.toNat := h.2
  exact Nat.sub_le_of_le_add hnine

theorem toNat_largest : largest.toNat = UInt32.size - 1 := rfl

/-- The value of a count that was held down. -/
theorem toNat_saturate (n : Nat) : (saturate n).toNat = min n (UInt32.size - 1) := by
  rw [saturate, UInt32.toNat_ofNat']
  exact Nat.mod_eq_of_lt (Nat.lt_of_le_of_lt (Nat.min_le_right _ _) (by decide))

/-- One more digit at the end of a row. -/
theorem valueIn_append_singleton (base : Nat) (value : Char → Nat) (digits : List Char) (c : Char) :
    valueIn base value (digits ++ [c]) = base * valueIn base value digits + value c := by
  simp [valueIn]

theorem value_append_singleton (digits : List Char) (c : Char) :
    value (digits ++ [c]) = 10 * value digits + digitValue c :=
  valueIn_append_singleton 10 digitValue digits c

end ObjectActions.Digits
