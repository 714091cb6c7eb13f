import ObjectActions.Json.Basic

/-!
# Colors

A color is named by one of the words in `Color.presets`, spelled exactly, or by the
hexadecimal digits that a word begins with, in either case; whatever follows them is
left aside.  The digits denote a word of 64 bits, of which the last three bytes are the
color.  Digits that denote more than fits into 64 bits stand for white.

Digits are taken into the word one by one, so their number is not limited; zeros in
front never make a word too large.
-/

namespace ObjectActions

/-- A color by its red, green and blue parts. -/
structure Color where
  r : UInt8
  g : UInt8
  b : UInt8
deriving DecidableEq, Repr

namespace Color

/-- The color that all parts have in full. -/
def white : Color := ⟨255, 255, 255⟩

/-- The words that name a color. -/
def presets : List (String × Color) :=
  [("aquamarine", ⟨112, 219, 147⟩),
   ("black", ⟨0, 0, 0⟩),
   ("blue", ⟨0, 0, 255⟩),
   ("brass", ⟨181, 166, 66⟩),
   ("bronze", ⟨140, 120, 83⟩),
   ("brown", ⟨166, 42, 42⟩),
   ("copper", ⟨184, 115, 51⟩),
   ("cyan", ⟨0, 255, 255⟩),
   ("darkgrey", ⟨48, 48, 48⟩),
   ("forestgreen", ⟨35, 142, 35⟩),
   ("gold", ⟨205, 127, 50⟩),
   ("green", ⟨0, 255, 0⟩),
   ("grey", ⟨112, 112, 112⟩),
   ("lightblue", ⟨192, 217, 217⟩),
   ("lightgrey", ⟨192, 192, 192⟩),
   ("magenta", ⟨255, 0, 255⟩),
   ("maroon", ⟨142, 35, 107⟩),
   ("navyblue", ⟨35, 35, 142⟩),
   ("orange", ⟨255, 127, 0⟩),
   ("orangered", ⟨255, 36, 0⟩),
   ("orchid", ⟨219, 112, 219⟩),
   ("pink", ⟨188, 143, 143⟩),
   ("red", ⟨255, 0, 0⟩),
   ("salmon", ⟨111, 66, 66⟩),
   ("silver", ⟨230, 232, 250⟩),
   ("skyblue", ⟨50, 153, 204⟩),
   ("slateblue", ⟨0, 127, 255⟩),
   ("steelblue", ⟨35, 107, 142⟩),
   ("tan", ⟨219, 147, 112⟩),
   ("violet", ⟨79, 47, 79⟩),
   ("white", white),
   ("yellow", ⟨255, 255, 0⟩)]

/-! ## Hexadecimal digits -/

/-- Digits, and the letters from `a` to `f` in either case. -/
def isHexDigit (c : Char) : Bool :=
  c.isDigit || ('a' ≤ c && c ≤ 'f') || ('A' ≤ c && c ≤ 'F')

/-- The value of a hexadecimal digit. -/
def hexDigitValue (c : Char) : Nat :=
  if c.isDigit then c.toNat - '0'.toNat else c.toLower.toNat - 'a'.toNat + 10

/-- A word with one more digit at its end, unless its first digit would be pushed out. -/
def pushHexDigit? (word : UInt64) (c : Char) : Option UInt64 :=
  if word < 0x1000000000000000 then some (word <<< 4 + UInt64.ofNat (hexDigitValue c)) else none

/-- The word that a row of hexadecimal digits denotes, unless it is too large. -/
def hexWord? (digits : List Char) : Option UInt64 := digits.foldlM pushHexDigit? 0

/-- The color in the last three bytes of a word. -/
def ofWord (word : UInt64) : Color :=
  ⟨(word >>> 16).toUInt8, (word >>> 8).toUInt8, word.toUInt8⟩

/-! ## Resolving a word -/

/-- The color that a word stands for, if it stands for one. -/
def resolve? (word : String) : Option Color :=
  match presets.lookup word with
  | some color => some color
  | none =>
      match word.toList.takeWhile isHexDigit with
      | [] => none
      | digits => some (((hexWord? digits).map ofWord).getD white)

/-! ## JSON form -/

/-- The keys of a color. -/
def keys : List String := ["r", "g", "b"]

/-- The JSON form of a color. -/
def toJson (color : Color) : Json :=
  .object [("r", .ofUInt8 color.r), ("g", .ofUInt8 color.g), ("b", .ofUInt8 color.b)]

/-- The color that a JSON value stands for. -/
def ofJson? (value : Json) : Option Color := do
  let members ← value.membersOf? keys
  let r ← Json.required? members "r" Json.uint8?
  let g ← Json.required? members "g" Json.uint8?
  let b ← Json.required? members "b" Json.uint8?
  return ⟨r, g, b⟩

@[simp] theorem ofJson?_toJson (color : Color) : ofJson? color.toJson = some color := by
  simp [ofJson?, toJson, Json.membersOf?, Json.required?, List.lookup_cons]

end Color

end ObjectActions
