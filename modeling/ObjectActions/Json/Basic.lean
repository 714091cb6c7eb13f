import ObjectActions.Number.Binary64

/-!
# JSON values

Commands travel as JSON values.  An object is a list of members in the order in which
they are written, so that the order of keys in the written text is decided here; when a
member is looked up the order does not matter.  Integers and other numbers are told
apart, because a count must be written as an integer.

What is written as an object may also be given as an array that holds the same values
without their keys, in the order of the keys (`Json.membersOf?`); if the object has a
member that tells its kind, that one comes first in the array (`Json.tagged?`).

A JSON text has no way to write infinity, so `Json.ofBinary64` puts `null` in its place.
-/

namespace ObjectActions

/-- A JSON value. -/
inductive Json where
  /-- The value that says that there is none. -/
  | null
  /-- A truth value. -/
  | flag (value : Bool)
  /-- A number written without a point and without an exponent. -/
  | integer (value : Int)
  /-- Any other number. -/
  | number (value : Binary64)
  /-- A text. -/
  | text (value : String)
  /-- A list of values. -/
  | array (items : List Json)
  /-- Values under keys. -/
  | object (members : List (String × Json))

namespace Json

/-! ## Writing values -/

/-- A number as JSON has it: infinity cannot be written and becomes `null`. -/
def ofBinary64 (x : Binary64) : Json :=
  if x.isFinite then .number x else .null

/-- A count as JSON has it. -/
def ofUInt32 (n : UInt32) : Json := .integer n.toNat

/-- A byte as JSON has it. -/
def ofUInt8 (n : UInt8) : Json := .integer n.toNat

/-! ## Reading values

Each reader refuses a value of another type. -/

/-- The members of an object. -/
def members? : Json → Option (List (String × Json))
  | .object members => some members
  | _ => none

/-- The items of an array. -/
def items? : Json → Option (List Json)
  | .array items => some items
  | _ => none

/-- A text. -/
def text? : Json → Option String
  | .text value => some value
  | _ => none

/-- A truth value. -/
def flag? : Json → Option Bool
  | .flag value => some value
  | _ => none

/-- A number, which may be written as an integer. -/
def binary64? : Json → Option Binary64
  | .number value => some value
  | .integer value => some (.ofInt value)
  | _ => none

/-- An integer between zero and a bound that it stays below. -/
def natBelow? (bound : Nat) : Json → Option Nat
  | .integer value => if 0 ≤ value ∧ value < bound then some value.toNat else none
  | _ => none

/-- A count. -/
def uint32? (value : Json) : Option UInt32 := (value.natBelow? UInt32.size).map UInt32.ofNat

/-- A byte. -/
def uint8? (value : Json) : Option UInt8 := (value.natBelow? UInt8.size).map UInt8.ofNat

/-! ## Structured values -/

/-- The members of a value that has some keys.  An object names its members.  An array
lists them in the order of the keys; it may end early, but it cannot go on after them. -/
def membersOf? (keys : List String) : Json → Option (List (String × Json))
  | .object members => some members
  | .array items => if items.length ≤ keys.length then some (keys.zip items) else none
  | _ => none

/-- What tells the kind of a value, and the value from which the rest is read.  In an
object it is the member under a key, in an array the first item. -/
def tagged? (key : String) : Json → Option (Json × Json)
  | .object members => (members.lookup key).map fun tag => (tag, .object members)
  | .array (tag :: rest) => some (tag, .array rest)
  | _ => none

/-- A name by itself, or as the only key of an object in which nothing is under it. -/
def name? : Json → Option String
  | .text name => some name
  | .object [(name, .null)] => some name
  | .object [(name, .object [])] => some name
  | _ => none

/-! ## Members -/

/-- A member that must be there, read by `read?`. -/
def required? {α : Type} (members : List (String × Json)) (key : String)
    (read? : Json → Option α) : Option α :=
  (members.lookup key).bind read?

/-- A member that may be missing or `null`, read by `read?` otherwise. -/
def optional? {α : Type} (members : List (String × Json)) (key : String)
    (read? : Json → Option α) : Option (Option α) :=
  match members.lookup key with
  | none => some none
  | some .null => some none
  | some value => (read? value).map some

/-- The members of an optional value: none or one. -/
def optionalMember {α : Type} (key : String) (write : α → Json) : Option α → List (String × Json)
  | none => []
  | some value => [(key, write value)]

/-! ## What is written reads back -/

@[simp] theorem uint32?_ofUInt32 (n : UInt32) : (ofUInt32 n).uint32? = some n := by
  have h : (n.toNat : Int) < 4294967296 := Int.ofNat_lt.mpr n.toNat_lt
  simp [ofUInt32, uint32?, natBelow?, h]

@[simp] theorem uint8?_ofUInt8 (n : UInt8) : (ofUInt8 n).uint8? = some n := by
  have h : (n.toNat : Int) < 256 := Int.ofNat_lt.mpr n.toNat_lt
  simp [ofUInt8, uint8?, natBelow?, h]

/-- A number reads back as itself if it is finite, and as nothing otherwise. -/
theorem binary64?_ofBinary64_eq (x : Binary64) :
    (ofBinary64 x).binary64? = if x.isFinite then some x else none := by
  unfold ofBinary64
  split
  · rfl
  · rfl

end Json

end ObjectActions
