import ObjectActions.Json.Basic

/-!
# Triples of numbers

Movements, rotations and scalings are given by one number for each axis, but a script
may list fewer or more numbers than three.  For movements and rotations a single number
is meant for the upright axis, and a list of more than three numbers means nothing.  For
scalings a single number is meant for all axes, numbers after the third are left aside,
and every factor is first brought within `leastFactor` and `greatestFactor`.
-/

namespace ObjectActions

/-- One number for each axis. -/
structure Triple where
  x : Binary64
  y : Binary64
  z : Binary64
deriving DecidableEq

namespace Triple

/-! ## Lists of offsets -/

/-- The offsets that a list of numbers stands for. -/
def ofOffsets : List Binary64 → Triple
  | [y] => ⟨.zero, y, .zero⟩
  | [x, y] => ⟨x, y, .zero⟩
  | [x, y, z] => ⟨x, y, z⟩
  | _ => ⟨.zero, .zero, .zero⟩

/-! ## Lists of factors -/

/-- Objects are not made smaller than this. -/
def leastFactor : Binary64 := .ofRatio false 1 5

/-- Objects are not made larger than this. -/
def greatestFactor : Binary64 := .ofRatio false 5 1

/-- A factor within its bounds.  What is not a number above zero leaves the size alone. -/
def clampFactor (factor : Binary64) : Binary64 :=
  if !factor.isPositive then .one
  else if factor.code < leastFactor.code then leastFactor
  else if greatestFactor.code < factor.code then greatestFactor
  else factor

/-- The factors that a list of numbers stands for. -/
def ofFactors (factors : List Binary64) : Triple :=
  match factors.map clampFactor with
  | [] => ⟨.one, .one, .one⟩
  | [factor] => ⟨factor, factor, factor⟩
  | [x, y] => ⟨x, y, .one⟩
  | x :: y :: z :: _ => ⟨x, y, z⟩

/-! ## JSON form -/

/-- Whether no component is infinite. -/
def isFinite (triple : Triple) : Bool :=
  triple.x.isFinite && triple.y.isFinite && triple.z.isFinite

/-- The keys of a triple. -/
def keys : List String := ["x", "y", "z"]

/-- The JSON form of a triple. -/
def toJson (triple : Triple) : Json :=
  .object [("x", .ofBinary64 triple.x), ("y", .ofBinary64 triple.y), ("z", .ofBinary64 triple.z)]

/-- The triple that a JSON value stands for. -/
def ofJson? (value : Json) : Option Triple := do
  let members ← value.membersOf? keys
  let x ← Json.required? members "x" Json.binary64?
  let y ← Json.required? members "y" Json.binary64?
  let z ← Json.required? members "z" Json.binary64?
  return ⟨x, y, z⟩

end Triple

end ObjectActions
