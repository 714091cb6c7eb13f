import ObjectActions.Json.Basic

/-!
# Places

A place is where `teleport` and `warp` take someone: a position on the ground, which is
absolute or relative to where they stand, with an altitude and a direction if they are
given.  North and east are positive, south and west negative.
-/

namespace ObjectActions

/-- A position on the ground. -/
inductive Position where
  /-- A point of the grid. -/
  | absolute (ns ew : Binary64)
  /-- An offset from where someone stands. -/
  | relative (x y : Binary64)
deriving DecidableEq

/-- A height, above the ground or relative to where someone stands. -/
structure Altitude where
  relative : Bool
  value : Binary64
deriving DecidableEq

/-- A position, and an altitude and a direction if they are given. -/
structure Place where
  position : Position
  altitude : Option Altitude
  direction : Option UInt32
deriving DecidableEq

/-! ## JSON form -/

namespace Position

/-- Whether no component is infinite. -/
def isFinite : Position → Bool
  | .absolute ns ew => ns.isFinite && ew.isFinite
  | .relative x y => x.isFinite && y.isFinite

/-- The member that tells the kind of a position. -/
def kindKey : String := "coordinateType"

/-- The JSON form of a position, which tells its kind first. -/
def toJson : Position → Json
  | .absolute ns ew =>
      .object [(kindKey, .text "absolute"), ("ns", .ofBinary64 ns), ("ew", .ofBinary64 ew)]
  | .relative x y =>
      .object [(kindKey, .text "relative"), ("x", .ofBinary64 x), ("y", .ofBinary64 y)]

/-- Whether a position is relative, told by the name of its kind or by its number. -/
def isRelative? : Json → Option Bool
  | .text kind =>
      if kind = "absolute" then some false else if kind = "relative" then some true else none
  | .integer kind => if kind = 0 then some false else if kind = 1 then some true else none
  | _ => none

/-- The position that a JSON value stands for. -/
def ofJson? (value : Json) : Option Position := do
  let (kind, rest) ← value.tagged? kindKey
  if ← isRelative? kind then
    let members ← rest.membersOf? ["x", "y"]
    let x ← Json.required? members "x" Json.binary64?
    let y ← Json.required? members "y" Json.binary64?
    return .relative x y
  else
    let members ← rest.membersOf? ["ns", "ew"]
    let ns ← Json.required? members "ns" Json.binary64?
    let ew ← Json.required? members "ew" Json.binary64?
    return .absolute ns ew

end Position

namespace Altitude

/-- The keys of an altitude. -/
def keys : List String := ["altitudeType", "value"]

/-- The JSON form of an altitude, which tells its kind first. -/
def toJson (altitude : Altitude) : Json :=
  .object [("altitudeType", .text (if altitude.relative then "relative" else "absolute")),
    ("value", .ofBinary64 altitude.value)]

/-- The altitude that a JSON value stands for. -/
def ofJson? (value : Json) : Option Altitude := do
  let members ← value.membersOf? keys
  let kind ← Json.required? members "altitudeType" Json.name?
  let height ← Json.required? members "value" Json.binary64?
  if kind = "absolute" then return ⟨false, height⟩
  else if kind = "relative" then return ⟨true, height⟩
  else none

end Altitude

namespace Place

/-- Whether no number of the place is infinite. -/
def isFinite (place : Place) : Bool :=
  place.position.isFinite && place.altitude.all (·.value.isFinite)

/-- The keys of a place. -/
def keys : List String := ["coordinates", "altitude", "direction"]

/-- The members that stand for a place. -/
def members (place : Place) : List (String × Json) :=
  ("coordinates", place.position.toJson) ::
    (Json.optionalMember "altitude" Altitude.toJson place.altitude ++
      Json.optionalMember "direction" Json.ofUInt32 place.direction)

/-- The place that some members stand for. -/
def ofMembers? (members : List (String × Json)) : Option Place := do
  let position ← Json.required? members "coordinates" Position.ofJson?
  let altitude ← Json.optional? members "altitude" Altitude.ofJson?
  let direction ← Json.optional? members "direction" Json.uint32?
  return ⟨position, altitude, direction⟩

/-- The JSON form of a place. -/
def toJson (place : Place) : Json := .object place.members

/-- The place that a JSON value stands for. -/
def ofJson? (value : Json) : Option Place := (value.membersOf? keys).bind ofMembers?

end Place

end ObjectActions
