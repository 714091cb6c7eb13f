import ObjectActions.Color
import ObjectActions.Place
import ObjectActions.Triple

/-!
# Attributes of commands

A command says what happens to an object, and its attributes say how.  Every attribute
has a key, under which it stands in a JSON text and by which it is named when something
is wrong with it, and a shape, which fixes what its values are.  The shape of an
attribute does not depend on the command that has it.
-/

namespace ObjectActions

/-! ## Shapes of values -/

/-- What the values of an attribute are. -/
inductive Shape where
  | text
  | count
  | measure
  | flag
  | color
  | triple
  | place
deriving DecidableEq, Repr

namespace Shape

/-- The values of a shape. -/
@[reducible] def Value : Shape → Type
  | text => String
  | count => UInt32
  | measure => Binary64
  | flag => Bool
  | color => Color
  | triple => Triple
  | place => Place

/-- Values of a shape can be compared. -/
instance decidableEqValue : (shape : Shape) → DecidableEq shape.Value
  | text => inferInstanceAs (DecidableEq String)
  | count => inferInstanceAs (DecidableEq UInt32)
  | measure => inferInstanceAs (DecidableEq Binary64)
  | flag => inferInstanceAs (DecidableEq Bool)
  | color => inferInstanceAs (DecidableEq Color)
  | triple => inferInstanceAs (DecidableEq Triple)
  | place => inferInstanceAs (DecidableEq Place)

/-- The JSON form of a value. -/
def toJson : (shape : Shape) → shape.Value → Json
  | text, value => .text value
  | count, value => .ofUInt32 value
  | measure, value => .ofBinary64 value
  | flag, value => .flag value
  | color, value => value.toJson
  | triple, value => value.toJson
  | place, value => value.toJson

/-- The value that a JSON value stands for. -/
def ofJson? : (shape : Shape) → Json → Option shape.Value
  | text => Json.text?
  | count => Json.uint32?
  | measure => Json.binary64?
  | flag => Json.flag?
  | color => Color.ofJson?
  | triple => Triple.ofJson?
  | place => Place.ofJson?

/-- Whether a value holds no infinite number. -/
def isFinite : (shape : Shape) → shape.Value → Bool
  | measure, value => value.isFinite
  | triple, value => value.isFinite
  | place, value => value.isFinite
  | _, _ => true

end Shape

/-! ## Attributes -/

/-- Everything that can be said about how a command is carried out. -/
inductive Attribute where
  | texture
  | mask
  | tag
  | targetName
  | resource
  | size
  | color
  | tint
  | value
  | distance
  | time
  | wait
  | loop
  | reset
  | sync
  | smooth
  | global
  | speed
  | factor
  | brightness
  | radius
  | lightType
  | fx
  | angle
  | pitch
  | update
  | text
  | bcolor
  | worldName
  | coordinates
deriving DecidableEq, Repr

namespace Attribute

/-- The key under which an attribute is known. -/
def key : Attribute → String
  | texture => "texture"
  | mask => "mask"
  | tag => "tag"
  | targetName => "targetName"
  | resource => "resource"
  | size => "size"
  | color => "color"
  | tint => "tint"
  | value => "value"
  | distance => "distance"
  | time => "time"
  | wait => "wait"
  | loop => "loop"
  | reset => "reset"
  | sync => "sync"
  | smooth => "smooth"
  | global => "global"
  | speed => "speed"
  | factor => "factor"
  | brightness => "brightness"
  | radius => "radius"
  | lightType => "type"
  | fx => "fx"
  | angle => "angle"
  | pitch => "pitch"
  | update => "update"
  | text => "text"
  | bcolor => "bcolor"
  | worldName => "worldName"
  | coordinates => "coordinates"

/-- What the values of an attribute are. -/
@[reducible] def shape : Attribute → Shape
  | texture | mask | tag | targetName | resource | lightType | fx | text | worldName => .text
  | size | update => .count
  | time | wait | brightness | radius | angle | pitch => .measure
  | tint | value | loop | reset | sync | smooth | global => .flag
  | color | bcolor => .color
  | distance | speed | factor => .triple
  | coordinates => .place

/-- The values of an attribute. -/
abbrev Value (a : Attribute) : Type := a.shape.Value

/-- All attributes. -/
def all : List Attribute :=
  [texture, mask, tag, targetName, resource, size, color, tint, value, distance, time, wait, loop,
    reset, sync, smooth, global, speed, factor, brightness, radius, lightType, fx, angle, pitch,
    update, text, bcolor, worldName, coordinates]

/-- The attribute that is known under a key. -/
def ofKey? (key : String) : Option Attribute := all.find? (·.key == key)

theorem ofKey?_key (a : Attribute) : ofKey? a.key = some a := by
  cases a <;> rfl

/-- No two attributes share a key. -/
theorem key_injective {a b : Attribute} (h : a.key = b.key) : a = b :=
  Option.some.inj (by rw [← ofKey?_key a, ← ofKey?_key b, h])

end Attribute

end ObjectActions
