import ObjectActions.Command.Basic

/-!
# The parts of a script

When a script cannot be read, the parts that would have made sense are listed by name.
This module names all parts and fixes the order in which they are listed, which is the
order of `Rule.all`, whatever the order in which they were tried.  Several parts may
share a name: a reader who needs a number does not care which kind of number it was.
-/

namespace ObjectActions

/-- The parameters that are written with a key, an equals sign and a value. -/
inductive Parameter where
  | name
  | mask
  | tag
  | size
  | color
  | bcolor
  | time
  | wait
  | brightness
  | radius
  | type
  | fx
  | angle
  | pitch
  | update
deriving DecidableEq, Repr

namespace Parameter

/-- The key of a parameter in lower case. -/
def key : Parameter → String
  | name => "name"
  | mask => "mask"
  | tag => "tag"
  | size => "size"
  | color => "color"
  | bcolor => "bcolor"
  | time => "time"
  | wait => "wait"
  | brightness => "brightness"
  | radius => "radius"
  | type => "type"
  | fx => "fx"
  | angle => "angle"
  | pitch => "pitch"
  | update => "update"

/-- All parameters. -/
def all : List Parameter :=
  [name, mask, tag, size, color, bcolor, time, wait, brightness, radius, type, fx, angle, pitch,
    update]

theorem mem_all (parameter : Parameter) : parameter ∈ all := by cases parameter <;> decide

end Parameter

/-- The parts of a script that can be reported as expected. -/
inductive Rule where
  | endOfInput
  | action
  | trigger
  | command (kind : CommandKind)
  | keyword (keyword : Keyword)
  | parameter (parameter : Parameter)
  | lightType
  | lightFx
  | boolean
  | loopStatus
  | resetStatus
  | syncStatus
  | smoothFlag
  | globalFlag
  | tintFlag
  | overlapFlag
  | objectName
  | basicResource
  | resourceTarget
  | colorName
  | worldName
  | signText
  | textBody
  | integer
  | float
  | floatFract
  | integral
  | fractional
  | floatWhole
  | sign
  | signedFloat
  | forceSignedFloat
  | coordinateList
  | worldCoordinates
  | absoluteCoordinates
  | relativeCoordinates
  | nsCoordinate
  | ewCoordinate
  | nsAxis
  | ewAxis
  | altitude
  | direction
deriving DecidableEq, Repr

namespace Rule

/-- All parts, in the order in which they are listed. -/
def all : List Rule :=
  [endOfInput, action, trigger] ++ CommandKind.all.map command ++ Keyword.all.map keyword ++
    Parameter.all.map parameter ++
    [lightType, lightFx, boolean, loopStatus, resetStatus, syncStatus, smoothFlag, globalFlag,
      tintFlag, overlapFlag, objectName, basicResource, resourceTarget, colorName, worldName,
      signText, textBody, integer, float, floatFract, integral, fractional, floatWhole, sign,
      signedFloat, forceSignedFloat, coordinateList, worldCoordinates, absoluteCoordinates,
      relativeCoordinates, nsCoordinate, ewCoordinate, nsAxis, ewAxis, altitude, direction]

/-- The name by which a part is listed. -/
def description : Rule → String
  | endOfInput => "end of input"
  | action => "action"
  | trigger => "trigger keyword (create, activate, bump, adone, end)"
  | command .invalid => "command"
  | command (.named k) => k.word ++ " command"
  | keyword k => k.word ++ " kw"
  | parameter p => p.key ++ " param"
  | lightType => "light type"
  | lightFx => "light fx"
  | boolean => "boolean"
  | loopStatus => "loop status"
  | resetStatus => "reset status"
  | syncStatus => "sync status"
  | smoothFlag => "smooth flag"
  | globalFlag => "global flag"
  | tintFlag => "tint flag"
  | overlapFlag => "overlap flag"
  | objectName => "object name"
  | basicResource => "basic resource"
  | resourceTarget => "resource target"
  | colorName => "color name"
  | worldName => "world name"
  | signText => "sign text"
  | textBody => "text body"
  | integer => "integer"
  | float => "number"
  | floatFract => "float fract"
  | integral => "integral"
  | fractional => "fractional"
  | floatWhole => "float whole"
  | sign => "sign"
  | signedFloat => "number"
  | forceSignedFloat => "signed number"
  | coordinateList => "coordinate list"
  | worldCoordinates => "world coordinates"
  | absoluteCoordinates => "world coordinates"
  | relativeCoordinates => "world coordinates"
  | nsCoordinate => "ns coordinate"
  | ewCoordinate => "ew coordinate"
  | nsAxis => "ns axis"
  | ewAxis => "ew axis"
  | altitude => "altitude"
  | direction => "direction"

/-- Every part has its place in the list. -/
theorem mem_all (rule : Rule) : rule ∈ all := by
  cases rule with
  | command kind =>
      simp only [all, List.mem_append, List.mem_map]
      exact .inl (.inl (.inl (.inr ⟨kind, CommandKind.mem_all kind, rfl⟩)))
  | keyword k =>
      simp only [all, List.mem_append, List.mem_map]
      exact .inl (.inl (.inr ⟨k, Keyword.mem_all k, rfl⟩))
  | parameter p =>
      simp only [all, List.mem_append, List.mem_map]
      exact .inl (.inr ⟨p, Parameter.mem_all p, rfl⟩)
  | _ => simp [all]

end Rule

end ObjectActions
