import ObjectActions.Attribute.Record

/-!
# Commands

Most commands are a verb with a record of attributes, all of which may be left out.  The
table `Verb.attributes` says which attributes a verb has, in the order in which they are
written.  Two commands are of another make: `warp` must have a place to go to, and a
command that is not understood is kept as the text it was written as.

A command that sets nothing has no effect, except that the mere presence of `examine`
and `sign` means something.  Whether a command sets nothing, and whom it is meant for, is not
looked up in the table: each verb names the attributes that it looks at (`Verb.examined`), and
whether it has a target (`Verb.isTargeted`).  That these say the same as the table are facts about
all verbs (`Verb.examined_eq_attributes`, `Verb.isTargeted_iff`).
-/

namespace ObjectActions

/-! ## Kinds of commands -/

/-- What a command with optional attributes does. -/
inductive Verb where
  | texture
  | sound
  | corona
  | color
  | examine
  | solid
  | name
  | visible
  | move
  | rotate
  | scale
  | light
  | noise
  | picture
  | media
  | sign
  | teleport
  | url
deriving DecidableEq, Repr

namespace Verb

/-- The word for a verb. -/
def word : Verb → String
  | texture => "texture"
  | sound => "sound"
  | corona => "corona"
  | color => "color"
  | examine => "examine"
  | solid => "solid"
  | name => "name"
  | visible => "visible"
  | move => "move"
  | rotate => "rotate"
  | scale => "scale"
  | light => "light"
  | noise => "noise"
  | picture => "picture"
  | media => "media"
  | sign => "sign"
  | teleport => "teleport"
  | url => "url"

/-- The attributes of a verb, in the order in which they are written. -/
@[reducible] def attributes : Verb → List Attribute
  | texture => [.texture, .mask, .tag, .targetName]
  | sound => [.resource]
  | corona => [.resource, .mask, .size, .targetName]
  | color => [.color, .tint, .targetName]
  | examine => []
  | solid => [.value, .targetName]
  | name => [.targetName]
  | visible => [.value, .targetName]
  | move => [.distance, .time, .wait, .loop, .reset, .sync, .smooth, .global, .targetName]
  | rotate => [.speed, .time, .wait, .loop, .reset, .sync, .targetName]
  | scale => [.factor, .targetName]
  | light =>
      [.color, .brightness, .radius, .lightType, .fx, .time, .angle, .pitch, .targetName]
  | noise => [.resource]
  | picture => [.resource, .update, .targetName]
  | media => [.resource, .radius, .targetName]
  | sign => [.text, .color, .bcolor, .targetName]
  | teleport => [.worldName, .coordinates]
  | url => [.resource]

/-- No verb has an attribute twice. -/
theorem nodup_attributes (verb : Verb) : verb.attributes.Nodup := by
  cases verb <;> decide

/-- The attributes that must all be left out for a command of a verb to say nothing, in the order
in which they are looked at. -/
def examined : Verb → List Attribute
  | texture => [.texture, .mask, .tag, .targetName]
  | sound => [.resource]
  | corona => [.resource, .mask, .size, .targetName]
  | color => [.color, .tint, .targetName]
  | examine => []
  | solid => [.value, .targetName]
  | name => [.targetName]
  | visible => [.value, .targetName]
  | move => [.distance, .time, .wait, .loop, .reset, .sync, .smooth, .global, .targetName]
  | rotate => [.speed, .time, .wait, .loop, .reset, .sync, .targetName]
  | scale => [.factor, .targetName]
  | light =>
      [.color, .brightness, .radius, .lightType, .fx, .time, .angle, .pitch, .targetName]
  | noise => [.resource]
  | picture => [.resource, .update, .targetName]
  | media => [.resource, .radius, .targetName]
  | sign => [.text, .color, .bcolor, .targetName]
  | teleport => [.worldName, .coordinates]
  | url => [.resource]

/-- Whether the commands of a verb can be meant for another object. -/
def isTargeted : Verb → Bool
  | texture | corona | color | solid | name | visible | move | rotate | scale | light | picture
  | media | sign => true
  | sound | examine | noise | teleport | url => false

/-- Nothing that is written is forgotten when a command is asked whether it says something. -/
theorem examined_eq_attributes (verb : Verb) : verb.examined = verb.attributes := by
  cases verb <;> rfl

/-- A verb has a target exactly if one is written. -/
theorem isTargeted_iff {verb : Verb} :
    verb.isTargeted = true ↔ Attribute.targetName ∈ verb.attributes := by
  cases verb <;> decide

end Verb

/-- The words that a command can begin with. -/
inductive Keyword where
  | verb (verb : Verb)
  | warp
deriving DecidableEq, Repr

namespace Keyword

/-- A keyword as it is written in lower case. -/
def word : Keyword → String
  | verb v => v.word
  | warp => "warp"

/-- All keywords, in the order in which commands are tried. -/
def all : List Keyword :=
  [verb .texture, verb .sound, verb .corona, verb .color, verb .examine, verb .solid, verb .name,
    verb .visible, verb .move, verb .rotate, verb .scale, verb .light, verb .noise, verb .picture,
    verb .media, verb .sign, verb .teleport, warp, verb .url]

theorem mem_all (keyword : Keyword) : keyword ∈ all := by
  cases keyword with
  | warp => decide
  | verb v => cases v <;> decide

end Keyword

/-- What sort of command something is. -/
inductive CommandKind where
  /-- A command that begins with a keyword. -/
  | named (keyword : Keyword)
  /-- A command that was not understood. -/
  | invalid
deriving DecidableEq, Repr

namespace CommandKind

/-- The word for a kind of command. -/
def word : CommandKind → String
  | named keyword => keyword.word
  | invalid => "invalid"

/-- All kinds. -/
def all : List CommandKind := invalid :: Keyword.all.map named

/-- The kind of a word, which must be spelled exactly. -/
def ofWord? (word : String) : Option CommandKind := all.find? (·.word == word)

/-- Whether a command of this kind means something even if it sets nothing. -/
def keptWhenEmpty : CommandKind → Bool
  | named (.verb .examine) => true
  | named (.verb .sign) => true
  | _ => false

theorem mem_all (kind : CommandKind) : kind ∈ all := by
  cases kind with
  | invalid => exact List.mem_cons_self
  | named keyword => exact List.mem_cons_of_mem _ (List.mem_map_of_mem (Keyword.mem_all keyword))

@[simp] theorem ofWord?_word (kind : CommandKind) : ofWord? kind.word = some kind := by
  rcases kind with ⟨v | _⟩ | _
  · cases v <;> rfl
  · rfl
  · rfl

end CommandKind

/-! ## Commands -/

/-- One thing to be done when a trigger fires. -/
inductive Command where
  /-- A verb with those of its attributes that are set. -/
  | act (verb : Verb) (record : Record verb.attributes)
  /-- Going to a place in the same world. -/
  | warp (destination : Place)
  /-- A command that was not understood, as it was written. -/
  | invalid (text : String)
deriving DecidableEq

namespace Command

/-- The kind of a command. -/
def kind : Command → CommandKind
  | act verb _ => .named (.verb verb)
  | warp _ => .named .warp
  | invalid _ => .invalid

/-- The name of the object that a command is meant for, if it is not the object itself. -/
def targetName? : Command → Option String
  | act verb record => if verb.isTargeted then record.get? .targetName else none
  | warp _ => none
  | invalid _ => none

/-- Whether a command says nothing beyond its kind. -/
def isEmpty : Command → Bool
  | act verb record => verb.examined.all fun a => (record.get? a).isNone
  | warp _ => false
  | invalid _ => false

/-- Whether no number in a command is infinite. -/
def isFinite : Command → Bool
  | act _ record => record.isFinite
  | warp destination => destination.isFinite
  | invalid _ => true

/-- A verb that is not asked for its target has none. -/
theorem targetName?_act (verb : Verb) (record : Record verb.attributes) :
    (act verb record).targetName? = record.get? .targetName := by
  rw [targetName?]
  split
  · rfl
  · next h => exact (record.get?_of_notMem _ (mt Verb.isTargeted_iff.mpr h)).symm

/-- A command of a verb says nothing exactly if its record is empty. -/
theorem isEmpty_act (verb : Verb) (record : Record verb.attributes) :
    (act verb record).isEmpty = record.isEmpty := by
  rw [isEmpty, verb.examined_eq_attributes, Record.isEmpty]

end Command

end ObjectActions
