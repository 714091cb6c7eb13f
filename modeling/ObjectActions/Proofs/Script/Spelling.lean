import ObjectActions.Proofs.Script.Form
import ObjectActions.Proofs.Script.Numerals
import ObjectActions.Text.Clean

/-!
# How arguments are spelled

What can be written behind a verb, and what it says, is given here without the grammar: as
a table of usages for each verb (`Verb.usages`) and a relation that says which texts spell a
usage and which setting they stand for (`Usage.Spells`).

A usage is a parameter, a choice of words, a row of characters of one class, a list of
numbers or quoted text.  Each belongs to one attribute of the verb.  A text may spell
a usage and still set nothing: a color that does not resolve is left out.
-/

namespace ObjectActions

/-! ## Values of parameters -/

/-- The attribute that a parameter sets. -/
def Parameter.attribute : Parameter → Attribute
  | name => .targetName
  | mask => .mask
  | tag => .tag
  | size => .size
  | color => .color
  | bcolor => .bcolor
  | time => .time
  | wait => .wait
  | brightness => .brightness
  | radius => .radius
  | type => .lightType
  | fx => .fx
  | angle => .angle
  | pitch => .pitch
  | update => .update

namespace Script

def SpellsName (text : List Char) (value : Option String) : Prop :=
  IsRow Text.isNameChar text ∧ value = some (String.ofList text)

def SpellsCount (text : List Char) (value : Option UInt32) : Prop :=
  IsRow Char.isDigit text ∧ value = some (Digits.saturate (Digits.value text))

def SpellsColor (text : List Char) (value : Option Color) : Prop :=
  IsRow Char.isAlphanum text ∧ value = Color.resolve? (String.ofList text)

def SpellsNumber (text : List Char) (value : Option Binary64) : Prop :=
  ∃ x, IsNumber text x ∧ value = some x

def SpellsSignedNumber (text : List Char) (value : Option Binary64) : Prop :=
  ∃ x, IsSignedNumber text x ∧ value = some x

/-- One of some words in any case, kept as it is written. -/
def SpellsOneOf (words : List String) (text : List Char) (value : Option String) : Prop :=
  (∃ word ∈ words, Text.lower text = word.toList) ∧ value = some (String.ofList text)

end Script

open Script in
/-- Which texts can stand behind the equals sign of a parameter, and what they stand for. -/
def Parameter.Spells : (p : Parameter) → List Char → Option p.attribute.Value → Prop
  | name | mask | tag => SpellsName
  | size | update => SpellsCount
  | color | bcolor => SpellsColor
  | time | wait | brightness | radius => SpellsNumber
  | type => SpellsOneOf ["point", "spot"]
  | fx =>
      SpellsOneOf
        ["blink", "fadein", "fadeout", "fire", "flash", "flicker", "none", "pulse", "rainbow"]
  | angle | pitch => SpellsSignedNumber

/-- A verb can set an attribute. -/
abbrev Verb.Sets (verb : Verb) (a : Attribute) : Prop := a ∈ verb.attributes

namespace Script

/-! ## Usages -/

/-- One of the ways in which an attribute of a verb can be given. -/
inductive Usage (verb : Verb) where
  /-- A parameter. -/
  | parameter (p : Parameter) (mem : verb.Sets p.attribute := by decide)
  /-- One of some words, each with what it says about an attribute. -/
  | word (a : Attribute) (table : List (String × Option a.Value))
      (mem : verb.Sets a := by decide)
  /-- A row of characters of one class. -/
  | row (a : Attribute) (member : Char → Bool) (value? : String → Option a.Value)
      (mem : verb.Sets a := by decide)
  /-- One number or more. -/
  | numbers (a : Attribute) (value : List Binary64 → a.Value)
      (mem : verb.Sets a := by decide)
  /-- Text between double quotes. -/
  | quotation (a : Attribute) (value : String → a.Value)
      (mem : verb.Sets a := by decide)

namespace Usage

variable {verb : Verb}

/-- Which texts spell a usage, and what they say. -/
inductive Spells : Usage verb → List Char → Argument verb → Prop where
  | parameter {p : Parameter} {mem : p.attribute ∈ verb.attributes}
      {key before after text : List Char} {value : Option p.attribute.Value}
      (hkey : Text.lower key = p.key.toList) (hbefore : before.all Text.isBlank)
      (hafter : after.all Text.isBlank) (hvalue : p.Spells text value) :
      Spells (.parameter p mem) (key ++ (before ++ '=' :: (after ++ text)))
        (value.map fun v => ⟨p.attribute, v, mem⟩)
  | word {a : Attribute} {table : List (String × Option a.Value)} {mem : a ∈ verb.attributes}
      {word : String} {value : Option a.Value} (h : (word, value) ∈ table) :
      Spells (.word a table mem) word.toList (value.map fun v => ⟨a, v, mem⟩)
  | row {a : Attribute} {member : Char → Bool} {value? : String → Option a.Value}
      {mem : a ∈ verb.attributes} {text : List Char} (h : IsRow member text) :
      Spells (.row a member value? mem) text
        ((value? (String.ofList text)).map fun v => ⟨a, v, mem⟩)
  | numbers {a : Attribute} {value : List Binary64 → a.Value} {mem : a ∈ verb.attributes}
      {text : List Char} {xs : List Binary64} (h : IsNumberList text xs) :
      Spells (.numbers a value mem) text (some ⟨a, value xs, mem⟩)
  | quotation {a : Attribute} {value : String → a.Value} {mem : a ∈ verb.attributes}
      {text : List Char} (hquote : '"' ∉ text) (hnoise : ∀ c ∈ text, Text.isNoise c = false) :
      Spells (.quotation a value mem) ('"' :: (text ++ ['"']))
        (some ⟨a, value (String.ofList text), mem⟩)

/-- The form of a usage. -/
def form : Usage verb → Form
  | parameter p _ => p.argumentForm
  | word _ table _ => .word (table.map Prod.fst)
  | row _ member _ _ => .row member
  | numbers _ _ _ => .numbers
  | quotation _ _ _ => .quotation

/-- The attribute that a usage is about. -/
def subject : Usage verb → Attribute
  | parameter p _ => p.attribute
  | word a _ _ | row a _ _ _ | numbers a _ _ | quotation a _ _ => a

/-- What a usage says is about its attribute. -/
theorem Spells.name {usage : Usage verb} {text : List Char} {setting : Setting verb.attributes}
    (h : usage.Spells text (some setting)) : setting.name = usage.subject := by
  generalize hargument : some setting = argument at h
  cases h with
  | parameter | word | row =>
      obtain ⟨v, -, rfl⟩ := Option.map_eq_some_iff.mp hargument.symm
      rfl
  | numbers | quotation =>
      cases hargument
      rfl

end Usage

/-- A status: a word or the same word after `no`. -/
def statusWords (affirmative : String) : List (String × Option Bool) :=
  [(affirmative, some true), ("no" ++ affirmative, some false)]

end Script

open Script in
/-- The usages of the verbs that can have any number of arguments, in the order in which they
are tried. -/
def Verb.usages : (verb : Verb) → List (Usage verb)
  | texture =>
      [.parameter .name, .parameter .mask, .parameter .tag, .row .texture Text.isNameChar some]
  | corona =>
      [.parameter .name, .parameter .mask, .parameter .size,
        .row .resource Text.isNameChar some]
  | color =>
      [.parameter .name, .word .tint [("tint", some true)],
        .row .color Char.isAlphanum Color.resolve?]
  | solid | visible =>
      [.parameter .name,
        .word .value [("on", some true), ("true", some true), ("yes", some true),
          ("off", some false), ("false", some false), ("no", some false)],
        .row .targetName Text.isNameChar some]
  | move =>
      [.parameter .name, .parameter .time, .parameter .wait, .word .loop (statusWords "loop"),
        .word .reset (statusWords "reset"), .word .sync (statusWords "sync"),
        .word .smooth [("smooth", some true)], .word .global [("global", some true)],
        .numbers .distance Triple.ofOffsets]
  | rotate =>
      [.parameter .name, .parameter .time, .parameter .wait, .word .loop (statusWords "loop"),
        .word .reset (statusWords "reset"), .word .sync (statusWords "sync"),
        .numbers .speed Triple.ofOffsets]
  | scale => [.parameter .name, .numbers .factor Triple.ofFactors]
  | light =>
      [.parameter .name, .parameter .color, .parameter .brightness, .parameter .radius,
        .parameter .type, .parameter .fx, .parameter .time, .parameter .angle,
        .parameter .pitch]
  | noise => [.word .resource [("overlap", none)], .row .resource Text.isAddressChar some]
  | picture =>
      [.parameter .name, .parameter .update, .row .resource Text.isAddressChar some]
  | media => [.parameter .name, .parameter .radius, .row .resource Text.isAddressChar some]
  | sign => [.parameter .name, .parameter .color, .parameter .bcolor, .quotation .text id]
  | sound | examine | name | teleport | url => []

/-- The verbs whose arguments can be told apart in any order. -/
def Verb.Sortable (verb : Verb) : Prop :=
  verb ∈ [texture, corona, color, solid, visible, move, rotate, scale, light, picture, media, sign]

/-- The forms of the arguments of a verb, in the order in which they are tried. -/
def Verb.forms (verb : Verb) : List Script.Form := verb.usages.map Script.Usage.form

end ObjectActions
