import ObjectActions.Proofs.Number.Order
import ObjectActions.Proofs.Script.ArgumentProvenance

/-!
# What attributes can be

The grammar lets an attribute take fewer values than its shape does: a name holds certain
characters, a flag may only ever be set, a time has no sign.  `Attribute.InRange` lists what
each attribute of a verb can be, and `Setting.IsSound` adds that a text has been written somewhere
in the script.

`Verb.Says.isSound` is the main statement: whatever an argument says is sound.  It is shown for each
sort of usage once (`Usage.Fits`), and then for the table of usages verb by verb (`fits_usages`).
-/

namespace ObjectActions

open Script

/-! ## Ranges -/

/-- Whether a factor lies between one fifth and five. -/
def Binary64.IsFactor (x : Binary64) : Prop :=
  x.isFinite = true ∧ 1 / 5 ≤ x.toRat ∧ x.toRat ≤ 5

/-- Whether a number is a number, and has no sign. -/
def Binary64.IsUnsigned (x : Binary64) : Prop := x.negative = false ∧ x.isNaN = false

/-- Whether all components are numbers. -/
def Triple.IsNumeric (triple : Triple) : Prop :=
  triple.x.isNaN = false ∧ triple.y.isNaN = false ∧ triple.z.isNaN = false

/-- Whether all components are numbers. -/
def Position.IsNumeric : Position → Prop
  | .absolute ns ew => ns.isNaN = false ∧ ew.isNaN = false
  | .relative x y => x.isNaN = false ∧ y.isNaN = false

/-- Whether an altitude is a number, and has no sign if it is absolute. -/
def Altitude.InRange (altitude : Altitude) : Prop :=
  altitude.value.isNaN = false ∧ (altitude.relative = false → altitude.value.negative = false)

/-- Whether all numbers of a place are numbers, and an absolute altitude has no sign. -/
def Place.InRange (place : Place) : Prop :=
  place.position.IsNumeric ∧ ∀ altitude ∈ place.altitude, altitude.InRange

/-- Whether a text is one of some words, in any case. -/
def Text.IsOneOf (words : List String) (text : String) : Prop :=
  ∃ word ∈ words, Text.lower text.toList = word.toList

/-- Which characters the resource of a verb can hold: that of `corona` is a name. -/
def Verb.isResourceChar : Verb → Char → Bool
  | .corona => Text.isNameChar
  | _ => Text.isAddressChar

/-- Which values an attribute of a verb can have. -/
def Attribute.InRange (verb : Verb) : (a : Attribute) → a.Value → Prop
  | .texture, name | .mask, name | .tag, name | .targetName, name =>
      IsRow Text.isNameChar name.toList
  | .resource, address => IsRow verb.isResourceChar address.toList
  | .worldName, name => IsWorldName name.toList
  | .tint, flag | .smooth, flag | .global, flag => flag = true
  | .lightType, word => Text.IsOneOf ["point", "spot"] word
  | .fx, word =>
      Text.IsOneOf
        ["blink", "fadein", "fadeout", "fire", "flash", "flicker", "none", "pulse", "rainbow"] word
  | .time, x | .wait, x | .brightness, x | .radius, x => x.IsUnsigned
  | .angle, x | .pitch, x => x.isNaN = false
  | .distance, triple | .speed, triple => triple.IsNumeric
  | .factor, triple => triple.x.IsFactor ∧ triple.y.IsFactor ∧ triple.z.IsFactor
  | .text, sentence => '"' ∉ sentence.toList
  | .coordinates, place => place.InRange
  | .size, _ | .update, _ | .color, _ | .bcolor, _ | .value, _ | .loop, _ | .reset, _
  | .sync, _ => True

/-- Whether a value, if it is a text, is written in a clean source. -/
def Shape.Quotes (source : List Char) : (shape : Shape) → shape.Value → Prop
  | .text, word => word.toList <:+: source ∧ Text.IsClean word.toList
  | _, _ => True

/-- Whether a setting sets its attribute to something that it can be and that is written in a
source. -/
structure Setting.IsSound {verb : Verb} (source : List Char)
    (setting : Setting verb.attributes) : Prop where
  inRange : setting.name.InRange verb setting.value
  quotes : setting.name.shape.Quotes source setting.value

section Quotes

variable {source text : List Char}

theorem Shape.quotes_ofList (h : Text.IsClean source) (htext : text <:+: source) :
    Shape.text.Quotes source (String.ofList text) := by
  rw [Quotes, String.toList_ofList]
  exact ⟨htext, h.of_isInfix htext⟩

theorem Shape.Quotes.mono {shape : Shape} {value : shape.Value} {more : List Char}
    (h : shape.Quotes source value) (hmore : source <:+: more) : shape.Quotes more value := by
  cases shape with
  | text => exact ⟨h.1.trans hmore, h.2⟩
  | _ => trivial

end Quotes

/-! ## Numbers and places -/

section Numbers

variable {text : List Char} {x : Binary64}

theorem Script.IsNumber.isUnsigned (h : IsNumber text x) : x.IsUnsigned := by
  cases h with
  | whole | fraction => exact ⟨Binary64.negative_ofRatio _ _ _, Binary64.isNaN_ofRatio _ _ _⟩

theorem Script.IsForcedNumber.isNaN (h : IsForcedNumber text x) : x.isNaN = false := by
  cases h with
  | plus h => exact h.isUnsigned.2
  | minus h => rw [Binary64.isNaN_neg, h.isUnsigned.2]

theorem Script.IsSignedNumber.isNaN (h : IsSignedNumber text x) : x.isNaN = false := by
  cases h with
  | unsigned h | plus h => exact h.isUnsigned.2
  | minus h => rw [Binary64.isNaN_neg, h.isUnsigned.2]

theorem Script.IsNumberList.isNaN {xs : List Binary64} (h : IsNumberList text xs) :
    ∀ x ∈ xs, x.isNaN = false := by
  induction h with
  | last h => exact List.forall_mem_singleton.mpr h.isNaN
  | more h hblanks hends hfurther ih => exact List.forall_mem_cons.mpr ⟨h.isNaN, ih⟩

theorem Script.IsAxisNumber.isNaN {positive negative : Char}
    (h : IsAxisNumber positive negative text x) : x.isNaN = false := by
  cases h with
  | positive h => exact h.isUnsigned.2
  | negative h => rw [Binary64.isNaN_neg, h.isUnsigned.2]

theorem Triple.isNumeric_ofOffsets {xs : List Binary64} (h : ∀ x ∈ xs, x.isNaN = false) :
    (ofOffsets xs).IsNumeric := by
  have hzero : Binary64.zero.isNaN = false := Binary64.isNaN_ofRatio _ _ _
  unfold ofOffsets
  split <;> simp_all [IsNumeric]

theorem Triple.isFactor_ofFactors (xs : List Binary64) :
    (ofFactors xs).x.IsFactor ∧ (ofFactors xs).y.IsFactor ∧ (ofFactors xs).z.IsFactor := by
  have hfactors : ∀ y ∈ xs.map clampFactor, y.IsFactor := by
    intro y hy
    obtain ⟨x, -, rfl⟩ := List.mem_map.mp hy
    exact clampFactor_bounds x
  -- what is not above zero is brought to one, so one is a factor too
  have hone : Binary64.one.IsFactor := clampFactor_bounds .zero
  unfold ofFactors
  generalize xs.map clampFactor = factors at hfactors
  split <;> simp_all

theorem Script.IsPlace.inRange {p : Place} (h : IsPlace text p) : p.InRange := by
  cases h with
  | mk hposition haltitude hdirection =>
      constructor
      · cases hposition with
        | absolute hns hblanks hew => exact ⟨hns.isNaN, hew.isNaN⟩
        | relative hx hblanks hy => exact ⟨hx.isNaN, hy.isNaN⟩
      · cases haltitude with
        | missing => simp
        | given hblanks h =>
            rintro altitude ⟨⟩
            cases h with
            | absolute h => exact ⟨h.isUnsigned.2, fun _ => h.isUnsigned.1⟩
            | relative h => exact ⟨h.isNaN, fun hrelative => by cases hrelative⟩

end Numbers

/-! ## Usages -/

namespace Script

variable {verb : Verb}

/-- Whether everything that a usage can say is sound. -/
def Usage.Fits (usage : Usage verb) : Prop :=
  ∀ ⦃text said⦄, Text.IsClean text → usage.Spells text said →
    ∀ setting ∈ said, setting.IsSound text

theorem fits_word {a : Attribute} {table : List (String × Option a.Value)}
    {mem : a ∈ verb.attributes}
    (h : ∀ entry ∈ table, ∀ v ∈ entry.2, a.InRange verb v ∧ a.shape.Quotes [] v) :
    (Usage.word a table mem).Fits := by
  intro text said _ hspells setting hsetting
  cases hspells with
  | word hmem =>
      obtain ⟨v, hv, rfl⟩ := Option.mem_map.mp hsetting
      obtain ⟨hrange, hquotes⟩ := h _ hmem v hv
      exact ⟨hrange, hquotes.mono List.nil_infix⟩

theorem fits_row {a : Attribute} {member : Char → Bool} {value? : String → Option a.Value}
    {mem : a ∈ verb.attributes}
    (h : ∀ text, Text.IsClean text → IsRow member text → ∀ v ∈ value? (String.ofList text),
      a.InRange verb v ∧ a.shape.Quotes text v) :
    (Usage.row a member value? mem).Fits := by
  intro text said hclean hspells setting hsetting
  cases hspells with
  | row hrow =>
      obtain ⟨v, hv, rfl⟩ := Option.mem_map.mp hsetting
      obtain ⟨hrange, hquotes⟩ := h text hclean hrow v hv
      exact ⟨hrange, hquotes⟩

theorem fits_numbers {a : Attribute} {value : List Binary64 → a.Value}
    {mem : a ∈ verb.attributes}
    (h : ∀ xs, (∀ x ∈ xs, x.isNaN = false) →
      a.InRange verb (value xs) ∧ a.shape.Quotes [] (value xs)) :
    (Usage.numbers a value mem).Fits := by
  intro text said _ hspells setting hsetting
  cases hspells with
  | numbers hlist =>
      cases hsetting
      obtain ⟨hrange, hquotes⟩ := h _ hlist.isNaN
      exact ⟨hrange, hquotes.mono List.nil_infix⟩

theorem fits_quotation {mem : .text ∈ verb.attributes} :
    (Usage.quotation .text id mem).Fits := by
  intro text said hclean hspells setting hsetting
  cases hspells with
  | @quotation _ _ _ text hquote hnoise =>
      cases hsetting
      have hrange : '"' ∉ (String.ofList text).toList := by rwa [String.toList_ofList]
      exact ⟨hrange, Shape.quotes_ofList hclean ⟨['"'], ['"'], rfl⟩⟩

/-- A row of characters that is kept as it is written. -/
theorem sound_ofList {member : Char → Bool} {text : List Char} (hclean : Text.IsClean text)
    (hrow : IsRow member text) :
    ∀ word ∈ some (String.ofList text), IsRow member word.toList ∧ Shape.text.Quotes text word := by
  rintro word ⟨⟩
  rw [String.toList_ofList]
  exact ⟨hrow, Shape.quotes_ofList hclean List.infix_rfl⟩

/-- The value of a parameter is sound. -/
theorem sound_of_spells {p : Parameter} {text : List Char} {v : p.attribute.Value}
    (hclean : Text.IsClean text) (h : p.Spells text (some v)) :
    p.attribute.InRange verb v ∧ p.attribute.shape.Quotes text v := by
  cases p with
  | name | mask | tag =>
      obtain ⟨hrow, ⟨⟩⟩ := h
      exact sound_ofList hclean hrow _ rfl
  | type | fx =>
      obtain ⟨⟨word, hmem, hlower⟩, ⟨⟩⟩ := h
      refine ⟨⟨word, hmem, ?_⟩, Shape.quotes_ofList hclean List.infix_rfl⟩
      rwa [String.toList_ofList]
  | time | wait | brightness | radius =>
      obtain ⟨x, hx, ⟨⟩⟩ := h
      exact ⟨hx.isUnsigned, trivial⟩
  | angle | pitch =>
      obtain ⟨x, hx, ⟨⟩⟩ := h
      exact ⟨hx.isNaN, trivial⟩
  | size | update | color | bcolor => exact ⟨trivial, trivial⟩

theorem fits_parameter {p : Parameter} {mem : p.attribute ∈ verb.attributes} :
    (Usage.parameter p mem).Fits := by
  intro text said hclean hspells setting hsetting
  cases hspells with
  | @parameter _ _ key before after text value hkey hbefore hafter hvalue =>
      obtain ⟨v, rfl, rfl⟩ := Option.mem_map.mp hsetting
      have hinfix : text <:+: key ++ (before ++ '=' :: (after ++ text)) :=
        ⟨key ++ (before ++ '=' :: after), [], by simp⟩
      obtain ⟨hrange, hquotes⟩ := @sound_of_spells verb _ _ _ (hclean.of_isInfix hinfix) hvalue
      exact ⟨hrange, hquotes.mono hinfix⟩

/-- Everything that the table of usages allows is sound. -/
theorem fits_usages (verb : Verb) : ∀ usage ∈ verb.usages, usage.Fits := by
  have hnil : ∀ usage ∈ ([] : List (Usage verb)), usage.Fits := List.forall_mem_nil _
  cases verb with
  | texture | corona =>
      simp only [Verb.usages, List.forall_mem_cons]
      exact ⟨fits_parameter, fits_parameter, fits_parameter,
        fits_row fun _ => sound_ofList, hnil⟩
  | color =>
      simp only [Verb.usages, List.forall_mem_cons]
      exact ⟨fits_parameter, fits_word (by simp [Attribute.InRange, Shape.Quotes]),
        fits_row fun _ _ _ _ _ => ⟨trivial, trivial⟩, hnil⟩
  | solid | visible =>
      simp only [Verb.usages, List.forall_mem_cons]
      exact ⟨fits_parameter, fits_word fun _ _ _ _ => ⟨trivial, trivial⟩,
        fits_row fun _ => sound_ofList, hnil⟩
  | move =>
      simp only [Verb.usages, List.forall_mem_cons]
      exact ⟨fits_parameter, fits_parameter, fits_parameter,
        fits_word fun _ _ _ _ => ⟨trivial, trivial⟩, fits_word fun _ _ _ _ => ⟨trivial, trivial⟩,
        fits_word fun _ _ _ _ => ⟨trivial, trivial⟩,
        fits_word (by simp [Attribute.InRange, Shape.Quotes]),
        fits_word (by simp [Attribute.InRange, Shape.Quotes]),
        fits_numbers fun _ hxs => ⟨Triple.isNumeric_ofOffsets hxs, trivial⟩, hnil⟩
  | rotate =>
      simp only [Verb.usages, List.forall_mem_cons]
      exact ⟨fits_parameter, fits_parameter, fits_parameter,
        fits_word fun _ _ _ _ => ⟨trivial, trivial⟩, fits_word fun _ _ _ _ => ⟨trivial, trivial⟩,
        fits_word fun _ _ _ _ => ⟨trivial, trivial⟩,
        fits_numbers fun _ hxs => ⟨Triple.isNumeric_ofOffsets hxs, trivial⟩, hnil⟩
  | scale =>
      simp only [Verb.usages, List.forall_mem_cons]
      exact ⟨fits_parameter, fits_numbers fun xs _ => ⟨Triple.isFactor_ofFactors xs, trivial⟩,
        hnil⟩
  | light =>
      simp only [Verb.usages, List.forall_mem_cons]
      exact ⟨fits_parameter, fits_parameter, fits_parameter, fits_parameter, fits_parameter,
        fits_parameter, fits_parameter, fits_parameter, fits_parameter, hnil⟩
  | noise =>
      simp only [Verb.usages, List.forall_mem_cons]
      exact ⟨fits_word (by simp), fits_row fun _ => sound_ofList, hnil⟩
  | picture | media =>
      simp only [Verb.usages, List.forall_mem_cons]
      exact ⟨fits_parameter, fits_parameter, fits_row fun _ => sound_ofList, hnil⟩
  | sign =>
      simp only [Verb.usages, List.forall_mem_cons]
      exact ⟨fits_parameter, fits_parameter, fits_parameter, fits_quotation, hnil⟩
  | sound | examine | name | teleport | url => exact hnil

end Script

/-- **Ranges.**  Whatever an argument of a verb says is sound. -/
theorem Verb.Says.isSound {verb : Verb} {text : List Char} {said : Argument verb}
    (hclean : Text.IsClean text) (h : verb.Says text said) :
    ∀ setting ∈ said, setting.IsSound text := by
  intro setting hsetting
  cases h with
  | usage hmem hspells => exact fits_usages verb _ hmem hclean hspells setting hsetting
  | sound h | url h | name h =>
      cases hsetting
      obtain ⟨hrange, hquotes⟩ := sound_ofList hclean h _ rfl
      exact ⟨hrange, hquotes⟩
  | world h =>
      cases hsetting
      refine ⟨?_, Shape.quotes_ofList hclean List.infix_rfl⟩
      rwa [Attribute.InRange, String.toList_ofList]
  | place h =>
      cases hsetting
      exact ⟨h.inRange, trivial⟩

/-- Whatever the arguments of a verb say together is sound. -/
theorem Verb.Phrase.isSound {verb : Verb} {text : List Char} {arguments : List (Argument verb)}
    (hclean : Text.IsClean text) (h : verb.Phrase text arguments) :
    ∀ setting ∈ arguments.filterMap id, setting.IsSound text := by
  intro setting hsetting
  cases h with
  | @mk word rest _ hword hstop hrest =>
      obtain ⟨said, hsaid, heq⟩ := List.mem_filterMap.mp hsetting
      obtain ⟨part, hpart, hsays⟩ := hrest.exists_of_mem hsaid
      have hinfix : part <:+: word ++ rest := hpart.trans (List.suffix_append word rest).isInfix
      have hsound := hsays.isSound (hclean.of_isInfix hinfix) setting heq
      exact ⟨hsound.inRange, hsound.quotes.mono hinfix⟩

end ObjectActions
