import Mathlib.Data.List.Nodup
import ObjectActions.Command.Json
import ObjectActions.Proofs.Json.Members

/-!
# The fields of a command

On the way to a command the values of a JSON text are read as different things, and each of these
has fields of its own:

```text
content        fields
a command      the tag, then what goes with the kind that the tag names
a position     the tag, then two numbers that depend on it
a place        the position, and the altitude and the direction if they are given
an altitude    its kind and its value
a color        three numbers
a triple       three numbers
plain          none
```

Nothing but these fields is ever looked at, so two values are read alike if their fields agree: what
stands under a key is the same, or read alike in turn, or unset in both of them.

* `Agree`: the fields of two values agree;
* `Agree.membersOf?_bind` and `Agree.tagged?`: this is all that the readers ask for;
* `Content.readsAlike_of_agree`: values whose fields agree are read alike.
-/

namespace ObjectActions

/-! ## Contents and their fields -/

/-- What a JSON value is read as on the way to a command. -/
inductive Content where
  | command
  | place
  | position
  | altitude
  | color
  | triple
  /-- A number, a text, a truth value or a name. -/
  | plain
deriving DecidableEq

/-- A key under which something is looked for. -/
structure Field where
  key : String
  content : Content
  /-- Whether the field may be missing or `null`. -/
  optional : Bool
deriving DecidableEq

namespace Field

/-- A field that must hold a plain value. -/
def plain (key : String) : Field := ⟨key, .plain, false⟩

end Field

/-- What the values of a shape are read as. -/
def Shape.content : Shape → Content
  | color => .color
  | triple => .triple
  | place => .place
  | text | count | measure | flag => .plain

/-- The fields of a place. -/
def Place.fields : List Field :=
  [⟨"coordinates", .position, false⟩, ⟨"altitude", .altitude, true⟩, ⟨"direction", .plain, true⟩]

/-- The fields of a position beside its tag. -/
def Position.fields (relative : Bool) : List Field :=
  if relative then ["x", "y"].map Field.plain else ["ns", "ew"].map Field.plain

/-- The fields of a command beside its tag. -/
def CommandKind.fields : CommandKind → List Field
  | .named (.verb verb) => verb.attributes.map fun a => ⟨a.key, a.shape.content, true⟩
  | .named .warp => Place.fields
  | .invalid => [Field.plain Command.textKey]

/-- Whether the tag of a position says that it is relative. -/
def Position.taggedRelative? (value : Json) : Option Bool :=
  (value.tagged? kindKey).bind fun result => isRelative? result.1

/-- The kind of command that a tag names. -/
def CommandKind.ofTag? (tag : Json) : Option CommandKind := tag.text?.bind ofWord?

/-- The kind that the tag of a command names. -/
def Command.taggedKind? (value : Json) : Option CommandKind :=
  (value.tagged? kindKey).bind fun result => CommandKind.ofTag? result.1

/-- The fields of what a value is read as.  They depend on nothing but the tag of the value. -/
def Content.fields : Content → Json → List Field
  | command, value =>
      Field.plain Command.kindKey :: ((Command.taggedKind? value).elim [] CommandKind.fields)
  | position, value =>
      Field.plain Position.kindKey :: ((Position.taggedRelative? value).elim [] Position.fields)
  | place, _ => Place.fields
  | altitude, _ => Altitude.keys.map Field.plain
  | color, _ => Color.keys.map Field.plain
  | triple, _ => Triple.keys.map Field.plain
  | plain, _ => []

theorem CommandKind.nodup_fields (kind : CommandKind) :
    ((Field.plain Command.kindKey :: kind.fields).map Field.key).Nodup := by
  rcases kind with ⟨verb | _⟩ | _
  · cases verb <;> decide
  · decide
  · decide

/-- No two fields share a key. -/
theorem Content.nodup_fields (content : Content) (value : Json) :
    ((content.fields value).map Field.key).Nodup := by
  cases content with
  | command =>
      rw [fields]
      cases Command.taggedKind? value with
      | none => decide
      | some kind => exact kind.nodup_fields
  | position =>
      rw [fields]
      rcases Position.taggedRelative? value with _ | relative
      · decide
      · cases relative <;> decide
  | place | altitude | color | triple | plain => rw [fields]; decide

/-! ## What stands under a key -/

namespace Json

/-- The members of an object, or the items of an array under the keys in their order. -/
def entries (keys : List String) : Json → List (String × Json)
  | .object members => members
  | .array items => keys.zip items
  | _ => []

/-- What stands under the key of a field. -/
def find? (fields : List Field) (value : Json) (key : String) : Option Json :=
  (value.entries (fields.map Field.key)).lookup key

/-- Nothing, or the value that says that there is none. -/
def Unset (found : Option Json) : Prop := found = none ∨ found = some .null

/-- Two objects, or two arrays of which both or neither go on behind the last field. -/
inductive SameForm (fields : List Field) : Json → Json → Prop where
  | object (members members' : List (String × Json)) :
      SameForm fields (.object members) (.object members')
  | array {items items' : List Json}
      (h : items.length ≤ fields.length ↔ items'.length ≤ fields.length) :
      SameForm fields (.array items) (.array items')

end Json

/-- What is found under the key of a field in two values: the same, or values that are related, or
nothing in both of them. -/
inductive Field.Related (related : Content → Json → Json → Prop) (field : Field) :
    Option Json → Option Json → Prop where
  | same (found : Option Json) : Related related field found found
  | unset {found found' : Option Json} (h : field.optional = true) (hfound : Json.Unset found)
      (hfound' : Json.Unset found') : Related related field found found'
  | related {value value' : Json} (hne : value ≠ .null) (hne' : value' ≠ .null)
      (h : related field.content value value') : Related related field (some value) (some value')

theorem Field.Related.imp {related related' : Content → Json → Json → Prop} {field : Field}
    {found found' : Option Json} (h : field.Related related found found')
    (himp : ∀ value value', found = some value → related field.content value value' →
      related' field.content value value') : field.Related related' found found' := by
  cases h with
  | same => exact .same _
  | unset h hfound hfound' => exact .unset h hfound hfound'
  | related hne hne' h => exact .related hne hne' (himp _ _ rfl h)

/-- Two values that are read as the same, or neither of them as anything. -/
def Content.ReadsAlike : Content → Json → Json → Prop
  | command, value, value' => Command.ofJson? value = Command.ofJson? value'
  | place, value, value' => Place.ofJson? value = Place.ofJson? value'
  | position, value, value' => Position.ofJson? value = Position.ofJson? value'
  | altitude, value, value' => Altitude.ofJson? value = Altitude.ofJson? value'
  | color, value, value' => Color.ofJson? value = Color.ofJson? value'
  | triple, value, value' => Triple.ofJson? value = Triple.ofJson? value'
  | plain, value, value' => value = value'

/-- What is found under the keys of fields in two lists of members is read alike. -/
def AgreeOn (fields : List Field) (members members' : List (String × Json)) : Prop :=
  ∀ field ∈ fields,
    field.Related Content.ReadsAlike (members.lookup field.key) (members'.lookup field.key)

/-- The fields of two values agree. -/
structure Agree (fields : List Field) (value value' : Json) : Prop where
  form : Json.SameForm fields value value'
  entries : AgreeOn fields (value.entries (fields.map Field.key))
    (value'.entries (fields.map Field.key))

variable {fields : List Field} {members members' : List (String × Json)} {value value' : Json}
  {key : String} {content : Content} {α : Type}

/-- What stands under the key of a plain field that must be there is the same. -/
theorem Field.Related.eq_of_plain {found found' : Option Json}
    (h : Field.Related Content.ReadsAlike (.plain key) found found') : found = found' := by
  cases h with
  | same => rfl
  | unset h => cases h
  | related hne hne' h => exact congrArg some h

/-! ## Readers ask for nothing else -/

theorem Shape.ofJson?_of_readsAlike (shape : Shape) (h : shape.content.ReadsAlike value value') :
    shape.ofJson? value = shape.ofJson? value' := by
  cases shape with
  | color | triple | place => exact h
  | text | count | measure | flag => exact congrArg _ h

namespace AgreeOn

theorem required?_eq (h : AgreeOn fields members members') {read? : Json → Option α}
    (hmem : ⟨key, content, false⟩ ∈ fields)
    (hread : ∀ value value', content.ReadsAlike value value' → read? value = read? value') :
    Json.required? members key read? = Json.required? members' key read? := by
  have hfield := h _ hmem
  unfold Json.required?
  simp only at hfield
  generalize members.lookup key = found, members'.lookup key = found' at hfield
  cases hfield with
  | same => rfl
  | unset h => cases h
  | related hne hne' h => exact hread _ _ h

theorem required?_plain {keys : List String} {read? : Json → Option α}
    (h : AgreeOn (keys.map Field.plain) members members') (key : String)
    (hkey : key ∈ keys := by decide) :
    Json.required? members key read? = Json.required? members' key read? :=
  h.required?_eq (List.mem_map_of_mem hkey) fun _ _ h => congrArg read? h

theorem optional?_eq (h : AgreeOn fields members members') {read? : Json → Option α}
    (hmem : ⟨key, content, true⟩ ∈ fields)
    (hread : ∀ value value', content.ReadsAlike value value' → read? value = read? value') :
    Json.optional? members key read? = Json.optional? members' key read? := by
  have hfield := h _ hmem
  unfold Json.optional?
  simp only at hfield
  generalize members.lookup key = found, members'.lookup key = found' at hfield
  cases hfield with
  | same => rfl
  | unset h hfound hfound' => rcases hfound with rfl | rfl <;> rcases hfound' with rfl | rfl <;> rfl
  | related hne hne' h => simp [hread _ _ h]

end AgreeOn

namespace Agree

theorem membersOf?_bind (h : Agree fields value value')
    {read? : List (String × Json) → Option α}
    (hread : ∀ members members', AgreeOn fields members members' → read? members = read? members') :
    (value.membersOf? (fields.map Field.key)).bind read? =
      (value'.membersOf? (fields.map Field.key)).bind read? := by
  obtain ⟨hform, hentries⟩ := h
  cases hform with
  | object => exact hread _ _ hentries
  | @array items items' hlength =>
      simp only [Json.membersOf?, List.length_map]
      by_cases hfits : items.length ≤ fields.length
      · rw [if_pos hfits, if_pos (hlength.mp hfits)]
        exact hread _ _ hentries
      · rw [if_neg hfits, if_neg (mt hlength.mpr hfits)]

theorem members?_bind (h : Agree fields value value') {read? : List (String × Json) → Option α}
    (hread : ∀ members members', AgreeOn fields members members' → read? members = read? members') :
    value.members?.bind read? = value'.members?.bind read? := by
  obtain ⟨hform, hentries⟩ := h
  cases hform with
  | object => exact hread _ _ hentries
  | array => rfl

/-- The tags are the same, and the fields of what is read behind them agree. -/
theorem tagged? (h : Agree (.plain key :: fields) value value')
    (hkey : key ∉ fields.map Field.key) :
    value.tagged? key = none ∧ value'.tagged? key = none ∨
      ∃ tag rest rest', value.tagged? key = some (tag, rest) ∧
        value'.tagged? key = some (tag, rest') ∧ Agree fields rest rest' := by
  obtain ⟨hform, hentries⟩ := h
  have htag := (hentries _ List.mem_cons_self).eq_of_plain
  cases hform with
  | object members members' =>
      have hlookup : members.lookup key = members'.lookup key := htag
      simp only [Json.tagged?, ← hlookup]
      cases members.lookup key with
      | none => exact .inl ⟨rfl, rfl⟩
      | some tag =>
          refine .inr ⟨tag, _, _, rfl, rfl, .object _ _, ?_⟩
          exact fun field hfield => hentries field (List.mem_cons_of_mem _ hfield)
  | @array items items' hlength =>
      cases items with
      | nil =>
          cases items' with
          | nil => exact .inl ⟨rfl, rfl⟩
          | cons => simp [Json.entries, Field.plain] at htag
      | cons tag rest =>
          cases items' with
          | nil => simp [Json.entries, Field.plain] at htag
          | cons tag' rest' =>
              obtain rfl : tag = tag' := by simpa [Json.entries, Field.plain] using htag
              refine .inr ⟨tag, _, _, rfl, rfl, .array (by simpa using hlength), ?_⟩
              intro field hfield
              have hne : field.key ≠ key := by
                rintro rfl
                exact hkey (List.mem_map_of_mem hfield)
              have hagree := hentries field (List.mem_cons_of_mem _ hfield)
              simpa [Json.entries, Field.plain, List.lookup_cons, beq_false_of_ne hne] using hagree

end Agree

/-! ## Contents -/

theorem Color.ofJson?_of_agree (h : Agree (keys.map Field.plain) value value') :
    ofJson? value = ofJson? value' := by
  refine h.membersOf?_bind fun members members' hagree => ?_
  rw [hagree.required?_plain "r", hagree.required?_plain "g", hagree.required?_plain "b"]

theorem Triple.ofJson?_of_agree (h : Agree (keys.map Field.plain) value value') :
    ofJson? value = ofJson? value' := by
  refine h.membersOf?_bind fun members members' hagree => ?_
  rw [hagree.required?_plain "x", hagree.required?_plain "y", hagree.required?_plain "z"]

theorem Altitude.ofJson?_of_agree (h : Agree (keys.map Field.plain) value value') :
    ofJson? value = ofJson? value' := by
  refine h.membersOf?_bind fun members members' hagree => ?_
  rw [hagree.required?_plain "altitudeType", hagree.required?_plain "value"]

theorem Place.ofMembers?_of_agreeOn (h : AgreeOn Place.fields members members') :
    ofMembers? members = ofMembers? members' := by
  have hposition : Json.required? members "coordinates" Position.ofJson? =
      Json.required? members' "coordinates" Position.ofJson? :=
    h.required?_eq List.mem_cons_self fun _ _ h => h
  have haltitude : Json.optional? members "altitude" Altitude.ofJson? =
      Json.optional? members' "altitude" Altitude.ofJson? :=
    h.optional?_eq (List.mem_cons_of_mem _ List.mem_cons_self) fun _ _ h => h
  have hdirection : Json.optional? members "direction" Json.uint32? =
      Json.optional? members' "direction" Json.uint32? :=
    h.optional?_eq (List.mem_cons_of_mem _ (List.mem_cons_of_mem _ List.mem_cons_self))
      fun _ _ h => congrArg Json.uint32? h
  rw [ofMembers?, ofMembers?, hposition, haltitude, hdirection]

theorem Record.ofMembers?_of_agreeOn {allowed : List Attribute}
    (h : AgreeOn (allowed.map fun a => ⟨a.key, a.shape.content, true⟩) members members') :
    (ofMembers? members : Option (Record allowed)) = ofMembers? members' := by
  have hvalue : ∀ a ∈ allowed, memberValue? members a = memberValue? members' a :=
    fun a ha => h.optional?_eq (List.mem_map_of_mem ha) fun _ _ => a.shape.ofJson?_of_readsAlike
  have hall : (allowed.all fun a => (memberValue? members a).isSome) =
      allowed.all fun a => (memberValue? members' a).isSome := by
    rw [Bool.eq_iff_iff, List.all_eq_true, List.all_eq_true]
    exact forall₂_congr fun a ha => by rw [hvalue a ha]
  rw [ofMembers?, ofMembers?, hall]
  split
  · rw [Option.some.injEq, eq_iff_forall_mem]
    intro a ha
    simp only [if_pos ha, hvalue a ha]
  · rfl

theorem Position.ofJson?_of_agree
    (h : Agree (Content.fields .position value) value value') : ofJson? value = ofJson? value' := by
  have hkey : kindKey ∉ ((taggedRelative? value).elim [] fields).map Field.key :=
    (List.nodup_cons.mp (Content.nodup_fields .position value)).1
  rcases h.tagged? hkey with ⟨hnone, hnone'⟩ | ⟨tag, rest, rest', htag, htag', hagree⟩
  · rw [ofJson?, ofJson?, hnone, hnone']
  · rw [taggedRelative?, htag, Option.bind_some] at hagree
    rw [ofJson?, ofJson?, htag, htag']
    show (isRelative? tag).bind _ = (isRelative? tag).bind _
    cases hkind : isRelative? tag with
    | none => rfl
    | some relative =>
        rw [hkind] at hagree
        cases relative with
        | true =>
            refine hagree.membersOf?_bind fun members members' hagree => ?_
            rw [hagree.required?_plain "x", hagree.required?_plain "y"]
        | false =>
            refine hagree.membersOf?_bind fun members members' hagree => ?_
            rw [hagree.required?_plain "ns", hagree.required?_plain "ew"]

namespace Command

theorem ofRest?_of_agree {kind : CommandKind} (h : Agree kind.fields value value') :
    ofRest? kind value = ofRest? kind value' := by
  rcases kind with ⟨verb | _⟩ | _
  · have hkeys : Record.keys verb.attributes =
        (CommandKind.named (.verb verb)).fields.map Field.key := by
      rw [CommandKind.fields, List.map_map]
      rfl
    rw [ofRest?, ofRest?, hkeys]
    refine h.membersOf?_bind fun members members' hagree => ?_
    rw [Record.ofMembers?_of_agreeOn hagree]
  · refine h.members?_bind fun members members' hagree => ?_
    rw [Place.ofMembers?_of_agreeOn hagree]
  · refine h.membersOf?_bind fun members members' hagree => ?_
    have htext : Json.required? members textKey Json.text? =
        Json.required? members' textKey Json.text? :=
      hagree.required?_eq List.mem_cons_self fun _ _ h => congrArg _ h
    rw [htext]

theorem ofJson?_of_agree (h : Agree (Content.fields .command value) value value') :
    ofJson? value = ofJson? value' := by
  have hkey : kindKey ∉ ((taggedKind? value).elim [] CommandKind.fields).map Field.key :=
    (List.nodup_cons.mp (Content.nodup_fields .command value)).1
  rcases h.tagged? hkey with ⟨hnone, hnone'⟩ | ⟨tag, rest, rest', htag, htag', hagree⟩
  · rw [ofJson?, ofJson?, hnone, hnone']
  · rw [taggedKind?, htag, Option.bind_some] at hagree
    have hread (rest : Json) : (do
        let word ← tag.text?
        let kind ← CommandKind.ofWord? word
        ofRest? kind rest) = (CommandKind.ofTag? tag).bind fun kind => ofRest? kind rest := by
      rw [CommandKind.ofTag?, Option.bind_assoc]
      rfl
    rw [ofJson?, ofJson?, htag, htag']
    refine (hread rest).trans (Eq.trans ?_ (hread rest').symm)
    cases hkind : CommandKind.ofTag? tag with
    | none => rfl
    | some kind =>
        rw [hkind] at hagree
        exact ofRest?_of_agree hagree

end Command

/-- **Fields decide.**  Values whose fields agree are read alike. -/
theorem Content.readsAlike_of_agree (hcontent : content ≠ .plain)
    (h : Agree (content.fields value) value value') : content.ReadsAlike value value' := by
  cases content with
  | command => exact Command.ofJson?_of_agree h
  | place => exact h.membersOf?_bind fun _ _ => Place.ofMembers?_of_agreeOn
  | position => exact Position.ofJson?_of_agree h
  | altitude => exact Altitude.ofJson?_of_agree h
  | color => exact Color.ofJson?_of_agree h
  | triple => exact Triple.ofJson?_of_agree h
  | plain => exact absurd rfl hcontent

end ObjectActions
