import Mathlib.Logic.Relation
import ObjectActions.Proofs.Command.Fields

/-!
# How a command may be presented

A value can be edited in many ways without being read as another command:

```text
reorder                    the members of an object in another order
add, replace               anything under a key that means nothing in its object
giveNull, leaveOut         `null` for an optional field that is missing, and the other way round
giveNullItem, leaveOutItem the same behind the last item of an array
member, item               any of these in what stands under the key of a field
```

What a key means depends on the object it stands in, and for commands and positions on the tag of
this object, wherever the tag stands.  An edit leaves the tag alone, so it leaves the fields alone,
and it changes what is found under one of them at most (`Edit.effect`).  By induction over the value
this is read as before (`Orderly.edit`).

Keys must not be repeated, for then the order of members would matter.

* `Command.ofJson?_of_edits`: the statement for any number of edits;
* `Command.ofJson?_namedWarp`: plain values are not edited for a reason.
-/

namespace ObjectActions

variable {content : Content} {value value' : Json} {key : String}

namespace Json

/-- What stands under the key of a field in an array stands at the place of the field. -/
theorem find?_array {fields : List Field} (hnodup : (fields.map Field.key).Nodup) {i : Nat}
    {field : Field} (h : fields[i]? = some field) (items : List Json) :
    (Json.array items).find? fields field.key = items[i]? :=
  lookup_zip hnodup (by rw [List.getElem?_map, h, Option.map_some]) items

end Json

open Json

/-! ## Edits -/

/-- One edit of a value, given what it is read as.  A plain value is not edited, even if it is an
object: the only key of such an object is a name. -/
inductive Edit : Content → Json → Json → Prop where
  /-- The members of an object are put in another order. -/
  | reorder {content : Content} {members members' : List (String × Json)}
      (hcontent : content ≠ .plain) (h : members.Perm members') :
      Edit content (.object members) (.object members')
  /-- A member is added under a key that means nothing. -/
  | add {content : Content} {before after : List (String × Json)} {key : String}
      (hcontent : content ≠ .plain)
      (hkey : key ∉ (content.fields (.object (before ++ after))).map Field.key) (value : Json) :
      Edit content (.object (before ++ after)) (.object (before ++ (key, value) :: after))
  /-- Something else is put under a key that means nothing. -/
  | replace {content : Content} {before after : List (String × Json)} {key : String} {value : Json}
      (hcontent : content ≠ .plain)
      (hkey : key ∉ (content.fields (.object (before ++ (key, value) :: after))).map Field.key)
      (value' : Json) :
      Edit content (.object (before ++ (key, value) :: after))
        (.object (before ++ (key, value') :: after))
  /-- An optional field that is missing is given as `null`. -/
  | giveNull {content : Content} {before after : List (String × Json)} {field : Field}
      (hfield : field ∈ content.fields (.object (before ++ after))) (hoptional : field.optional)
      (hkey : field.key ∉ (before ++ after).map Prod.fst) :
      Edit content (.object (before ++ after)) (.object (before ++ (field.key, .null) :: after))
  /-- An optional field that is `null` is left out. -/
  | leaveOut {content : Content} {before after : List (String × Json)} {field : Field}
      (hfield : field ∈ content.fields (.object (before ++ (field.key, .null) :: after)))
      (hoptional : field.optional) :
      Edit content (.object (before ++ (field.key, .null) :: after)) (.object (before ++ after))
  /-- An optional field behind the last item of an array is given as `null`. -/
  | giveNullItem {content : Content} {items : List Json} {field : Field}
      (hfield : (content.fields (.array items))[items.length]? = some field)
      (hoptional : field.optional) : Edit content (.array items) (.array (items ++ [.null]))
  /-- An optional field that is `null` and the last item of an array is left out. -/
  | leaveOutItem {content : Content} {items : List Json} {field : Field}
      (hfield : (content.fields (.array (items ++ [.null])))[items.length]? = some field)
      (hoptional : field.optional) : Edit content (.array (items ++ [.null])) (.array items)
  /-- What is found under the key of a field is changed. -/
  | member {content : Content} {before after : List (String × Json)} {field : Field}
      {value value' : Json}
      (hfield : field ∈ content.fields (.object (before ++ (field.key, value) :: after)))
      (h : Edit field.content value value') :
      Edit content (.object (before ++ (field.key, value) :: after))
        (.object (before ++ (field.key, value') :: after))
  /-- An item of an array is changed. -/
  | item {content : Content} {items : List Json} {i : Nat} {field : Field} {value value' : Json}
      (hfield : (content.fields (.array items))[i]? = some field) (hitem : items[i]? = some value)
      (h : Edit field.content value value') :
      Edit content (.array items) (.array (items.set i value'))

namespace Edit

/-- Plain values are not edited. -/
theorem content_ne_plain (h : Edit content value value') : content ≠ .plain := by
  rintro rfl
  cases h with
  | reorder hcontent | add hcontent | replace hcontent => exact hcontent rfl
  | giveNull hfield | leaveOut hfield | member hfield => cases hfield
  | giveNullItem hfield | leaveOutItem hfield | item hfield => cases hfield

theorem ne_null (h : Edit content value value') : value ≠ .null ∧ value' ≠ .null := by
  cases h <;> exact ⟨nofun, nofun⟩

end Edit

/-! ## What an edit does to the fields -/

section Members

variable {before after : List (String × Json)} {fields : List Field} {field changed : Field}
  {other : String} {related : Content → Json → Json → Prop}

theorem Field.key_ne_of_notMem (hkey : key ∉ fields.map Field.key) (hfield : field ∈ fields) :
    key ≠ field.key :=
  fun heq => hkey (List.mem_map.mpr ⟨field, hfield, heq.symm⟩)

theorem single_append_cons_of_ne (h : other ≠ key) (value : Json) :
    (Json.object (before ++ (other, value) :: after)).Single key ↔
      (Json.object (before ++ after)).Single key := by
  rw [Single, Single, count_keys_append_cons, if_neg h, Nat.add_zero]

theorem single_append_cons_self :
    (Json.object (before ++ (key, value) :: after)).Single key ↔
      key ∉ (before ++ after).map Prod.fst := by
  rw [Single, count_keys_append_cons, if_pos rfl, ← List.count_eq_zero]
  omega

theorem single_append_cons_of_notMem (h : other ∉ (before ++ after).map Prod.fst) (value : Json) :
    (Json.object (before ++ (other, value) :: after)).Single key ↔
      (Json.object (before ++ after)).Single key := by
  by_cases heq : other = key
  · subst heq
    rw [single_append_cons_self, Single, List.count_eq_zero.mpr h]
    simp only [h, not_false_eq_true, Nat.zero_le]
  · exact single_append_cons_of_ne heq value

theorem single_append_cons_congr (value value' : Json) :
    (Json.object (before ++ (other, value) :: after)).Single key ↔
      (Json.object (before ++ (other, value') :: after)).Single key := by
  simp only [Single, count_keys_append_cons]

theorem find?_append_cons_of_ne (h : other ≠ key) (value : Json) :
    (Json.object (before ++ (other, value) :: after)).find? fields key =
      (Json.object (before ++ after)).find? fields key :=
  lookup_append_cons_of_ne h.symm before after value

theorem find?_append_cons_self (h : key ∉ (before ++ after).map Prod.fst) (value : Json) :
    (Json.object (before ++ (key, value) :: after)).find? fields key = some value :=
  lookup_of_notMem h value

theorem find?_of_notMem (h : key ∉ (before ++ after).map Prod.fst) :
    (Json.object (before ++ after)).find? fields key = none :=
  lookup_eq_none_iff_notMem.mpr h

/-- It makes no difference whether an optional field is `null` or missing. -/
theorem related_null_member (hnodup : (fields.map Field.key).Nodup) (hchanged : changed ∈ fields)
    (hoptional : changed.optional = true) (hkey : changed.key ∉ (before ++ after).map Prod.fst)
    (hfield : field ∈ fields) :
    field.Related related ((Json.object (before ++ after)).find? fields field.key)
        ((Json.object (before ++ (changed.key, .null) :: after)).find? fields field.key) ∧
      field.Related related
        ((Json.object (before ++ (changed.key, .null) :: after)).find? fields field.key)
        ((Json.object (before ++ after)).find? fields field.key) := by
  by_cases heq : changed.key = field.key
  · obtain rfl := List.inj_on_of_nodup_map hnodup hchanged hfield heq
    rw [find?_of_notMem hkey, find?_append_cons_self hkey]
    exact ⟨.unset hoptional (.inl rfl) (.inr rfl), .unset hoptional (.inr rfl) (.inl rfl)⟩
  · rw [find?_append_cons_of_ne heq]
    exact ⟨.same _, .same _⟩

end Members

section Items

variable {items : List Json} {fields : List Field} {field changed : Field}
  {related : Content → Json → Json → Prop}

/-- Adding an item to an array changes nothing at the other places. -/
theorem getElem?_concat_of_ne {α : Type} {items : List α} {i : Nat} (h : i ≠ items.length)
    (item : α) : (items ++ [item])[i]? = items[i]? := by
  rcases Nat.lt_or_gt_of_ne h with hlt | hgt
  · exact List.getElem?_append_left hlt
  · rw [List.getElem?_eq_none (by simpa using Nat.succ_le_of_lt hgt),
      List.getElem?_eq_none (Nat.le_of_lt hgt)]

/-- An array that ends before the last field does so with one more item. -/
theorem length_concat_le_iff {n : Nat} (h : items.length < n) (item : Json) :
    (items ++ [item]).length ≤ n ↔ items.length ≤ n := by
  rw [List.length_append, List.length_singleton]
  omega

/-- It makes no difference whether an optional field is `null` or behind the end of an array. -/
theorem related_null_item (hnodup : (fields.map Field.key).Nodup)
    (hchanged : fields[items.length]? = some changed) (hoptional : changed.optional = true)
    (hfield : field ∈ fields) :
    field.Related related ((Json.array items).find? fields field.key)
        ((Json.array (items ++ [.null])).find? fields field.key) ∧
      field.Related related ((Json.array (items ++ [.null])).find? fields field.key)
        ((Json.array items).find? fields field.key) := by
  obtain ⟨i, hi⟩ := List.mem_iff_getElem?.mp hfield
  rw [find?_array hnodup hi, find?_array hnodup hi]
  by_cases heq : i = items.length
  · subst heq
    obtain rfl := Option.some.inj (hchanged.symm.trans hi)
    rw [List.getElem?_concat_length, List.getElem?_eq_none (Nat.le_refl _)]
    exact ⟨.unset hoptional (.inl rfl) (.inr rfl), .unset hoptional (.inr rfl) (.inl rfl)⟩
  · rw [getElem?_concat_of_ne heq]
    exact ⟨.same _, .same _⟩

end Items

/-- What an edit does to the fields of a value: it changes what is found under one of the keys, and
makes no key appear twice. -/
structure Effect (content : Content) (value value' : Json) : Prop where
  form : SameForm (content.fields value) value value'
  single : ∀ field ∈ content.fields value, value'.Single field.key
  related : ∀ field ∈ content.fields value,
    field.Related Edit (value.find? (content.fields value) field.key)
      (value'.find? (content.fields value) field.key)

theorem Edit.effect (h : Edit content value value')
    (hsingle : ∀ field ∈ content.fields value, value.Single field.key) :
    Effect content value value' := by
  have hnodup := content.nodup_fields value
  cases h with
  | @reorder _ members members' hcontent h =>
      refine ⟨.object _ _, fun field hfield => ?_, fun field hfield => ?_⟩
      · have hcount := hsingle field hfield
        rwa [Single, (h.map Prod.fst).count_eq field.key] at hcount
      · have hlookup := lookup_of_perm h (hsingle field hfield)
        rw [find?, find?, entries, entries, hlookup]
        exact .same _
  | add hcontent hkey value =>
      refine ⟨.object _ _, fun field hfield => ?_, fun field hfield => ?_⟩
      · have hne := Field.key_ne_of_notMem hkey hfield
        exact (single_append_cons_of_ne hne value).mpr (hsingle field hfield)
      · rw [find?_append_cons_of_ne (Field.key_ne_of_notMem hkey hfield)]
        exact .same _
  | replace hcontent hkey value' =>
      refine ⟨.object _ _, fun field hfield => ?_, fun field hfield => ?_⟩
      · exact (single_append_cons_congr _ value').mp (hsingle field hfield)
      · have hne := Field.key_ne_of_notMem hkey hfield
        rw [find?_append_cons_of_ne hne, find?_append_cons_of_ne hne]
        exact .same _
  | giveNull hchanged hoptional hkey =>
      refine ⟨.object _ _, fun field hfield => ?_, fun field hfield => ?_⟩
      · exact (single_append_cons_of_notMem hkey _).mpr (hsingle field hfield)
      · exact (related_null_member hnodup hchanged hoptional hkey hfield).1
  | leaveOut hchanged hoptional =>
      have hkey := single_append_cons_self.mp (hsingle _ hchanged)
      refine ⟨.object _ _, fun field hfield => ?_, fun field hfield => ?_⟩
      · exact (single_append_cons_of_notMem hkey _).mp (hsingle field hfield)
      · exact (related_null_member hnodup hchanged hoptional hkey hfield).2
  | @member _ before after changed value value' hchanged h =>
      have hkey := single_append_cons_self.mp (hsingle changed hchanged)
      refine ⟨.object _ _, fun field hfield => ?_, fun field hfield => ?_⟩
      · exact (single_append_cons_congr value value').mp (hsingle field hfield)
      · by_cases heq : changed.key = field.key
        · obtain rfl := List.inj_on_of_nodup_map hnodup hchanged hfield heq
          rw [find?_append_cons_self hkey, find?_append_cons_self hkey]
          exact .related h.ne_null.1 h.ne_null.2 h
        · rw [find?_append_cons_of_ne heq, find?_append_cons_of_ne heq]
          exact .same _
  | giveNullItem hchanged hoptional =>
      have hlength := length_concat_le_iff (List.getElem?_eq_some_iff.mp hchanged).1 .null
      exact ⟨.array hlength.symm, fun _ _ => trivial,
        fun _ hfield => (related_null_item hnodup hchanged hoptional hfield).1⟩
  | leaveOutItem hchanged hoptional =>
      have hlength := length_concat_le_iff (List.getElem?_eq_some_iff.mp hchanged).1 .null
      exact ⟨.array hlength, fun _ _ => trivial,
        fun _ hfield => (related_null_item hnodup hchanged hoptional hfield).2⟩
  | @item _ items place changed value value' hchanged hitem h =>
      refine ⟨.array (by rw [List.length_set]), fun _ _ => trivial, fun field hfield => ?_⟩
      obtain ⟨i, hi⟩ := List.mem_iff_getElem?.mp hfield
      rw [find?_array hnodup hi, find?_array hnodup hi]
      by_cases heq : place = i
      · subst heq
        obtain rfl := Option.some.inj (hchanged.symm.trans hi)
        rw [hitem, List.getElem?_set_self (List.getElem?_eq_some_iff.mp hitem).1]
        exact .related h.ne_null.1 h.ne_null.2 h
      · rw [List.getElem?_set_ne heq]
        exact .same _

/-! ## Values without repeated keys -/

/-- At every level of a value no field that is looked for is there twice. -/
inductive Orderly : Content → Json → Prop where
  | intro {content : Content} {value : Json}
      (hsingle : ∀ field ∈ content.fields value, value.Single field.key)
      (hfound : ∀ field ∈ content.fields value, ∀ found,
        value.find? (content.fields value) field.key = some found →
          Orderly field.content found) : Orderly content value

theorem orderly_null (content : Content) : Orderly content .null :=
  .intro (fun _ _ => trivial) fun _ _ _ h => by cases h

theorem Json.DistinctKeys.single (h : value.DistinctKeys) (key : String) : value.Single key := by
  cases h with
  | object hnodup h => exact List.nodup_iff_count_le_one.mp hnodup key
  | _ => trivial

theorem orderly_of_distinctKeys (h : value.DistinctKeys) (content : Content) :
    Orderly content value := by
  have hsingle := fun key => h.single key
  induction h generalizing content with
  | @object members hnodup h ih =>
      refine .intro (fun field _ => hsingle field.key) fun field _ found hfound => ?_
      obtain ⟨before, after, rfl, -⟩ := List.lookup_eq_some_iff.mp hfound
      have hmem : (field.key, found) ∈ before ++ (field.key, found) :: after := by simp
      exact ih _ hmem field.content (h _ hmem).single
  | @array items h ih =>
      refine .intro (fun field _ => trivial) fun field _ found hfound => ?_
      obtain ⟨before, after, hzip, -⟩ := List.lookup_eq_some_iff.mp hfound
      have hmem : (field.key, found) ∈ before ++ (field.key, found) :: after := by simp
      have hitem := (List.of_mem_zip (hzip ▸ hmem)).2
      exact ih _ hitem field.content (h _ hitem).single
  | _ => exact .intro (fun _ _ => trivial) fun _ _ _ h => by cases h

/-- The tag is the first of the fields. -/
theorem Json.map_fst_tagged? (value : Json) (key : String) (fields : List Field) :
    (value.tagged? key).map Prod.fst = value.find? (.plain key :: fields) key := by
  cases value with
  | object members =>
      rw [tagged?, Option.map_map]
      exact Option.map_id'
  | array items =>
      cases items with
      | nil => rfl
      | cons tag rest => simp [tagged?, find?, entries, Field.plain]
  | _ => rfl

/-- An edit leaves the tag alone. -/
theorem Effect.tagged?_eq (h : Effect content value value') {fields : List Field}
    (hfields : content.fields value = .plain key :: fields) :
    (value'.tagged? key).map Prod.fst = (value.tagged? key).map Prod.fst := by
  rw [map_fst_tagged? value' key fields, map_fst_tagged? value key fields, ← hfields]
  have hmem : Field.plain key ∈ content.fields value := hfields ▸ List.mem_cons_self
  have hrelated : Field.Related Edit (.plain key) (value.find? (content.fields value) key)
      (value'.find? (content.fields value) key) := h.related _ hmem
  generalize value.find? (content.fields value) key = found,
    value'.find? (content.fields value) key = found' at hrelated
  cases hrelated with
  | same => rfl
  | unset h => cases h
  | related hne hne' h => exact absurd rfl h.content_ne_plain

/-- The fields stay the same, since they depend on nothing but the tag. -/
theorem Effect.fields_eq (h : Effect content value value') :
    content.fields value' = content.fields value := by
  cases content with
  | command =>
      have hkind (value : Json) : Command.taggedKind? value =
          ((value.tagged? Command.kindKey).map Prod.fst).bind CommandKind.ofTag? := by
        rw [Command.taggedKind?, Option.bind_map]
        rfl
      rw [Content.fields, Content.fields, hkind, hkind, h.tagged?_eq rfl]
  | position =>
      have hkind (value : Json) : Position.taggedRelative? value =
          ((value.tagged? Position.kindKey).map Prod.fst).bind Position.isRelative? := by
        rw [Position.taggedRelative?, Option.bind_map]
        rfl
      rw [Content.fields, Content.fields, hkind, hkind, h.tagged?_eq rfl]
  | place | altitude | color | triple | plain => rfl

/-- One edit leaves what is read alone. -/
theorem Orderly.edit (h : Orderly content value) (hedit : Edit content value value') :
    content.ReadsAlike value value' ∧ Orderly content value' := by
  induction h generalizing value' with
  | @intro content value hsingle hfound ih =>
      have heffect := hedit.effect hsingle
      have hfields := heffect.fields_eq
      constructor
      · refine Content.readsAlike_of_agree hedit.content_ne_plain
          ⟨heffect.form, fun field hfield => ?_⟩
        exact (heffect.related field hfield).imp fun found found' hfound hchange =>
          (ih field hfield found hfound hchange).1
      · refine .intro (hfields ▸ heffect.single) ?_
        rw [hfields]
        intro field hfield found' hfound'
        have hrelated := heffect.related field hfield
        rw [hfound'] at hrelated
        generalize hbefore : value.find? (content.fields value) field.key = found at hrelated
        cases hrelated with
        | same => exact hfound field hfield found' hbefore
        | unset _ _ hunset =>
            obtain rfl : found' = .null := by simpa [Unset] using hunset
            exact orderly_null _
        | related _ _ hchange => exact (ih field hfield _ hbefore hchange).2

/-! ## Any number of edits -/

theorem Orderly.edits (h : Orderly .command value)
    (hedits : Relation.ReflTransGen (Edit .command) value value') :
    Command.ofJson? value = Command.ofJson? value' ∧ Orderly .command value' := by
  induction hedits with
  | refl => exact ⟨rfl, h⟩
  | tail _ hedit ih =>
      obtain ⟨hread, horderly⟩ := ih
      obtain ⟨hread', horderly'⟩ := horderly.edit hedit
      exact ⟨hread.trans hread', horderly'⟩

namespace Command

/-- **Presentation.**  A value that is read as a command and in which no key is repeated is still
read as this command after any number of edits. -/
theorem ofJson?_of_edits {command : Command} (hkeys : value.DistinctKeys)
    (hread : ofJson? value = some command)
    (hedits : Relation.ReflTransGen (Edit .command) value value') :
    ofJson? value' = some command :=
  ((orderly_of_distinctKeys hkeys .command).edits hedits).1 ▸ hread

/-- A warp with a note, an altitude given as an array, and a position with some more members. -/
def warpMembers (more : List (String × Json)) : List (String × Json) :=
  [("note", .object [("by", .text "me"), ("on", .null)]),
    ("altitude", .array [.text "relative", .integer 3]),
    ("coordinates",
      .object ([("y", .integer 2)] ++ more ++
        [("x", .integer 1), (Position.kindKey, .text "relative")])),
    (kindKey, .text "warp")]

/-- A warp with its tag behind everything else, and a direction that is unset. -/
def untidyWarp : Json := .object (("direction", .null) :: warpMembers [])

theorem distinctKeys_untidyWarp : untidyWarp.DistinctKeys := by
  refine .object (by decide) ?_
  simp only [warpMembers, List.forall_mem_cons, List.not_mem_nil, IsEmpty.forall_iff, implies_true,
    and_true]
  refine ⟨.null, .object (by decide) ?_, .array ?_, .object (by decide) ?_, .text _⟩ <;>
    simp only [List.forall_mem_cons, List.cons_append, List.nil_append, List.not_mem_nil,
      IsEmpty.forall_iff, implies_true, and_true]
  · exact ⟨.text _, .null⟩
  · exact ⟨.text _, .integer _⟩
  · exact ⟨.integer _, .integer _, .text _⟩

/-- Something is added to the position, the direction is left out, and the tag is put in front. -/
theorem ofJson?_untidyWarp_edited :
    untidyWarp.DistinctKeys ∧
      Relation.ReflTransGen (Edit .command) untidyWarp
        (.object (warpMembers [("ns", .flag true)]).reverse) ∧
      ofJson? (.object (warpMembers [("ns", .flag true)]).reverse) =
        some (.warp ⟨.relative (.ofInt 1) (.ofInt 2), some ⟨true, .ofInt 3⟩, none⟩) := by
  have hadd : Edit .position
      (.object ([("y", .integer 2)] ++
        [("x", .integer 1), (Position.kindKey, .text "relative")]))
      (.object ([("y", .integer 2)] ++
        ("ns", .flag true) :: [("x", .integer 1), (Position.kindKey, .text "relative")])) :=
    .add (by decide) (by decide +kernel) _
  have hposition := @Edit.member .command (("direction", .null) :: (warpMembers []).take 2)
    ((warpMembers []).drop 3) ⟨"coordinates", .position, false⟩ _ _ (by decide +kernel) hadd
  have hdirection := @Edit.leaveOut .command [] (warpMembers [("ns", .flag true)])
    ⟨"direction", .plain, true⟩ (by decide +kernel) rfl
  have horder := @Edit.reorder .command _ _ (by decide)
    (List.reverse_perm (warpMembers [("ns", .flag true)])).symm
  have hedits : Relation.ReflTransGen (Edit .command) untidyWarp
      (.object (warpMembers [("ns", .flag true)]).reverse) :=
    .tail (.tail (.tail .refl hposition) hdirection) horder
  exact ⟨distinctKeys_untidyWarp, hedits,
    ofJson?_of_edits distinctKeys_untidyWarp (by decide +kernel) hedits⟩

/-! ## Names with members -/

/-- A warp with members in place of the name of the altitude's type. -/
def namedWarp (altitudeType : List (String × Json)) : Json :=
  .object [(kindKey, .text "warp"),
    ("coordinates",
      .object [(Position.kindKey, .text "relative"), ("x", .integer 1), ("y", .integer 2)]),
    ("altitude", .object [("altitudeType", .object altitudeType), ("value", .integer 3)])]

/-- An object in place of the name of an altitude's type cannot be given another member. -/
theorem ofJson?_namedWarp :
    (namedWarp [("absolute", .null)]).DistinctKeys ∧
      ofJson? (namedWarp [("absolute", .null)]) =
        some (.warp ⟨.relative (.ofInt 1) (.ofInt 2), some ⟨false, .ofInt 3⟩, none⟩) ∧
      ofJson? (namedWarp [("absolute", .null), ("grade", .integer 1)]) = none := by
  refine ⟨.object (by decide) ?_, by decide +kernel, by decide +kernel⟩
  simp only [List.forall_mem_cons, List.not_mem_nil, IsEmpty.forall_iff, implies_true, and_true]
  refine ⟨.text _, .object (by decide) ?_, .object (by decide) ?_⟩ <;>
    simp only [List.forall_mem_cons, List.not_mem_nil, IsEmpty.forall_iff, implies_true, and_true]
  · exact ⟨.text _, .integer _, .integer _⟩
  · refine ⟨.object (by decide) ?_, .integer _⟩
    simpa using .null

end Command

end ObjectActions
