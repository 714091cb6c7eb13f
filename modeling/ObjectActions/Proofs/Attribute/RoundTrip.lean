import ObjectActions.Attribute.Record

/-!
# Attributes that are read back

An attribute is written as a member of an object and read from the members of an object again.
What is written reads back as the same value exactly if it holds no infinite number
(`Shape.optional?_toJson_iff`): a number by itself would read as unset, and a part of a larger
value that is `null` is refused.  `Record.ofMembers?_eq_some_iff` says the same of records.

Nothing of this depends on the place of a member: only what is found under a key matters, so
each statement is about any members in which the right things are found.
-/

namespace ObjectActions

variable {members : List (String × Json)}

/-! ## Members -/

namespace Json

variable {α : Type} {key : String} {read? : Json → Option α} {value : Json}

theorem required?_of_lookup (h : members.lookup key = some value) :
    required? members key read? = read? value := by
  rw [required?, h, Option.bind_some]

theorem optional?_of_lookup_none (h : members.lookup key = none) :
    optional? members key read? = some none := by
  rw [optional?, h]

theorem optional?_of_lookup_null (h : members.lookup key = some .null) :
    optional? members key read? = some none := by
  rw [optional?, h]

theorem optional?_of_lookup_some (h : members.lookup key = some value) (hne : value ≠ .null) :
    optional? members key read? = (read? value).map some := by
  unfold optional?
  rw [h]
  split
  · next hnone => cases hnone
  · next hnull => exact absurd (Option.some.inj hnull) hne
  · next hsome => rw [Option.some.inj hsome]

/-- What is found under a key in the members of an optional value. -/
theorem lookup_optionalMember {write : α → Json} (key' : String) (value : Option α) :
    (optionalMember key write value).lookup key' =
      if key' = key then value.map write else none := by
  cases value with
  | none => simp [optionalMember]
  | some v =>
      by_cases h : key' = key
      · simp [optionalMember, h]
      · simp [optionalMember, List.lookup_cons, h, beq_false_of_ne h]

end Json

/-! ## Values -/

/-- A triple reads back as itself if it holds no infinite number, and as nothing otherwise. -/
theorem Triple.ofJson?_toJson_eq (triple : Triple) :
    ofJson? triple.toJson = if triple.isFinite then some triple else none := by
  cases hx : triple.x.isFinite <;> cases hy : triple.y.isFinite <;>
    cases hz : triple.z.isFinite <;>
    simp [ofJson?, toJson, isFinite, Json.membersOf?, Json.required?, List.lookup_cons,
      Json.binary64?_ofBinary64_eq, hx, hy, hz]

/-- A position reads back as itself if it holds no infinite number, and as nothing otherwise. -/
theorem Position.ofJson?_toJson_eq (position : Position) :
    ofJson? position.toJson = if position.isFinite then some position else none := by
  rcases position with ⟨first, second⟩ | ⟨first, second⟩ <;>
    cases hfirst : first.isFinite <;> cases hsecond : second.isFinite <;>
    simp [ofJson?, toJson, isFinite, kindKey, isRelative?, Json.tagged?, Json.membersOf?,
      Json.required?, List.lookup_cons, Json.binary64?_ofBinary64_eq, hfirst, hsecond]

/-- An altitude reads back as itself if it is not infinite, and as nothing otherwise. -/
theorem Altitude.ofJson?_toJson_eq (altitude : Altitude) :
    ofJson? altitude.toJson = if altitude.value.isFinite then some altitude else none := by
  rcases altitude with ⟨relative, value⟩
  cases relative <;> cases hvalue : value.isFinite <;>
    simp [ofJson?, toJson, Json.membersOf?, Json.required?, List.lookup_cons, Json.name?,
      Json.binary64?_ofBinary64_eq, hvalue]

namespace Place

/-- What a place is read from is what stands under its keys. -/
theorem ofMembers?_congr {members' : List (String × Json)}
    (h : ∀ key ∈ keys, members.lookup key = members'.lookup key) :
    ofMembers? members = ofMembers? members' := by
  have hposition := h "coordinates" (by decide)
  have haltitude := h "altitude" (by decide)
  have hdirection := h "direction" (by decide)
  unfold ofMembers? Json.required? Json.optional?
  rw [hposition, haltitude, hdirection]

variable (place : Place)

/-- What a place has under its keys. -/
theorem lookup_members :
    place.members.lookup "coordinates" = some place.position.toJson ∧
    place.members.lookup "altitude" = place.altitude.map Altitude.toJson ∧
    place.members.lookup "direction" = place.direction.map Json.ofUInt32 := by
  refine ⟨rfl, ?_, ?_⟩ <;>
    simp [members, List.lookup_cons, List.lookup_append, Json.lookup_optionalMember]

/-- A place reads back as itself if it holds no infinite number, and as nothing otherwise. -/
theorem ofMembers?_members :
    ofMembers? place.members = if place.isFinite then some place else none := by
  obtain ⟨hposition, haltitude, hdirection⟩ := place.lookup_members
  have hdirection' : Json.optional? place.members "direction" Json.uint32? =
      some place.direction := by
    cases h : place.direction with
    | none => exact Json.optional?_of_lookup_none (by rw [hdirection, h, Option.map_none])
    | some direction =>
        rw [Json.optional?_of_lookup_some (by rw [hdirection, h]; rfl) (by simp [Json.ofUInt32])]
        simp
  have haltitude' : Json.optional? place.members "altitude" Altitude.ofJson? =
      if place.altitude.all (·.value.isFinite) then some place.altitude else none := by
    cases h : place.altitude with
    | none => exact Json.optional?_of_lookup_none (by rw [haltitude, h, Option.map_none])
    | some altitude =>
        rw [Json.optional?_of_lookup_some (by rw [haltitude, h]; rfl) (by simp [Altitude.toJson]),
          Altitude.ofJson?_toJson_eq]
        cases hvalue : altitude.value.isFinite <;> simp [hvalue]
  unfold ofMembers? isFinite
  rw [Json.required?_of_lookup hposition, Position.ofJson?_toJson_eq, haltitude', hdirection']
  cases place.position.isFinite <;> cases place.altitude.all (·.value.isFinite) <;> simp

theorem ofJson?_toJson_eq :
    ofJson? place.toJson = if place.isFinite then some place else none := by
  rw [← ofMembers?_members]
  rfl

end Place

/-! ## Attributes -/

namespace Shape

/-- A value reads back as itself if it holds no infinite number, and as nothing otherwise. -/
theorem ofJson?_toJson_eq (shape : Shape) (value : shape.Value) :
    shape.ofJson? (shape.toJson value) = if shape.isFinite value then some value else none := by
  cases shape with
  | text => rfl
  | count => exact Json.uint32?_ofUInt32 value
  | measure => exact Json.binary64?_ofBinary64_eq value
  | flag => rfl
  | color => exact Color.ofJson?_toJson value
  | triple => exact value.ofJson?_toJson_eq
  | place => exact value.ofJson?_toJson_eq

/-- No shape has a value for `null`. -/
theorem ofJson?_null (shape : Shape) : shape.ofJson? .null = none := by
  cases shape <;> rfl

/-- A value that is found under a key reads back as itself exactly if it holds no infinite
number. -/
theorem optional?_toJson_iff {key : String} {shape : Shape} {value : shape.Value}
    (h : members.lookup key = some (shape.toJson value)) :
    Json.optional? members key shape.ofJson? = some (some value) ↔ shape.isFinite value := by
  have hread := shape.ofJson?_toJson_eq value
  by_cases hnull : shape.toJson value = .null
  · rw [hnull, ofJson?_null] at hread
    rw [Json.optional?_of_lookup_null (hnull ▸ h)]
    cases hfinite : shape.isFinite value
    · simp
    · simp [hfinite] at hread
  · rw [Json.optional?_of_lookup_some h hnull, hread]
    cases shape.isFinite value <;> simp

end Shape

namespace Record

variable {allowed : List Attribute} (record : Record allowed)

private theorem lookup_flatMap_optionalMember (attributes : List Attribute) (a : Attribute) :
    (attributes.flatMap fun b =>
      Json.optionalMember b.key b.shape.toJson (record.get? b)).lookup a.key =
      if a ∈ attributes then (record.get? a).map a.shape.toJson else none := by
  induction attributes with
  | nil => rfl
  | cons b rest ih =>
      rw [List.flatMap_cons, List.lookup_append, Json.lookup_optionalMember, ih]
      by_cases hkey : a.key = b.key
      · cases Attribute.key_injective hkey
        cases record.get? a <;> simp
      · have hne : a ≠ b := fun h => hkey (h ▸ rfl)
        simp [hkey, hne]

/-- What a record has under the key of an attribute. -/
theorem lookup_members (a : Attribute) :
    record.members.lookup a.key = (record.get? a).map a.shape.toJson := by
  rw [members, lookup_flatMap_optionalMember]
  split
  · rfl
  · next hmem => rw [record.get?_of_notMem a hmem, Option.map_none]

/-- An attribute reads back as it is set exactly if it is not set to something infinite. -/
theorem memberValue?_eq_some_iff {a : Attribute}
    (h : members.lookup a.key = (record.get? a).map a.shape.toJson) :
    memberValue? members a = some (record.get? a) ↔ (record.get? a).all a.shape.isFinite := by
  unfold memberValue?
  cases hget : record.get? a with
  | none =>
      rw [hget, Option.map_none] at h
      simp [Json.optional?_of_lookup_none h]
  | some value =>
      rw [hget, Option.map_some] at h
      rw [Shape.optional?_toJson_iff h, Option.all_some]

/-- **Reading a record back.**  Members that hold under the keys of the attributes what a record
has there are read as that record exactly if it holds no infinite number. -/
theorem ofMembers?_eq_some_iff
    (h : ∀ a ∈ allowed, members.lookup a.key = record.members.lookup a.key) :
    ofMembers? members = some record ↔ record.isFinite := by
  have hvalue (a : Attribute) (hmem : a ∈ allowed) :
      memberValue? members a = some (record.get? a) ↔ (record.get? a).all a.shape.isFinite :=
    record.memberValue?_eq_some_iff ((h a hmem).trans (record.lookup_members a))
  rw [isFinite, List.all_eq_true]
  constructor
  · intro hread a hmem
    rw [← hvalue a hmem]
    unfold ofMembers? at hread
    split at hread
    · next hall =>
        obtain ⟨value, hsome⟩ := Option.isSome_iff_exists.mp (List.all_eq_true.mp hall a hmem)
        rw [← Option.some.inj hread, hsome]
        simp [hmem, hsome]
    · cases hread
  · intro hfinite
    have hsome (a : Attribute) (hmem : a ∈ allowed) :
        memberValue? members a = some (record.get? a) :=
      (hvalue a hmem).mpr (hfinite a hmem)
    have hall : allowed.all fun a => (memberValue? members a).isSome :=
      List.all_eq_true.mpr fun a hmem => by rw [hsome a hmem, Option.isSome_some]
    rw [ofMembers?, if_pos hall, Option.some.injEq, eq_iff_forall_mem]
    intro a hmem
    simp [hmem, hsome a hmem]

end Record

end ObjectActions
