import ObjectActions.Attribute.Basic

/-!
# Records of attributes

A command has some of the attributes that its kind allows.  Such a record is a function
that gives each attribute its value if it is set, together with the fact that nothing
outside the allowed attributes is set; so two records are equal as soon as they give the
same values, in whatever order these were written.

A record is built either from the settings of a script, where an attribute that is set
a second time spoils the whole record, or from the members of a JSON object, where the
members that are not allowed attributes are left aside.
-/

namespace ObjectActions

/-- The attributes that are set, out of those that are allowed. -/
@[ext] structure Record (allowed : List Attribute) where
  /-- The value of an attribute, if it is set. -/
  get? : (a : Attribute) → Option a.Value
  get?_of_notMem : ∀ a, a ∉ allowed → get? a = none

/-- An allowed attribute with the value that it is to have. -/
structure Setting (allowed : List Attribute) where
  name : Attribute
  value : name.Value
  mem : name ∈ allowed := by decide

namespace Record

variable {allowed : List Attribute}

/-- The record in which nothing is set. -/
def unset : Record allowed where
  get? _ := none
  get?_of_notMem _ _ := rfl

/-- The record with one more attribute set. -/
def set (record : Record allowed) (setting : Setting allowed) : Record allowed where
  get? a := if h : setting.name = a then some (h ▸ setting.value) else record.get? a
  get?_of_notMem a hmem := by
    have hne : setting.name ≠ a := fun h => hmem (h ▸ setting.mem)
    rw [dif_neg hne, record.get?_of_notMem a hmem]

/-- Whether nothing is set. -/
def isEmpty (record : Record allowed) : Bool :=
  allowed.all fun a => (record.get? a).isNone

/-- Whether no number of the record is infinite. -/
def isFinite (record : Record allowed) : Bool :=
  allowed.all fun a => (record.get? a).all a.shape.isFinite

/-- The record that settings make up together.  An attribute may be set only once; the
first one that is set again is reported. -/
def ofSettings (settings : List (Setting allowed)) : Except Attribute (Record allowed) :=
  settings.foldlM
    (fun record setting =>
      if (record.get? setting.name).isSome then .error setting.name else .ok (record.set setting))
    unset

/-! ## JSON form -/

/-- The keys of the allowed attributes. -/
def keys (allowed : List Attribute) : List String := allowed.map Attribute.key

/-- The members that stand for a record, in the order of the allowed attributes. -/
def members (record : Record allowed) : List (String × Json) :=
  allowed.flatMap fun a => Json.optionalMember a.key a.shape.toJson (record.get? a)

/-- What some members say about one attribute: nothing that makes sense, that
it is unset, or its value. -/
def memberValue? (members : List (String × Json)) (a : Attribute) : Option (Option a.Value) :=
  Json.optional? members a.key a.shape.ofJson?

/-- The record that some members stand for, if each of them makes sense. -/
def ofMembers? (members : List (String × Json)) : Option (Record allowed) :=
  if allowed.all fun a => (memberValue? members a).isSome then
    some
      { get? := fun a => if a ∈ allowed then (memberValue? members a).join else none
        get?_of_notMem := fun _ hmem => if_neg hmem }
  else none

/-! ## Facts -/

/-- Records are equal if they agree on the allowed attributes. -/
theorem eq_iff_forall_mem {first second : Record allowed} :
    first = second ↔ ∀ a ∈ allowed, first.get? a = second.get? a := by
  refine ⟨fun h _ _ => h ▸ rfl, fun h => Record.ext (funext fun a => ?_)⟩
  by_cases hmem : a ∈ allowed
  · exact h a hmem
  · rw [first.get?_of_notMem a hmem, second.get?_of_notMem a hmem]

instance : DecidableEq (Record allowed) := fun _ _ =>
  decidable_of_iff _ eq_iff_forall_mem.symm

@[simp] theorem get?_unset (a : Attribute) : (unset : Record allowed).get? a = none := rfl

@[simp] theorem get?_set_self (record : Record allowed) (setting : Setting allowed) :
    (record.set setting).get? setting.name = some setting.value := by
  simp [set]

theorem get?_set_of_ne (record : Record allowed) {setting : Setting allowed} {a : Attribute}
    (h : setting.name ≠ a) : (record.set setting).get? a = record.get? a := by
  simp [set, h]

/-- A record is empty exactly if it is the unset one. -/
theorem isEmpty_iff {record : Record allowed} : record.isEmpty ↔ record = unset := by
  simp [isEmpty, eq_iff_forall_mem]

end Record

end ObjectActions
