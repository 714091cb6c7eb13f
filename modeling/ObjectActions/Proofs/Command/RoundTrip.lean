import Mathlib.Data.Option.Basic
import ObjectActions.Command.Json
import ObjectActions.Proofs.Attribute.RoundTrip

/-!
# Commands that are read back

The JSON form of a command reads back as that command exactly if it holds no infinite number
(`Command.ofJson?_toJson_iff`).  The member that tells the kind of a command stands among its
attributes, but under a key that no attribute has.
-/

namespace ObjectActions

/-! ## The member that tells the kind -/

theorem Attribute.key_ne_kindKey (a : Attribute) : a.key ≠ Command.kindKey := by
  cases a <;> decide

/-- The member that tells the kind does not hide an attribute. -/
theorem Command.lookup_kindKey_cons {key : String} (hne : key ≠ kindKey) (tag : Json)
    (members : List (String × Json)) :
    ((kindKey, tag) :: members).lookup key = members.lookup key := by
  rw [List.lookup_cons, beq_false_of_ne hne]

namespace Command

/-- A command is read in two steps: its kind, and what this kind reads from its members. -/
theorem ofJson?_toJson (command : Command) :
    ofJson? command.toJson = ofRest? command.kind command.toJson := by
  simp [ofJson?, toJson, Json.tagged?, Json.text?]

/-! ## Reading a command back -/

/-- **A command is read back** as itself exactly if it holds no infinite number. -/
theorem ofJson?_toJson_iff (command : Command) :
    ofJson? command.toJson = some command ↔ command.isFinite := by
  rw [ofJson?_toJson]
  cases command with
  | act verb record =>
      have hmembers : ∀ a ∈ verb.attributes,
          ((kindKey, Json.text verb.word) :: record.members).lookup a.key =
            record.members.lookup a.key :=
        fun a _ => lookup_kindKey_cons a.key_ne_kindKey _ _
      have hact : (act verb).Injective := fun _ _ h => by injection h
      rw [isFinite, ← record.ofMembers?_eq_some_iff hmembers,
        ← (Option.map_injective hact).eq_iff, Option.map_some]
      rfl
  | warp destination =>
      have hmembers : ∀ key ∈ Place.keys,
          ((kindKey, Json.text Keyword.warp.word) :: destination.members).lookup key =
            destination.members.lookup key := by
        intro key hkey
        exact lookup_kindKey_cons (by rintro rfl; exact absurd hkey (by decide)) _ _
      show (Place.ofMembers? ((kindKey, Json.text Keyword.warp.word) :: destination.members)).map
        warp = _ ↔ destination.isFinite
      rw [Place.ofMembers?_congr hmembers, destination.ofMembers?_members]
      cases destination.isFinite <;> simp
  | invalid text => exact iff_of_true rfl rfl

end Command

end ObjectActions
