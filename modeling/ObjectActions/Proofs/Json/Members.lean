import Mathlib.Data.List.Perm.Basic
import ObjectActions.Json.Basic

/-!
# Members and their keys

Only the first member with a key is ever found, so what is found under the keys of a value depends
on the order of the members only if a key is repeated.
-/

namespace ObjectActions.Json

variable {α : Type} {members members' : List (String × α)} {key : String}

/-- Nothing is found under a key exactly if no member has it. -/
theorem lookup_eq_none_iff_notMem : members.lookup key = none ↔ key ∉ members.map Prod.fst := by
  simp only [List.lookup_eq_none_iff, bne_iff_ne, List.mem_map, not_exists, not_and]
  exact forall₂_congr fun member _ => ne_comm

/-- What is found between other members, if it is not found before. -/
theorem lookup_append_cons_self (before after : List (String × α)) (value : α) :
    (before ++ (key, value) :: after).lookup key = some ((before.lookup key).getD value) := by
  rw [List.lookup_append, List.lookup_cons_self]
  cases before.lookup key <;> rfl

/-- A member with another key is never found. -/
theorem lookup_append_cons_of_ne {key' : String} (h : key ≠ key')
    (before after : List (String × α)) (value : α) :
    (before ++ (key', value) :: after).lookup key = (before ++ after).lookup key := by
  rw [List.lookup_append, List.lookup_append, List.lookup_cons, beq_false_of_ne h]

/-- The order of members does not matter for a key that is not repeated. -/
theorem lookup_of_perm (h : members.Perm members')
    (hcount : (members.map Prod.fst).count key ≤ 1) :
    members.lookup key = members'.lookup key := by
  induction h with
  | nil => rfl
  | cons member _ ih =>
      rw [List.map_cons, List.count_cons] at hcount
      rw [List.lookup_cons, List.lookup_cons, ih (by omega)]
  | swap first second rest =>
      -- at most one of the two has the key
      obtain ⟨first, v⟩ := first
      obtain ⟨second, w⟩ := second
      simp only [List.map_cons, List.count_cons] at hcount
      simp only [List.lookup_cons]
      grind
  | trans h _ ih ih' =>
      rw [ih hcount, ih' ((h.map Prod.fst).count_eq key ▸ hcount)]

theorem count_keys_append_cons (key' : String) (before after : List (String × α))
    (value : α) :
    ((before ++ (key', value) :: after).map Prod.fst).count key =
      ((before ++ after).map Prod.fst).count key + if key' = key then 1 else 0 := by
  simp only [List.map_append, List.map_cons, List.count_append, List.count_cons, beq_iff_eq]
  omega

/-- The only member with a key is found. -/
theorem lookup_of_notMem {before after : List (String × α)}
    (h : key ∉ (before ++ after).map Prod.fst) (value : α) :
    (before ++ (key, value) :: after).lookup key = some value := by
  have hbefore : before.lookup key = none :=
    lookup_eq_none_iff_notMem.mpr fun hmem =>
      h (List.map_append ▸ List.mem_append_left _ hmem)
  rw [lookup_append_cons_self, hbefore, Option.getD_none]

/-- Under distinct keys each item is found at its place. -/
theorem lookup_zip {keys : List String} (hnodup : keys.Nodup) {i : Nat}
    (h : keys[i]? = some key) (items : List α) : (keys.zip items).lookup key = items[i]? := by
  induction keys generalizing i items with
  | nil => cases h
  | cons first keys ih =>
      rw [List.nodup_cons] at hnodup
      cases items with
      | nil => rfl
      | cons item items =>
          cases i with
          | zero =>
              cases h
              rw [List.zip_cons_cons, List.lookup_cons_self, List.getElem?_cons_zero]
          | succ i =>
              rw [List.getElem?_cons_succ] at h
              have hne : key ≠ first := by
                rintro rfl
                exact hnodup.1 (List.mem_of_getElem? h)
              rw [List.zip_cons_cons, List.lookup_cons, beq_false_of_ne hne, ih hnodup.2 h,
                List.getElem?_cons_succ]

/-! ## Distinct keys -/

/-- No object at any level of a value has two members with one key. -/
inductive DistinctKeys : Json → Prop where
  | null : DistinctKeys .null
  | flag (value : Bool) : DistinctKeys (.flag value)
  | integer (value : Int) : DistinctKeys (.integer value)
  | number (value : Binary64) : DistinctKeys (.number value)
  | text (value : String) : DistinctKeys (.text value)
  | array {items : List Json} (h : ∀ item ∈ items, DistinctKeys item) : DistinctKeys (.array items)
  | object {members : List (String × Json)} (hnodup : (members.map Prod.fst).Nodup)
      (h : ∀ member ∈ members, DistinctKeys member.2) : DistinctKeys (.object members)

/-- An object has at most one member with a key. -/
def Single (key : String) : Json → Prop
  | .object members => (members.map Prod.fst).count key ≤ 1
  | _ => True

end ObjectActions.Json
