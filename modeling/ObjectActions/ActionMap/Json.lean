import ObjectActions.ActionMap.Basic
import ObjectActions.Command.Json

/-!
# The JSON form of action maps

An action map is written as an object that holds an array of commands under the name of
each trigger, in the order of the map.  When it is read, a later member of the same
trigger takes the place of an earlier one.
-/

namespace ObjectActions.ActionMap

/-- The JSON form of a map. -/
def toJson (map : ActionMap) : Json :=
  .object (map.entries.map fun entry => (entry.1.name, .array (entry.2.map Command.toJson)))

/-- Puts commands in the place of those of the same trigger, or else at the end. -/
def insertEntry (trigger : Trigger) (commands : List Command) :
    List (Trigger × List Command) → List (Trigger × List Command)
  | [] => [(trigger, commands)]
  | first :: rest =>
      if first.1 = trigger then (trigger, commands) :: rest
      else first :: insertEntry trigger commands rest

private theorem fst_mem_insertEntry {trigger : Trigger} {commands : List Command}
    {entries : List (Trigger × List Command)} {entry : Trigger × List Command}
    (h : entry ∈ insertEntry trigger commands entries) :
    entry.1 = trigger ∨ entry.1 ∈ entries.map Prod.fst := by
  induction entries with
  | nil => simp_all [insertEntry]
  | cons first rest ih => grind [insertEntry]

theorem nodup_insertEntry {trigger : Trigger} {commands : List Command}
    {entries : List (Trigger × List Command)} (h : (entries.map Prod.fst).Nodup) :
    ((insertEntry trigger commands entries).map Prod.fst).Nodup := by
  induction entries with
  | nil => simp [insertEntry]
  | cons first rest ih =>
      rw [List.map_cons, List.nodup_cons] at h
      by_cases hkey : first.1 = trigger
      · rw [insertEntry, if_pos hkey, List.map_cons, List.nodup_cons]
        exact ⟨hkey ▸ h.1, h.2⟩
      · rw [insertEntry, if_neg hkey, List.map_cons, List.nodup_cons]
        refine ⟨fun hmem => ?_, ih h.2⟩
        obtain ⟨entry, hentry, hfst⟩ := List.mem_map.mp hmem
        rcases fst_mem_insertEntry hentry with heq | hrest
        · exact hkey (hfst ▸ heq)
        · exact h.1 (hfst ▸ hrest)

/-- The map with the commands of a trigger put in. -/
def insert (map : ActionMap) (trigger : Trigger) (commands : List Command) : ActionMap :=
  ⟨insertEntry trigger commands map.entries, nodup_insertEntry map.nodup⟩

/-- The map with the entry of one member put in. -/
def insertMember? (map : ActionMap) (member : String × Json) : Option ActionMap := do
  let trigger ← Trigger.ofName? member.1
  let items ← member.2.items?
  let commands ← items.mapM Command.ofJson?
  return map.insert trigger commands

/-- The map that a JSON value stands for. -/
def ofJson? (value : Json) : Option ActionMap := do
  let members ← value.members?
  members.foldlM insertMember? empty

end ObjectActions.ActionMap
