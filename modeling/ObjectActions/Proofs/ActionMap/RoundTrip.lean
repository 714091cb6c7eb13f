import ObjectActions.ActionMap.Json
import ObjectActions.Proofs.ActionMap.FirstActions
import ObjectActions.Proofs.Command.RoundTrip

/-!
# Action maps that are read back

A map is written member by member and read member by member.  Its triggers differ from each
other, so reading a member never replaces what an earlier one has put in: what is read is the
list of what each entry reads back as (`foldlM_insertMember?_toMember`).  Hence a map reads back
as itself exactly if no command in it holds an infinite number (`ofJson?_toJson_iff`).
-/

namespace ObjectActions

/-- Readings that all leave an item as it is leave a list as it is, and only they do. -/
theorem mapM_eq_some_self_iff {α : Type} {read? : α → Option α} {items : List α} :
    items.mapM read? = some items ↔ ∀ item ∈ items, read? item = some item := by
  induction items with
  | nil => simp
  | cons item rest ih =>
      rw [List.mapM_cons, List.forall_mem_cons, ← ih]
      simp [Option.bind_eq_some_iff]

namespace ActionMap

/-- Whether no command of a map holds an infinite number. -/
def isFinite (map : ActionMap) : Bool :=
  map.entries.all fun entry => entry.2.all Command.isFinite

/-- The member that stands for an entry. -/
def toMember (entry : Trigger × List Command) : String × Json :=
  (entry.1.name, .array (entry.2.map Command.toJson))

/-- The entry that the member of an entry stands for. -/
def readBack? (entry : Trigger × List Command) : Option (Trigger × List Command) :=
  (entry.2.mapM fun command => Command.ofJson? command.toJson).map (entry.1, ·)

/-- An entry whose trigger is not there yet comes to stand at the end. -/
theorem insertEntry_of_notMem {trigger : Trigger} {entries : List (Trigger × List Command)}
    (h : trigger ∉ entries.map Prod.fst) (commands : List Command) :
    insertEntry trigger commands entries = entries ++ [(trigger, commands)] := by
  induction entries with
  | nil => rfl
  | cons first rest ih =>
      rw [List.map_cons, List.mem_cons, not_or] at h
      rw [insertEntry, if_neg (Ne.symm h.1), ih h.2, List.cons_append]

/-- Reading the member of an entry puts in what the entry reads back as. -/
theorem insertMember?_toMember (map : ActionMap) (entry : Trigger × List Command) :
    map.insertMember? (toMember entry) =
      (readBack? entry).map fun read => map.insert read.1 read.2 := by
  simp only [insertMember?, toMember, readBack?, Json.items?, Trigger.ofName?_name,
    Option.bind_eq_bind, Option.bind_some, List.mapM_map, Function.comp_def, Option.map_map]
  exact Option.map_eq_bind.symm

/-- **Members of different triggers** are read as the list of what each of them reads back
as, after what is there already. -/
theorem foldlM_insertMember?_toMember (entries : List (Trigger × List Command)) (start : ActionMap)
    (hnodup : ((start.entries ++ entries).map Prod.fst).Nodup) :
    ((entries.map toMember).foldlM insertMember? start).map ActionMap.entries =
      (entries.mapM readBack?).map (start.entries ++ ·) := by
  induction entries generalizing start with
  | nil => simp
  | cons entry rest ih =>
      rw [List.map_cons, List.foldlM_cons, List.mapM_cons, insertMember?_toMember]
      cases hread : readBack? entry with
      | none => rfl
      | some read =>
          have hfst : read.1 = entry.1 := by
            obtain ⟨commands, -, rfl⟩ := Option.map_eq_some_iff.mp hread
            rfl
          -- the trigger is new, so its entry goes behind those that are there
          have hfresh : read.1 ∉ start.entries.map Prod.fst := by
            rw [List.map_append, List.map_cons] at hnodup
            rw [hfst]
            intro hmem
            exact (List.nodup_append.mp hnodup).2.2 _ hmem _ List.mem_cons_self rfl
          have hinsert : (start.insert read.1 read.2).entries = start.entries ++ [read] :=
            insertEntry_of_notMem hfresh read.2
          have hnodup' :
              (((start.insert read.1 read.2).entries ++ rest).map Prod.fst).Nodup := by
            rw [hinsert]
            simpa [hfst] using hnodup
          show Option.map _ ((rest.map toMember).foldlM insertMember? _) = _
          rw [ih _ hnodup', hinsert]
          cases rest.mapM readBack? <;> simp

/-- **A map is read back** as itself exactly if no command in it holds an infinite number. -/
theorem ofJson?_toJson_iff (map : ActionMap) :
    ofJson? map.toJson = some map ↔ map.isFinite := by
  have hmap : (ofJson? map.toJson).map ActionMap.entries = map.entries.mapM readBack? :=
    calc (ofJson? map.toJson).map ActionMap.entries
        = (map.entries.mapM readBack?).map (empty.entries ++ ·) :=
          foldlM_insertMember?_toMember map.entries empty map.nodup
      _ = map.entries.mapM readBack? := Option.map_id'
  have hentry (entry : Trigger × List Command) :
      readBack? entry = some entry ↔ entry.2.all Command.isFinite := by
    obtain ⟨trigger, commands⟩ := entry
    rw [List.all_eq_true, readBack?, ← forall₂_congr fun command _ => command.ofJson?_toJson_iff,
      ← mapM_eq_some_self_iff]
    simp
  have hentries : (fun map : ActionMap => map.entries).Injective := fun _ _ => ext_entries
  rw [← (Option.map_injective hentries).eq_iff, hmap, Option.map_some, mapM_eq_some_self_iff,
    isFinite, List.all_eq_true]
  exact forall₂_congr fun entry _ => hentry entry

/-- **What is finite is read back.**  Every command without an infinite number reads back as
itself, whatever its kind and whichever of its attributes are set, and so does every map of such
commands, with its triggers in their order. -/
theorem ofJson?_toJson_of_isFinite :
    (∀ command : Command, command.isFinite → Command.ofJson? command.toJson = some command) ∧
    ∀ map : ActionMap, (∀ entry ∈ map.entries, ∀ command ∈ entry.2, command.isFinite) →
      ofJson? map.toJson = some map := by
  constructor
  · intro command hfinite
    exact command.ofJson?_toJson_iff.mpr hfinite
  · intro map hfinite
    apply map.ofJson?_toJson_iff.mpr
    rw [isFinite, List.all_eq_true]
    intro entry hentry
    rw [List.all_eq_true]
    exact hfinite entry hentry

/-- Numbers by themselves, in triples and in places are read back, also in a map that no script
stands for: the tint that is not wanted, the name that is empty but not missing, and the trigger
without commands. -/
theorem ofJson?_toJson_of_numbers :
    let rotation : Command :=
      .act .rotate ((Record.unset.set
        ⟨.speed, ⟨.zero, .ofRatio true 1 10, .zero⟩, by decide⟩).set
          ⟨.time, .ofRatio false 5 2, by decide⟩)
    let journey : Command :=
      .act .teleport (Record.unset.set
        ⟨.coordinates, ⟨.absolute (.ofInt 10) (.ofInt (-20)), some ⟨true, .ofRatio false 1 2⟩,
          some 90⟩, by decide⟩)
    let coloring : Command :=
      .act .color ((Record.unset.set ⟨.tint, false, by decide⟩).set ⟨.targetName, "", by decide⟩)
    Command.ofJson? rotation.toJson = some rotation ∧
      Command.ofJson? journey.toJson = some journey ∧
      ofJson? (ActionMap.mk [(.ending, [rotation, coloring]), (.create, []), (.bump, [journey])]
          (by decide)).toJson =
        some ⟨[(.ending, [rotation, coloring]), (.create, []), (.bump, [journey])], by decide⟩ :=
  ⟨ofJson?_toJson_of_isFinite.1 _ (by decide), ofJson?_toJson_of_isFinite.1 _ (by decide),
    ofJson?_toJson_of_isFinite.2 _ (by decide)⟩

end ActionMap

end ObjectActions
