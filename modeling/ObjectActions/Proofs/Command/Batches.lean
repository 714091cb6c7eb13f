import Mathlib.Data.List.Induction
import ObjectActions.Proofs.Command.Merging

/-!
# Merging commands in parts

Commands can be merged all at once, or in parts as they come in, after which what is left of
the parts is merged again.  Both give the same list (`merge_append_merge`).

The list of a later part holds each command where the first one with its key stood, so it does
not tell in which order the commands were given.  That does no harm, as `insertOnto_insertAll`
says: putting in what is left of some commands has the same effect on any list as putting in the
commands themselves.  Two facts about two commands carry this through the list:

* `insert_insert_of_mergeKey_eq`: a command leaves nothing of one with its key that was put in
  just before it;
* `insert_comm_of_mem`: a command that has its place in the list already can as well be put in
  before one with another key.
-/

namespace ObjectActions.Command

/-! ## Two commands -/

variable {first second command : Command} {commands merged : List Command}

/-- Of two commands with one key only the second one matters. -/
theorem insert_insert_of_mergeKey_eq (h : first.mergeKey = second.mergeKey)
    (merged : List Command) : insert second (insert first merged) = insert second merged := by
  induction merged with
  | nil => simp [insert, h]
  | cons c rest ih =>
      by_cases hc : c.mergeKey = first.mergeKey
      · rw [insert, if_pos hc, insert, if_pos h, insert, if_pos (hc.trans h)]
      · have hc' : c.mergeKey ≠ second.mergeKey := fun heq => hc (heq.trans h.symm)
        rw [insert, if_neg hc, insert, if_neg hc', ih, insert, if_neg hc']

/-- The order of two commands with different keys does not matter if the key of one of them is
there already. -/
theorem insert_comm_of_mem (hne : first.mergeKey ≠ second.mergeKey)
    (hmem : first.mergeKey ∈ merged.map mergeKey) :
    insert second (insert first merged) = insert first (insert second merged) := by
  induction merged with
  | nil => cases hmem
  | cons c rest ih =>
      by_cases hfirst : c.mergeKey = first.mergeKey
      · have hsecond : c.mergeKey ≠ second.mergeKey := fun heq => hne (hfirst.symm.trans heq)
        rw [insert, if_pos hfirst, insert, if_neg hne, insert, if_neg hsecond, insert,
          if_pos hfirst]
      · by_cases hsecond : c.mergeKey = second.mergeKey
        · rw [insert, if_neg hfirst, insert, if_pos hsecond, insert, if_pos hsecond, insert,
            if_neg hne.symm]
        · rw [List.map_cons, List.mem_cons] at hmem
          rw [insert, if_neg hfirst, insert, if_neg hsecond, insert, if_neg hsecond, insert,
            if_neg hfirst, ih (hmem.resolve_left (Ne.symm hfirst))]

/-! ## Many commands -/

/-- The list that is left when commands are put one by one into a list that is there. -/
def insertOnto (merged commands : List Command) : List Command :=
  commands.foldl (fun merged command => insert command merged) merged

theorem insertOnto_cons (merged : List Command) (command : Command) (commands : List Command) :
    insertOnto merged (command :: commands) = insertOnto (insert command merged) commands := rfl

theorem insertOnto_concat (merged commands : List Command) (command : Command) :
    insertOnto merged (commands ++ [command]) = insert command (insertOnto merged commands) := by
  simp [insertOnto]

theorem insertAll_append (first second : List Command) :
    insertAll (first ++ second) = insertOnto (insertAll first) second :=
  List.foldl_append

/-- A command whose key is there can be put in before others, if none of them has its key. -/
theorem insert_insertOnto_of_mem (hmem : command.mergeKey ∈ merged.map mergeKey)
    (hnew : command.mergeKey ∉ commands.map mergeKey) :
    insert command (insertOnto merged commands) = insertOnto (insert command merged) commands := by
  induction commands generalizing merged with
  | nil => rfl
  | cons c commands ih =>
      rw [List.map_cons, List.mem_cons, not_or] at hnew
      have hmem' : command.mergeKey ∈ (insert c merged).map mergeKey := by
        rw [insert_keys]
        split
        · exact hmem
        · exact List.mem_append_left _ hmem
      rw [insertOnto_cons, ih hmem' hnew.2, insertOnto_cons,
        insert_comm_of_mem hnew.1 hmem]

/-- Putting a command in first and then the list onto another one is the same as putting it
onto the other one last. -/
theorem insertOnto_insert (merged : List Command) (hnodup : (commands.map mergeKey).Nodup)
    (command : Command) :
    insertOnto merged (insert command commands) = insert command (insertOnto merged commands) := by
  induction commands generalizing merged with
  | nil => rfl
  | cons c commands ih =>
      rw [List.map_cons, List.nodup_cons] at hnodup
      by_cases hkey : c.mergeKey = command.mergeKey
      · have hmem : command.mergeKey ∈ (insert c merged).map mergeKey := by
          rw [insert_keys, ← hkey]
          split
          · assumption
          · simp
        rw [insert, if_pos hkey, insertOnto_cons, insertOnto_cons,
          insert_insertOnto_of_mem hmem (hkey ▸ hnodup.1), insert_insert_of_mergeKey_eq hkey]
      · rw [insert, if_neg hkey, insertOnto_cons, insertOnto_cons, ih _ hnodup.2]

/-- Putting in what is left of some commands is putting in all of them. -/
theorem insertOnto_insertAll (merged commands : List Command) :
    insertOnto merged (insertAll commands) = insertOnto merged commands := by
  induction commands using List.reverseRecOn with
  | nil => rfl
  | append_singleton commands command ih =>
      rw [insertAll_concat, insertOnto_insert merged (nodup_keys_insertAll commands), ih,
        insertOnto_concat]

/-! ## Merging again -/

theorem effective_append (first second : List (Option Command)) :
    effective (first ++ second) = effective first ++ effective second := by
  simp [effective]

/-- Everything that merging leaves has an effect. -/
theorem isEffective_of_mem_merge {commands : List (Option Command)} (h : command ∈ merge commands) :
    command.isEffective := by
  have hlast := List.mem_of_getLast? (getLast?_of_mem_merge h)
  exact (List.mem_filter.mp (List.mem_filter.mp hlast).1).2

/-- Nothing that merging leaves is dropped when it is merged again. -/
theorem effective_map_some_merge (commands : List (Option Command)) :
    effective ((merge commands).map some) = merge commands := by
  have hall : ((merge commands).map some).filterMap id = merge commands := by simp
  rw [effective, hall, List.filter_eq_self]
  exact fun _ hc => isEffective_of_mem_merge hc

/-- Merging what merging has left changes nothing. -/
theorem merge_map_some_merge (commands : List (Option Command)) :
    merge ((merge commands).map some) = merge commands := by
  rw [merge_eq_insertAll, effective_map_some_merge, merge_eq_insertAll]
  exact insertOnto_insertAll [] (effective commands)

/-- **Merging in parts.**  Two lists of commands are merged to the same list if they are merged
as one, and if what is left of each is merged.  What is left of one list stays as it is
when it is merged again. -/
theorem merge_append_merge (first second : List (Option Command)) :
    merge (first ++ second) = merge ((merge first).map some ++ (merge second).map some) ∧
      merge ((merge first).map some) = merge first := by
  refine ⟨?_, merge_map_some_merge first⟩
  calc
    merge (first ++ second) = insertOnto (merge first) (effective second) := by
      rw [merge_eq_insertAll, effective_append, insertAll_append, ← merge_eq_insertAll]
    _ = insertOnto (merge ((merge first).map some)) (merge second) := by
      rw [merge_map_some_merge, merge_eq_insertAll second, insertOnto_insertAll]
    _ = merge ((merge first).map some ++ (merge second).map some) := by
      rw [merge_eq_insertAll (_ ++ _), effective_append, effective_map_some_merge second,
        insertAll_append, ← merge_eq_insertAll]

end ObjectActions.Command
