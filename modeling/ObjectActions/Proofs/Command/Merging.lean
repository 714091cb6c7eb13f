import Mathlib.Data.List.Induction
import ObjectActions.Command.Merge

/-!
# What is left of the commands of a trigger

`Command.merge` puts the effective commands one by one into a list.  Two facts describe
the result without the list being built step by step:

* `map_mergeKey_merge`: the keys that are left are those of the effective commands, each
  once and in the order in which they first occur;
* `getLast?_of_mem_merge`: the command that is left for a key is the last effective
  command with that key.

Both are carried from one insertion to the next, so a command keeps the place of the
first command with its key although it comes from the last one.  `mergeKey_eq_iff` says
which commands share a key without mentioning keys.
-/

namespace ObjectActions.Command

/-! ## Commands with one key -/

/-- Whether a command gives a name. -/
def IsNaming (command : Command) : Prop := command.kind = .named (.verb .name)

/-- Two commands of which the later one overwrites the earlier: both give a name, or
neither does and they are of one kind and meant for one target, where no target at all
counts as the empty one. -/
def Overwrites (first second : Command) : Prop :=
  (first.IsNaming ∧ second.IsNaming) ∨
    (¬ first.IsNaming ∧ ¬ second.IsNaming ∧ first.kind = second.kind ∧
      first.targetName?.getD "" = second.targetName?.getD "")

theorem mergeKey_of_isNaming {command : Command} (h : command.IsNaming) :
    command.mergeKey = .name :=
  if_pos h

theorem mergeKey_of_not_isNaming {command : Command} (h : ¬ command.IsNaming) :
    command.mergeKey = .scoped command.kind (command.targetName?.getD "") :=
  if_neg h

/-- Commands share a key exactly if one overwrites the other. -/
theorem mergeKey_eq_iff (first second : Command) :
    first.mergeKey = second.mergeKey ↔ Overwrites first second := by
  by_cases hfirst : first.IsNaming <;> by_cases hsecond : second.IsNaming
  · simp [mergeKey_of_isNaming, Overwrites, hfirst, hsecond]
  · simp [mergeKey_of_isNaming, mergeKey_of_not_isNaming, Overwrites, hfirst, hsecond]
  · simp [mergeKey_of_isNaming, mergeKey_of_not_isNaming, Overwrites, hfirst, hsecond]
  · simp [mergeKey_of_not_isNaming, Overwrites, hfirst, hsecond]

/-! ## One insertion -/

/-- The commands that are there after putting one in, if no two of them had one key. -/
theorem mem_insert_iff {merged : List Command} (hnodup : (merged.map mergeKey).Nodup)
    (command c : Command) :
    c ∈ insert command merged ↔ c = command ∨ (c ∈ merged ∧ c.mergeKey ≠ command.mergeKey) := by
  induction merged with
  | nil => simp [insert]
  | cons first rest ih =>
      rw [List.map_cons, List.nodup_cons] at hnodup
      have hrest : ∀ d ∈ rest, d.mergeKey ≠ first.mergeKey := fun d hd heq =>
        hnodup.1 (heq ▸ List.mem_map_of_mem hd)
      by_cases hkey : first.mergeKey = command.mergeKey
      · rw [insert, if_pos hkey]
        grind
      · rw [insert, if_neg hkey, List.mem_cons, ih hnodup.2]
        grind

/-! ## All insertions -/

/-- The list into which commands have been put one by one. -/
def insertAll (commands : List Command) : List Command :=
  commands.foldl (fun merged command => insert command merged) []

theorem merge_eq_insertAll (commands : List (Option Command)) :
    merge commands = insertAll (effective commands) := rfl

theorem insertAll_concat (commands : List Command) (command : Command) :
    insertAll (commands ++ [command]) = insert command (insertAll commands) := by
  simp [insertAll]

theorem map_mergeKey_insertAll (commands : List Command) :
    (insertAll commands).map mergeKey = (commands.map mergeKey).eraseDups := by
  induction commands using List.reverseRecOn with
  | nil => rfl
  | append_singleton commands command ih =>
      rw [insertAll_concat, insert_keys, ih, List.map_append, List.eraseDups_append]
      by_cases hmem : command.mergeKey ∈ commands.map mergeKey
      · have hremove : ([command].map mergeKey).removeAll (commands.map mergeKey) = [] := by
          simpa [List.removeAll] using hmem
        rw [if_pos (List.mem_eraseDups.mpr hmem), hremove, List.eraseDups_nil, List.append_nil]
      · have hkeep : ([command].map mergeKey).removeAll (commands.map mergeKey) =
            [command.mergeKey] := by
          simpa [List.removeAll] using hmem
        rw [if_neg (fun h => hmem (List.mem_eraseDups.mp h)), hkeep]
        rfl

theorem nodup_keys_insertAll (commands : List Command) :
    ((insertAll commands).map mergeKey).Nodup := by
  induction commands using List.reverseRecOn with
  | nil => exact List.nodup_nil
  | append_singleton commands command ih =>
      rw [insertAll_concat]
      exact nodup_keys_insert command ih

/-- A command that is there is the last one of those with its key. -/
theorem getLast?_of_mem_insertAll {commands : List Command} {c : Command}
    (h : c ∈ insertAll commands) :
    (commands.filter fun d => d.mergeKey = c.mergeKey).getLast? = some c := by
  induction commands using List.reverseRecOn with
  | nil => simp [insertAll] at h
  | append_singleton commands command ih =>
      rw [insertAll_concat, mem_insert_iff (nodup_keys_insertAll commands)] at h
      rw [List.filter_append]
      rcases h with rfl | ⟨hmem, hne⟩
      · simp
      · have hskip : ([command].filter fun d => d.mergeKey = c.mergeKey) = [] := by
          simpa using hne.symm
        rw [hskip, List.append_nil]
        exact ih hmem

/-! ## The merged list -/

theorem map_mergeKey_merge (commands : List (Option Command)) :
    (merge commands).map mergeKey = ((effective commands).map mergeKey).eraseDups :=
  map_mergeKey_insertAll (effective commands)

theorem getLast?_of_mem_merge {commands : List (Option Command)} {c : Command}
    (h : c ∈ merge commands) :
    ((effective commands).filter fun d => d.mergeKey = c.mergeKey).getLast? = some c :=
  getLast?_of_mem_insertAll h

/-- The effective commands are those that are there and not both empty and of a kind that
means nothing by itself. -/
theorem effective_eq_filter (commands : List (Option Command)) :
    effective commands = (commands.filterMap id).filter fun c =>
      !(c.isEmpty && !c.kind.keptWhenEmpty) := by
  refine List.filter_congr fun c _ => ?_
  simp [isEffective]

/-- **What merging leaves.**  Of the commands that are there and not both empty and of a
kind that means nothing by itself, one is left for each key.  The keys stand in the order
in which they first occur, the command of a key is the last one with that key, and two
commands share a key exactly if one overwrites the other. -/
theorem merge_keeps_last_of_each_key (commands : List (Option Command)) :
    let kept := (commands.filterMap id).filter fun c => !(c.isEmpty && !c.kind.keptWhenEmpty)
    (merge commands).map mergeKey = (kept.map mergeKey).eraseDups ∧
      (∀ c ∈ merge commands,
        (kept.filter fun d => d.mergeKey = c.mergeKey).getLast? = some c) ∧
      ∀ first second : Command, first.mergeKey = second.mergeKey ↔ Overwrites first second := by
  intro kept
  have hkept : kept = effective commands := (effective_eq_filter commands).symm
  rw [hkept]
  exact ⟨map_mergeKey_merge commands, fun c hc => getLast?_of_mem_merge hc, mergeKey_eq_iff⟩

end ObjectActions.Command
