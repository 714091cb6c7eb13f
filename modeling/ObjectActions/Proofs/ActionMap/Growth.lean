import ObjectActions.Proofs.ActionMap.FirstActions
import ObjectActions.Proofs.Command.Batches

/-!
# Maps that only grow

Further actions never change the entries that an action map has, and never come between them: they
only add entries at the end (`entries_append`).  An action can add one only if its trigger has not
been met, and a trigger has been met also if the action that it came with left no entry.

The entries of a map, taken for actions again, make the same map (`ofActions_actions`).  All of
this together is `entries_only_grow`.
-/

namespace ObjectActions

namespace Action

/-- The actions whose triggers have not been met. -/
def unmet (met actions : List Action) : List Action :=
  actions.filter fun action => action.trigger ∉ met.map Action.trigger

theorem unmet_concat (met actions : List Action) (action : Action) :
    unmet met (actions ++ [action]) =
      if action.trigger ∈ met.map Action.trigger then unmet met actions
      else unmet met actions ++ [action] := by
  rw [unmet, List.filter_append]
  by_cases h : action.trigger ∈ met.map Action.trigger
  · rw [if_pos h, List.filter_singleton, decide_eq_false (not_not.mpr h), cond_false,
      List.append_nil]
    rfl
  · rw [if_neg h, List.filter_singleton, decide_eq_true h]
    rfl

/-- A trigger that has not been met occurs exactly if it occurs among the actions whose triggers
have not been met. -/
theorem mem_map_trigger_unmet {met actions : List Action} {trigger : Trigger}
    (h : trigger ∉ met.map Action.trigger) :
    trigger ∈ (unmet met actions).map Action.trigger ↔ trigger ∈ actions.map Action.trigger := by
  constructor
  · exact fun hmem => (List.filter_sublist.map Action.trigger).subset hmem
  · intro hmem
    obtain ⟨action, haction, rfl⟩ := List.mem_map.mp hmem
    have hunmet : action ∈ unmet met actions :=
      List.mem_filter.mpr ⟨haction, decide_eq_true h⟩
    exact List.mem_map_of_mem hunmet

/-- Of more actions, only those whose triggers have not been met can be kept. -/
theorem firstOfEach_append (first second : List Action) :
    firstOfEach (first ++ second) = firstOfEach first ++ firstOfEach (unmet first second) := by
  induction second using List.reverseRecOn with
  | nil => simp [unmet, firstOfEach]
  | append_singleton second action ih =>
      have hmem : action.trigger ∈ (first ++ second).map Action.trigger ↔
          action.trigger ∈ first.map Action.trigger ∨
            action.trigger ∈ second.map Action.trigger := by
        rw [List.map_append, List.mem_append]
      rw [← List.append_assoc, firstOfEach_concat, ih, unmet_concat]
      by_cases hfirst : action.trigger ∈ first.map Action.trigger
      · rw [if_pos (hmem.mpr (.inl hfirst)), if_pos hfirst]
      · have hunmet := (hmem.trans (or_iff_right hfirst)).trans (mem_map_trigger_unmet hfirst).symm
        rw [if_neg hfirst, firstOfEach_concat]
        by_cases hsecond : action.trigger ∈ (unmet first second).map Action.trigger
        · rw [if_pos (hunmet.mpr hsecond), if_pos hsecond]
        · rw [if_neg (mt hunmet.mp hsecond), if_neg hsecond, List.append_assoc]

/-- Actions with different triggers are all kept. -/
theorem firstOfEach_of_nodup {actions : List Action} (h : (actions.map Action.trigger).Nodup) :
    firstOfEach actions = actions := by
  induction actions with
  | nil => rfl
  | cons action rest ih =>
      rw [List.map_cons, List.nodup_cons] at h
      rw [firstOfEach, ih h.2, List.filter_eq_self.mpr]
      intro later hlater
      have hne : later.trigger ≠ action.trigger := fun heq =>
        h.1 (heq ▸ List.mem_map_of_mem hlater)
      simpa using hne

end Action

namespace ActionMap

open ObjectActions.Action

/-- The entries of a map as actions. -/
def actions (map : ActionMap) : List Action :=
  map.entries.map fun entry => ⟨entry.1, entry.2.map some⟩

theorem map_trigger_actions (map : ActionMap) :
    map.actions.map Action.trigger = map.entries.map Prod.fst := by
  simp [actions]

/-- More actions add entries at the end. -/
theorem entries_append (first second : List Action) :
    (ofActions (first ++ second)).entries =
      (ofActions first).entries ++ (ofActions (unmet first second)).entries := by
  simp only [entries_ofActions, firstOfEach_append, List.filterMap_append]

/-- The entry of an action makes itself again. -/
theorem entry?_of_mem_entries {actions : List Action} {entry : Trigger × List Command}
    (h : entry ∈ (ofActions actions).entries) :
    entry? ⟨entry.1, entry.2.map some⟩ = some entry := by
  obtain ⟨trigger, commands⟩ := entry
  obtain ⟨action, -, hmerge, hne⟩ := get?_eq_some_iff.mp (get?_eq_some_iff_mem.mpr h)
  refine entry?_eq_some_iff.mpr ⟨rfl, ?_, hne⟩
  rw [← hmerge, Command.merge_map_some_merge]

/-- A map is made again by its entries. -/
theorem ofActions_actions (actions : List Action) :
    ofActions (ofActions actions).actions = ofActions actions := by
  refine ext_entries ?_
  have hnodup : ((ofActions actions).actions.map Action.trigger).Nodup := by
    rw [map_trigger_actions]
    exact (ofActions actions).nodup
  calc
    (ofActions (ofActions actions).actions).entries
      = (ofActions actions).actions.filterMap entry? := by
        rw [entries_ofActions, firstOfEach_of_nodup hnodup]
    _ = (ofActions actions).entries.filterMap some := by
        rw [ActionMap.actions, List.filterMap_map]
        exact List.filterMap_congr fun entry hentry => entry?_of_mem_entries hentry
    _ = (ofActions actions).entries := List.filterMap_some

/-- **Maps only grow.**  The map of some actions and more actions has the entries of the map of
the first ones, and behind them those of the map of the other ones whose triggers do not occur
among the first ones.  So a map is a prefix of each later one, and its own entries make it again. -/
theorem entries_only_grow (first second : List Action) :
    (ofActions (first ++ second)).entries =
        (ofActions first).entries ++
          (ofActions (second.filter fun action =>
            action.trigger ∉ first.map Action.trigger)).entries ∧
      (ofActions first).entries <+: (ofActions (first ++ second)).entries ∧
      ofActions (ofActions first).actions = ofActions first := by
  refine ⟨entries_append first second, ?_, ofActions_actions first⟩
  rw [entries_append]
  exact List.prefix_append _ _

end ActionMap

end ObjectActions
