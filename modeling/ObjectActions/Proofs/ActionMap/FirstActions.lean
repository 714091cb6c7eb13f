import Mathlib.Data.List.Basic
import Mathlib.Data.List.Induction
import ObjectActions.ActionMap.Basic

/-!
# Which actions an action map keeps

Merging goes through the actions in their order and counts two things: the triggers that it
has met, and the entries that it has made.  They differ where merging leaves nothing of an
action: its trigger has been met, so no later action of that trigger counts, but it
has no entry.

* `firstOfEach_concat` says what one more action changes: nothing if its trigger has been met, and
  otherwise it is kept behind all others;
* `firstOfEach_eq_filterMap`: after all actions, the first action of each trigger is left, and
  these stand in the order in which the triggers first occur;
* `get?_eq_some_iff`: the entry of a trigger holds what merging leaves of its first action.
-/

namespace ObjectActions

namespace Action

/-- The first action of a trigger, if the trigger occurs. -/
def first? (actions : List Action) (trigger : Trigger) : Option Action :=
  actions.find? fun action => action.trigger = trigger

/-- The triggers that occur, each once and in the order in which they first occur. -/
def triggers (actions : List Action) : List Trigger := (actions.map Action.trigger).eraseDups

theorem mem_triggers_iff {actions : List Action} {trigger : Trigger} :
    trigger ∈ triggers actions ↔ trigger ∈ actions.map Action.trigger :=
  List.mem_eraseDups

theorem trigger_of_first? {actions : List Action} {trigger : Trigger} {action : Action}
    (h : first? actions trigger = some action) : action.trigger = trigger := by
  simpa using List.find?_some h

theorem first?_eq_none_iff {actions : List Action} {trigger : Trigger} :
    first? actions trigger = none ↔ trigger ∉ actions.map Action.trigger := by
  simp [first?]

/-- What is appended to actions does not matter to the triggers that occur in them. -/
theorem first?_append_of_mem {actions : List Action} {trigger : Trigger}
    (h : trigger ∈ actions.map Action.trigger) (more : List Action) :
    first? (actions ++ more) trigger = first? actions trigger := by
  have hfound : first? actions trigger ≠ none := mt first?_eq_none_iff.mp (by simpa using h)
  obtain ⟨action, hfirst⟩ := Option.ne_none_iff_exists'.mp hfound
  rw [first?, List.find?_append]
  rw [first?] at hfirst
  rw [hfirst, Option.some_or, first?, hfirst]

/-! ## One more action -/

/-- An action is kept exactly if its trigger has not been met. -/
theorem firstOfEach_concat (actions : List Action) (action : Action) :
    firstOfEach (actions ++ [action]) =
      if action.trigger ∈ actions.map Action.trigger then firstOfEach actions
      else firstOfEach actions ++ [action] := by
  induction actions with
  | nil => simp [firstOfEach]
  | cons first rest ih =>
      rw [List.cons_append, firstOfEach, ih, firstOfEach, List.map_cons]
      by_cases hrest : action.trigger ∈ rest.map Action.trigger
      · rw [if_pos hrest, if_pos (List.mem_cons_of_mem _ hrest)]
      · rw [if_neg hrest, List.filter_append]
        by_cases hfirst : action.trigger = first.trigger
        · rw [if_pos (hfirst ▸ List.mem_cons_self)]
          simp [hfirst]
        · rw [if_neg (by simp [hfirst, hrest])]
          simp [hfirst]

theorem triggers_concat (actions : List Action) (action : Action) :
    triggers (actions ++ [action]) =
      if action.trigger ∈ actions.map Action.trigger then triggers actions
      else triggers actions ++ [action.trigger] := by
  rw [triggers, List.map_append, List.eraseDups_append]
  by_cases hmem : action.trigger ∈ actions.map Action.trigger
  · have hremove : ([action].map Action.trigger).removeAll (actions.map Action.trigger) = [] := by
      simpa [List.removeAll] using hmem
    rw [if_pos hmem, hremove, List.eraseDups_nil, List.append_nil, triggers]
  · have hkeep : ([action].map Action.trigger).removeAll (actions.map Action.trigger) =
        [action.trigger] := by
      simpa [List.removeAll] using hmem
    rw [if_neg hmem, hkeep]
    rfl

/-! ## All actions -/

/-- What is kept of some actions is the first action of each trigger that occurs. -/
theorem firstOfEach_eq_filterMap (actions : List Action) :
    firstOfEach actions = (triggers actions).filterMap (first? actions) := by
  induction actions using List.reverseRecOn with
  | nil => rfl
  | append_singleton actions action ih =>
      have hearlier : (triggers actions).filterMap (first? (actions ++ [action])) =
          (triggers actions).filterMap (first? actions) := by
        refine List.filterMap_congr fun trigger htrigger => ?_
        exact first?_append_of_mem (mem_triggers_iff.mp htrigger) [action]
      rw [firstOfEach_concat, triggers_concat, ih]
      by_cases hmem : action.trigger ∈ actions.map Action.trigger
      · rw [if_pos hmem, if_pos hmem, hearlier]
      · have hlast : first? (actions ++ [action]) action.trigger = some action := by
          have hnone := first?_eq_none_iff.mpr hmem
          rw [first?] at hnone ⊢
          rw [List.find?_append, hnone, Option.none_or]
          simp
        rw [if_neg hmem, if_neg hmem, List.filterMap_append, hearlier]
        simp [hlast]

theorem entry?_eq_some_iff {action : Action} {trigger : Trigger} {commands : List Command} :
    action.entry? = some (trigger, commands) ↔
      action.trigger = trigger ∧ Command.merge action.commands = commands ∧ commands ≠ [] := by
  unfold entry?
  split
  · next hnil => simp [hnil, eq_comm]
  · next hcons =>
      constructor
      · rintro ⟨⟩
        exact ⟨rfl, rfl, hcons⟩
      · rintro ⟨rfl, rfl, -⟩
        rfl

end Action

namespace ActionMap

open ObjectActions.Action

theorem entries_ofActions (actions : List Action) :
    (ofActions actions).entries = (firstOfEach actions).filterMap entry? := rfl

/-- The entries are what the first actions of the triggers make, one trigger after another. -/
theorem entries_eq_filterMap (actions : List Action) :
    (ofActions actions).entries =
      (triggers actions).filterMap fun trigger => (first? actions trigger).bind entry? := by
  rw [entries_ofActions, firstOfEach_eq_filterMap, List.filterMap_filterMap]

theorem ext_entries {first second : ActionMap} (h : first.entries = second.entries) :
    first = second := by
  cases first
  cases second
  cases h
  rfl

/-- The entry of a trigger can be looked up. -/
theorem get?_eq_some_iff_mem {map : ActionMap} {trigger : Trigger} {commands : List Command} :
    map.get? trigger = some commands ↔ (trigger, commands) ∈ map.entries := by
  obtain ⟨entries, hnodup⟩ := map
  unfold get?
  simp only
  induction entries with
  | nil => simp
  | cons entry entries ih =>
      obtain ⟨key, value⟩ := entry
      rw [List.map_cons, List.nodup_cons] at hnodup
      rw [List.lookup_cons, List.mem_cons, ← ih hnodup.2]
      by_cases hkey : trigger = key
      · subst hkey
        have hfresh : entries.lookup trigger ≠ some commands := by
          intro hlookup
          exact hnodup.1 (List.mem_map.mpr ⟨_, (ih hnodup.2).mp hlookup, rfl⟩)
        rw [beq_self_eq_true]
        simp [hfresh, eq_comm]
      · rw [beq_false_of_ne hkey]
        simp [hkey]

/-- **Entries.**  A trigger has an entry exactly if it occurs and merging leaves something of
its first action, and that is what its entry holds. -/
theorem get?_eq_some_iff {actions : List Action} {trigger : Trigger} {commands : List Command} :
    (ofActions actions).get? trigger = some commands ↔
      ∃ action, first? actions trigger = some action ∧
        Command.merge action.commands = commands ∧ commands ≠ [] := by
  rw [get?_eq_some_iff_mem, entries_eq_filterMap, List.mem_filterMap]
  constructor
  · rintro ⟨met, -, hentry⟩
    obtain ⟨action, hfirst, hentry⟩ := Option.bind_eq_some_iff.mp hentry
    obtain ⟨rfl, hmerge, hne⟩ := entry?_eq_some_iff.mp hentry
    rw [trigger_of_first? hfirst]
    exact ⟨action, hfirst, hmerge, hne⟩
  · rintro ⟨action, hfirst, hmerge, hne⟩
    have hmet : trigger ∈ triggers actions := by
      rw [mem_triggers_iff]
      by_contra hnot
      rw [first?_eq_none_iff.mpr hnot] at hfirst
      cases hfirst
    refine ⟨trigger, hmet, Option.bind_eq_some_iff.mpr ⟨action, hfirst, ?_⟩⟩
    exact entry?_eq_some_iff.mpr ⟨trigger_of_first? hfirst, hmerge, hne⟩

/-- The triggers of the entries stand in the order in which they first occur. -/
theorem map_fst_entries (actions : List Action) :
    (ofActions actions).entries.map Prod.fst =
      (triggers actions).filter fun trigger => ((ofActions actions).get? trigger).isSome := by
  have hentry (trigger : Trigger) :
      ((first? actions trigger).bind entry?).map Prod.fst =
        if ((ofActions actions).get? trigger).isSome then some trigger else none := by
    cases hget : (ofActions actions).get? trigger with
    | some commands =>
        obtain ⟨action, hfirst, hmerge, hne⟩ := get?_eq_some_iff.mp hget
        have hmade := entry?_eq_some_iff.mpr ⟨trigger_of_first? hfirst, hmerge, hne⟩
        simp [hfirst, hmade]
    | none =>
        cases hmade : (first? actions trigger).bind entry? with
        | none => rfl
        | some entry =>
            obtain ⟨action, hfirst, hentry⟩ := Option.bind_eq_some_iff.mp hmade
            obtain ⟨-, hmerge, hne⟩ := @entry?_eq_some_iff action entry.1 entry.2 |>.mp hentry
            rw [get?_eq_some_iff.mpr ⟨action, hfirst, hmerge, hne⟩] at hget
            cases hget
  rw [entries_eq_filterMap, List.map_filterMap, ← List.filterMap_eq_filter]
  refine List.filterMap_congr fun trigger _ => ?_
  rw [hentry, Option.guard_apply]

/-- **What an action map keeps.**  A trigger has an entry exactly if it occurs and merging
leaves something of its first action, which is then the entry; the entries are in the order in
which their triggers first occur.  So an action of which nothing is left still keeps
every later action of its trigger out, and what other actions than the first ones do makes no
difference. -/
theorem ofActions_keeps_first_of_each_trigger (actions : List Action) :
    (∀ trigger commands, (ofActions actions).get? trigger = some commands ↔
      ∃ action, actions.find? (fun a => a.trigger = trigger) = some action ∧
        Command.merge action.commands = commands ∧ commands ≠ []) ∧
    (ofActions actions).entries.map Prod.fst =
      ((actions.map Action.trigger).eraseDups.filter fun trigger =>
        ((ofActions actions).get? trigger).isSome) ∧
    (∀ trigger action, actions.find? (fun a => a.trigger = trigger) = some action →
      Command.merge action.commands = [] →
      ∀ later, (ofActions (actions ++ later)).get? trigger = none) ∧
    ∀ others : List Action, others.map Action.trigger = actions.map Action.trigger →
      (∀ trigger, others.find? (fun a => a.trigger = trigger) =
        actions.find? fun a => a.trigger = trigger) →
      ofActions others = ofActions actions := by
  refine ⟨fun trigger commands => get?_eq_some_iff, map_fst_entries actions, ?_, ?_⟩
  · intro trigger action hfirst hempty later
    have hmem : trigger ∈ actions.map Action.trigger := by
      by_contra hnot
      rw [← first?, first?_eq_none_iff.mpr hnot] at hfirst
      cases hfirst
    rw [Option.eq_none_iff_forall_ne_some]
    intro commands hget
    obtain ⟨action', hfirst', hmerge, hne⟩ := get?_eq_some_iff.mp hget
    -- the first action of the trigger stays the first one whatever comes later
    rw [first?_append_of_mem hmem, first?, hfirst, Option.some.injEq] at hfirst'
    rw [← hfirst', hempty] at hmerge
    exact hne hmerge.symm
  · intro others htriggers hfirst
    have hsame : first? others = first? actions := funext hfirst
    refine ext_entries ?_
    rw [entries_eq_filterMap, entries_eq_filterMap, triggers, htriggers, hsame]
    rfl

/-- An action of which merging leaves nothing keeps a later one of its trigger out, whatever
that one does. -/
theorem ofActions_emptied_bump :
    (ofActions [⟨.bump, [none]⟩, ⟨.bump, [some (.act .examine .unset)]⟩]).get? .bump = none ∧
      ofActions [⟨.bump, [none]⟩, ⟨.bump, [some (.act .examine .unset)]⟩] =
        ofActions [⟨.bump, [none]⟩, ⟨.bump, [some (.act .sign .unset), none]⟩] :=
  ⟨(ofActions_keeps_first_of_each_trigger [⟨.bump, [none]⟩]).2.2.1 .bump _ rfl (by decide)
      [⟨.bump, [some (.act .examine .unset)]⟩],
    (ofActions_keeps_first_of_each_trigger
      [⟨.bump, [none]⟩, ⟨.bump, [some (.act .sign .unset), none]⟩]).2.2.2 _ rfl
      (fun trigger => by cases trigger <;> rfl)⟩

end ActionMap

end ObjectActions
