import ObjectActions.Command.Merge
import ObjectActions.Script.Reading

/-!
# Action maps

An action map gives the commands that are carried out when a trigger fires.  It holds
each trigger at most once, in the order in which the triggers first appear in a script.
Only the first action of a trigger counts, even if merging leaves nothing of it; a
trigger of which nothing is left has no entry.
-/

namespace ObjectActions

/-- The commands of each trigger, in the order in which the triggers appeared. -/
structure ActionMap where
  entries : List (Trigger × List Command)
  nodup : (entries.map Prod.fst).Nodup
deriving DecidableEq

namespace Action

/-- The first action of each trigger. -/
def firstOfEach : List Action → List Action
  | [] => []
  | action :: rest =>
      action :: (firstOfEach rest).filter fun later => later.trigger ≠ action.trigger

/-- The entry that an action makes, unless merging leaves nothing of it. -/
def entry? (action : Action) : Option (Trigger × List Command) :=
  match Command.merge action.commands with
  | [] => none
  | commands => some (action.trigger, commands)

theorem nodup_firstOfEach (actions : List Action) :
    ((firstOfEach actions).map Action.trigger).Nodup := by
  induction actions with
  | nil => exact List.nodup_nil
  | cons action rest ih =>
      rw [firstOfEach, List.map_cons, List.nodup_cons]
      refine ⟨by simp, ?_⟩
      exact (List.filter_sublist.map Action.trigger).nodup ih

private theorem trigger_of_entry? {action : Action} {entry : Trigger × List Command}
    (h : action.entry? = some entry) : entry.1 = action.trigger := by
  unfold entry? at h
  split at h
  · cases h
  · cases h
    rfl

/-- The triggers of the entries are among the triggers of the actions, in their order. -/
theorem entries_sublist (actions : List Action) :
    ((actions.filterMap entry?).map Prod.fst).Sublist (actions.map Action.trigger) := by
  induction actions with
  | nil => exact List.Sublist.slnil
  | cons action rest ih =>
      cases h : action.entry? with
      | none => simpa [h] using ih.cons action.trigger
      | some entry => simpa [h, trigger_of_entry? h] using ih.cons_cons action.trigger

end Action

namespace ActionMap

/-- The map without entries. -/
def empty : ActionMap := ⟨[], List.nodup_nil⟩

/-- The map that actions make up together. -/
def ofActions (actions : List Action) : ActionMap where
  entries := (Action.firstOfEach actions).filterMap Action.entry?
  nodup := (Action.entries_sublist _).nodup (Action.nodup_firstOfEach actions)

/-- The commands of a trigger, if it has an entry. -/
def get? (map : ActionMap) (trigger : Trigger) : Option (List Command) :=
  map.entries.lookup trigger

/-- The map of a script; a script that makes no sense as a whole has none of its actions
carried out. -/
def ofScript (script : String) : ActionMap :=
  match Action.ofScript? script with
  | none => empty
  | some actions => ofActions actions

end ActionMap

end ObjectActions
