import ObjectActions.Command.Basic

/-!
# Merging the commands of a trigger

Of several commands that would overwrite each other's effect only the last one counts,
but it takes the place of the first.  Commands overwrite each other if they are of one
kind and meant for one target; an object has only one name, so commands that name
something always do.

Before that, what has no effect is dropped: statements without a command, and commands
that say nothing although their kind means nothing by itself.

The main statement is `Command.insert_keys`: putting a command in keeps the order of the
keys that are there, and adds its own at the end if it is new.
-/

namespace ObjectActions

/-- What two commands share if one of them overwrites the other. -/
inductive MergeKey where
  /-- The key of everything that gives a name. -/
  | name
  /-- The key of other commands; without a target, the target is the empty text. -/
  | scoped (kind : CommandKind) (target : String)
deriving DecidableEq, Repr

namespace Command

/-- The key of a command. -/
def mergeKey (command : Command) : MergeKey :=
  if command.kind = .named (.verb .name) then .name
  else .scoped command.kind (command.targetName?.getD "")

/-- Whether a command has an effect. -/
def isEffective (command : Command) : Bool :=
  !command.isEmpty || command.kind.keptWhenEmpty

/-- The commands that have an effect. -/
def effective (commands : List (Option Command)) : List Command :=
  (commands.filterMap id).filter isEffective

/-- Puts a command in the place of the one with the same key, or else at the end. -/
def insert (command : Command) : List Command → List Command
  | [] => [command]
  | first :: rest =>
      if first.mergeKey = command.mergeKey then command :: rest
      else first :: insert command rest

/-- The commands that are left of those of a trigger. -/
def merge (commands : List (Option Command)) : List Command :=
  (effective commands).foldl (fun merged command => insert command merged) []

/-! ## Facts -/

/-- Putting a command in keeps the order of the keys that are there. -/
theorem insert_keys (command : Command) (merged : List Command) :
    (insert command merged).map mergeKey =
      if command.mergeKey ∈ merged.map mergeKey then merged.map mergeKey
      else merged.map mergeKey ++ [command.mergeKey] := by
  induction merged with
  | nil => simp [insert]
  | cons first rest ih => grind [insert]

/-- No two commands are left with the same key. -/
theorem nodup_keys_insert (command : Command) {merged : List Command}
    (h : (merged.map mergeKey).Nodup) : ((insert command merged).map mergeKey).Nodup := by
  rw [insert_keys]
  split
  · exact h
  · next hnew => exact List.nodup_append.mpr ⟨h, by simp, by grind⟩

end Command

end ObjectActions
