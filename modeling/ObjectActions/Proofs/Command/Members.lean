import Mathlib.Data.List.Nodup
import ObjectActions.Notice
import ObjectActions.Proofs.Command.RoundTrip
import ObjectActions.Proofs.Json.Members

/-!
# What the members of a command tell

The kind of a command, its target and whether it says anything are asked for while commands are
merged.  All three can be told from the JSON form of the command as well, for each attribute that is
set is a member of its own, and no other member stands beside the one that tells the kind:

* `Record.map_fst_members`: the keys of a record are those of the attributes that are set;
* `toJson_agrees`: what is asked for agrees with what is written, so merging leaves out exactly the
  commands that are written as nothing but their kind, `examine` and `sign` aside.
-/

namespace ObjectActions

/-! ## Records -/

namespace Record

variable {allowed : List Attribute} (record : Record allowed)

private theorem map_fst_flatMap_optionalMember (attributes : List Attribute) :
    (attributes.flatMap fun a =>
      Json.optionalMember a.key a.shape.toJson (record.get? a)).map Prod.fst =
      (attributes.filter fun a => (record.get? a).isSome).map Attribute.key := by
  induction attributes with
  | nil => rfl
  | cons a rest ih =>
      rw [List.flatMap_cons, List.map_append, ih, List.filter_cons]
      cases record.get? a <;> rfl

/-- The keys of a record are those of the attributes that are set, in their order. -/
theorem map_fst_members :
    record.members.map Prod.fst =
      (allowed.filter fun a => (record.get? a).isSome).map Attribute.key :=
  record.map_fst_flatMap_optionalMember allowed

theorem members_eq_nil_iff : record.members = [] ↔ record.isEmpty = true := by
  rw [← List.map_eq_nil_iff (f := Prod.fst), map_fst_members, List.map_eq_nil_iff,
    List.filter_eq_nil_iff, isEmpty, List.all_eq_true]
  simp

end Record

/-- The keys of a place stand in their order, and nothing stands between them. -/
theorem Place.keys_sublist (place : Place) : (place.members.map Prod.fst).Sublist keys := by
  obtain ⟨position, altitude, direction⟩ := place
  cases altitude <;> cases direction <;> simp [members, Json.optionalMember, keys]

/-! ## Commands -/

/-- Only two kinds of commands mean something by themselves. -/
theorem CommandKind.keptWhenEmpty_iff {kind : CommandKind} :
    kind.keptWhenEmpty = true ↔ kind = .named (.verb .examine) ∨ kind = .named (.verb .sign) := by
  rcases kind with ⟨verb | _⟩ | _
  · cases verb <;> simp [keptWhenEmpty]
  · simp [keptWhenEmpty]
  · simp [keptWhenEmpty]

namespace Command

variable (command : Command)

/-- A command says something exactly if a member stands beside the one that tells its kind. -/
theorem members_eq_nil_iff : command.members = [] ↔ command.isEmpty = true := by
  cases command with
  | act verb record =>
      rw [isEmpty_act]
      exact record.members_eq_nil_iff
  | warp destination => simp [members, Place.members, isEmpty]
  | invalid text => simp [members, isEmpty]

/-- The target is found under its key. -/
theorem lookup_targetName_members :
    command.members.lookup Attribute.targetName.key = command.targetName?.map .text := by
  cases command with
  | act verb record =>
      rw [targetName?_act]
      exact record.lookup_members .targetName
  | warp destination =>
      have hkey : Attribute.targetName.key ∉ Place.keys := by decide
      exact Json.lookup_eq_none_iff_notMem.mpr fun h => hkey (destination.keys_sublist.subset h)
  | invalid text => rfl

/-- No key is repeated. -/
theorem nodup_keys : (kindKey :: command.members.map Prod.fst).Nodup := by
  cases command with
  | act verb record =>
      have hmembers : (act verb record).members.map Prod.fst = _ := record.map_fst_members
      rw [hmembers, List.nodup_cons]
      constructor
      · intro hmem
        obtain ⟨a, -, hkey⟩ := List.mem_map.mp hmem
        exact a.key_ne_kindKey hkey
      · exact (verb.nodup_attributes.filter _).map fun _ _ => Attribute.key_injective
  | warp destination =>
      exact (destination.keys_sublist.cons_cons kindKey).nodup (by decide)
  | invalid text => simp [members, kindKey, textKey]

/-- Merging passes over a command that has no effect, and does not pass over any other. -/
theorem merge_passes_iff :
    (∀ before after, merge (before ++ some command :: after) = merge (before ++ after)) ↔
      command.isEffective = false := by
  constructor
  · intro h
    have hnil := h [] []
    cases heffective : command.isEffective with
    | false => rfl
    | true => simp [merge, effective, insert, heffective] at hnil
  · intro hineffective before after
    have hsame : effective (before ++ some command :: after) = effective (before ++ after) := by
      simp [effective, hineffective]
    rw [merge, merge, hsame]

/-- **What is asked for is what is written.**  The kind and the target of a command are the values
of their members, there is no target exactly if there is no such member, and the command is empty
exactly if it has no member beside its kind.  Unless its kind means something by itself, this is
also when merging notices that it is left out, and when it makes no difference to merging wherever
it stands. -/
theorem toJson_agrees :
    ∃ members, command.toJson = .object members ∧ (members.map Prod.fst).Nodup ∧
      members.lookup kindKey = some (.text command.kind.word) ∧
      members.lookup Attribute.targetName.key = command.targetName?.map .text ∧
      (command.targetName? = none ↔ Attribute.targetName.key ∉ members.map Prod.fst) ∧
      (command.isEmpty = true ↔ members.map Prod.fst = [kindKey]) ∧
      (command.kind ≠ .named (.verb .examine) → command.kind ≠ .named (.verb .sign) →
        ((∀ before after, merge (before ++ some command :: after) = merge (before ++ after)) ↔
            members.map Prod.fst = [kindKey]) ∧
          (Notice.ofCommand? command = some (.ineffective command.kind) ↔
            members.map Prod.fst = [kindKey])) := by
  have htarget : ((kindKey, Json.text command.kind.word) :: command.members).lookup
      Attribute.targetName.key = command.targetName?.map .text := by
    rw [lookup_kindKey_cons (Attribute.key_ne_kindKey _), lookup_targetName_members]
  have hempty : command.isEmpty = true ↔
      ((kindKey, Json.text command.kind.word) :: command.members).map Prod.fst = [kindKey] := by
    rw [← members_eq_nil_iff]
    simp
  refine ⟨_, rfl, command.nodup_keys, List.lookup_cons_self, htarget, ?_, hempty, ?_⟩
  · rw [← Json.lookup_eq_none_iff_notMem, htarget, Option.map_eq_none_iff]
  · intro hexamine hsign
    have hkept : command.kind.keptWhenEmpty = false := by
      simp [← Bool.not_eq_true, CommandKind.keptWhenEmpty_iff, hexamine, hsign]
    have hineffective : command.isEffective = false ↔ command.isEmpty = true := by
      simp [isEffective, hkept]
    rw [merge_passes_iff, hineffective, ← hempty]
    refine ⟨Iff.rfl, ?_⟩
    rw [← hineffective, Notice.ofCommand?]
    cases command.isEffective <;> simp

/-- A rotation without attributes makes no difference. -/
theorem toJson_agrees_rotate :
    Command.kind (.act .rotate Record.unset) ≠ .named (.verb .examine) ∧
    Command.kind (.act .rotate Record.unset) ≠ .named (.verb .sign) ∧
    ∀ before after,
      merge (before ++ some (.act .rotate Record.unset) :: after) = merge (before ++ after) := by
  refine ⟨by decide, by decide, ?_⟩
  obtain ⟨members, -, -, -, -, -, hempty, hleft⟩ := toJson_agrees (.act .rotate Record.unset)
  exact (hleft (by decide) (by decide)).1.mpr (hempty.mp rfl)

end Command

end ObjectActions
