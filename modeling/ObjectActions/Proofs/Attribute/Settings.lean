import ObjectActions.Attribute.Record

/-!
# Records of settings that do not repeat

Settings of which no two are about the same attribute make up a record, and this record
holds what they say and nothing else.  So their order does not matter
(`ofSettings_of_perm`).
-/

namespace ObjectActions.Record

variable {allowed : List Attribute}

/-- A record is extended by settings of attributes that it has not set. -/
theorem foldlM_of_nodup (settings : List (Setting allowed)) (start : Record allowed)
    (hnodup : (settings.map Setting.name).Nodup)
    (hstart : ∀ setting ∈ settings, start.get? setting.name = none) :
    ∃ record : Record allowed,
      settings.foldlM
        (fun record setting =>
          if (record.get? setting.name).isSome then .error setting.name
          else .ok (record.set setting)) start = (.ok record : Except Attribute _) ∧
      ∀ a v, record.get? a = some v ↔
        start.get? a = some v ∨ ∃ mem, (⟨a, v, mem⟩ : Setting allowed) ∈ settings := by
  induction settings generalizing start with
  | nil => exact ⟨start, rfl, by simp⟩
  | cons setting settings ih =>
      rw [List.map_cons, List.nodup_cons] at hnodup
      have hfresh : start.get? setting.name = none := hstart setting List.mem_cons_self
      have hstart' : ∀ other ∈ settings, (start.set setting).get? other.name = none := by
        intro other hother
        have hne : setting.name ≠ other.name := by
          intro heq
          exact hnodup.1 (heq ▸ List.mem_map_of_mem hother)
        rw [get?_set_of_ne start hne]
        exact hstart other (List.mem_cons_of_mem _ hother)
      obtain ⟨record, hfold, hrecord⟩ := ih (start.set setting) hnodup.2 hstart'
      refine ⟨record, ?_, fun a v => ?_⟩
      · rw [List.foldlM_cons, hfresh]
        exact hfold
      · rw [hrecord a v]
        obtain ⟨name, value, mem⟩ := setting
        by_cases hname : name = a
        · subst hname
          have hself := get?_set_self start ⟨name, value, mem⟩
          simp only at hself hfresh
          rw [hself, hfresh]
          have hnot : ∀ mem', (⟨name, v, mem'⟩ : Setting allowed) ∉ settings := by
            intro mem' hmem
            exact hnodup.1 (List.mem_map.mpr ⟨_, hmem, rfl⟩)
          simp [hnot, mem, eq_comm]
        · rw [get?_set_of_ne start hname]
          have hother : ∀ mem', (⟨a, v, mem'⟩ : Setting allowed) ≠ ⟨name, value, mem⟩ := by
            intro mem' heq
            exact hname (congrArg Setting.name heq).symm
          simp [hother]

/-- **Settings that do not repeat** make up a record of exactly what they say. -/
theorem ofSettings_of_nodup {settings : List (Setting allowed)}
    (hnodup : (settings.map Setting.name).Nodup) :
    ∃ record : Record allowed, ofSettings settings = .ok record ∧
      ∀ a v, record.get? a = some v ↔ ∃ mem, (⟨a, v, mem⟩ : Setting allowed) ∈ settings := by
  obtain ⟨record, hfold, hrecord⟩ := foldlM_of_nodup settings unset hnodup (by simp)
  exact ⟨record, hfold, by simpa using hrecord⟩

/-- The order of settings does not matter if they do not repeat. -/
theorem ofSettings_of_perm {first second : List (Setting allowed)} (hperm : first.Perm second)
    (hnodup : (first.map Setting.name).Nodup) : ofSettings first = ofSettings second := by
  obtain ⟨record, hfirst, hrecord⟩ := ofSettings_of_nodup hnodup
  obtain ⟨record', hsecond, hrecord'⟩ :=
    ofSettings_of_nodup ((hperm.map Setting.name).nodup_iff.mp hnodup)
  rw [hfirst, hsecond, Except.ok.injEq]
  ext a v
  rw [hrecord, hrecord']
  exact exists_congr fun mem => hperm.mem_iff

end ObjectActions.Record
