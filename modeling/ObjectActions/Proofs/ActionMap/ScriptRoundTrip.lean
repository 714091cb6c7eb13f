import ObjectActions.Proofs.ActionMap.RoundTrip
import ObjectActions.Proofs.Command.Merging
import ObjectActions.Proofs.Script.Finite
import ObjectActions.Proofs.Script.Series

/-!
# The maps of scripts that are read back

The map of a script is read back exactly if no number in it is infinite, and this can be seen from
the script to some extent: it is so as long as no row of digits in the script is longer than 308
(`ofJson?_toJson_ofScript`).  Longer rows do no harm in a name, in a sentence, in a count or in a
factor.  But a script may also move an object by any row of digits (`ofScript?_digits`), and with
one digit more than 308 the distance can be infinite.  Then it is written as `null`, which is refused
(`ofJson?_toJson_of_nines`).
-/

namespace ObjectActions

namespace Script

/-- A row of digits, however many there are, as the only argument of a verb. -/
theorem ofScript?_digits {verb : Verb} (hverb : verb.Sortable) {a : Attribute}
    {resolve : List Binary64 → a.Value} {mem : verb.Sets a}
    (husage : Usage.numbers a resolve mem ∈ verb.usages) {digits : List Char}
    (h : IsRow Char.isDigit digits) :
    Action.ofScript? ("create " ++ verb.word ++ " " ++ String.ofList digits) =
      some [⟨.create, [some (.act verb
        (Record.unset.set ⟨a, resolve [Digits.toBinary64 digits []], mem⟩))]⟩] := by
  have hlist : IsNumberList (String.ofList digits).toList [Digits.toBinary64 digits []] := by
    rw [String.toList_ofList]
    exact .last (.unsigned (.whole h))
  exact ofScript?_numbers hverb .create husage hlist

theorem isRow_nines (n : Nat) : IsRow Char.isDigit (List.replicate (n + 1) '9') := by
  refine ⟨List.cons_ne_nil _ _, ?_⟩
  intro c hc
  rw [List.eq_of_mem_replicate hc]
  rfl

end Script

/-- What is left after merging is among the commands that were merged. -/
theorem Command.mem_of_mem_merge {commands : List (Option Command)} {command : Command}
    (h : command ∈ merge commands) : some command ∈ commands := by
  have hlast := List.mem_of_getLast? (getLast?_of_mem_merge h)
  have heffective := (List.mem_filter.mp (List.mem_filter.mp hlast).1).1
  simpa using heffective

namespace ActionMap

/-- The commands of a map are among those of the actions. -/
theorem exists_of_mem_entries {actions : List Action} {entry : Trigger × List Command}
    (h : entry ∈ (ofActions actions).entries) {command : Command} (hcommand : command ∈ entry.2) :
    ∃ action ∈ actions, some command ∈ action.commands := by
  obtain ⟨trigger, commands⟩ := entry
  obtain ⟨action, hfirst, hmerge, -⟩ :=
    get?_eq_some_iff.mp (get?_eq_some_iff_mem.mpr h)
  exact ⟨action, List.mem_of_find?_eq_some hfirst, Command.mem_of_mem_merge (hmerge ▸ hcommand)⟩

/-- The map of a script without long rows of digits holds no infinite number. -/
theorem isFinite_ofScript {script : String} (h : Text.ShortRows (Text.clean script).toList) :
    (ofScript script).isFinite := by
  unfold ofScript
  split
  · rfl
  · next actions hread =>
      rw [isFinite, List.all_eq_true]
      intro entry hentry
      rw [List.all_eq_true]
      intro command hcommand
      obtain ⟨action, haction, hmem⟩ := exists_of_mem_entries hentry hcommand
      exact Action.isFinite_of_ofScript? h hread action haction command hmem

/-- **The maps of scripts are read back** exactly if they hold no infinite number, and so they are
as long as no row of more than 308 digits stands in the script. -/
theorem ofJson?_toJson_ofScript (script : String) :
    (ofJson? (ofScript script).toJson = some (ofScript script) ↔ (ofScript script).isFinite) ∧
      (Text.ShortRows (Text.clean script).toList →
        ofJson? (ofScript script).toJson = some (ofScript script)) := by
  have hiff := (ofScript script).ofJson?_toJson_iff
  exact ⟨hiff, fun h => hiff.mpr (isFinite_ofScript h)⟩

/-- A script that is too short for a long row of digits, and one with a long row of digits for a
factor, which is brought within its bounds. -/
theorem ofJson?_toJson_of_short_and_scale :
    ofJson? (ofScript "create move 1.5 -2 time=3; bump warp 10n 20w +5a").toJson =
        some (ofScript "create move 1.5 -2 time=3; bump warp 10n 20w +5a") ∧
      ofJson? (ofScript ("create scale " ++ String.ofList (List.replicate 400 '9'))).toJson =
        some (ofScript ("create scale " ++ String.ofList (List.replicate 400 '9'))) := by
  refine ⟨(ofJson?_toJson_ofScript _).2 fun _ hdigits _ => hdigits.length_le.trans (by decide), ?_⟩
  have hscale : Action.ofScript? ("create scale " ++ String.ofList (List.replicate 400 '9')) = _ :=
    @Script.ofScript?_digits .scale (by simp [Verb.Sortable]) .factor Triple.ofFactors
      (by decide) (by simp [Verb.usages]) _ (Script.isRow_nines 399)
  rw [(ofJson?_toJson_ofScript _).1, ofScript_of_some hscale]
  decide +kernel

/-- With one digit more than 308 the distance is infinite.  It is written as `null`, which is
refused. -/
theorem ofJson?_toJson_of_nines :
    ofJson? (ofScript (String.ofList ("create move ".toList ++ List.replicate 309 '9'))).toJson =
      none := by
  rw [String.ofList_append, String.ofList_toList]
  have hmove : Action.ofScript? ("create move " ++ String.ofList (List.replicate 309 '9')) = _ :=
    @Script.ofScript?_digits .move (by simp [Verb.Sortable]) .distance Triple.ofOffsets
      (by decide) (by simp [Verb.usages]) _ (Script.isRow_nines 308)
  rw [ofScript_of_some hmove]
  decide +kernel

end ActionMap

end ObjectActions
