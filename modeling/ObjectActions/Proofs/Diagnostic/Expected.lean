import Mathlib.Data.List.Nodup
import ObjectActions.Proofs.Diagnostic.Locality
import ObjectActions.Proofs.Script.ClauseAttempts

/-!
# What a diagnostic lists

A diagnostic lists its parts once each, but by names that several parts share.  A name can only
stand in the list twice if two parts with this name have been tried at the same place: the two sorts
of numbers, or a place and one of the two sorts of positions (`Rule.of_description_eq`).  Scripts
never report such parts together (`eq_of_listsAt_actions`), so no name is repeated; and since
whatever fails has a name, the list is not empty either.
-/

namespace ObjectActions

namespace Rule

open Script

/-- Parts with the same name: the two sorts of numbers, and what is named like a position. -/
theorem of_description_eq {rule other : Rule} (h : rule.description = other.description) :
    rule = other ∨ (rule = .float ∧ other = .signedFloat) ∨ (rule = .signedFloat ∧ other = .float) ∨
      IsPositionName rule ∨ IsPositionName other := by
  have hall : ∀ rule ∈ all, ∀ other ∈ all, rule.description = other.description →
      rule = other ∨ (rule = .float ∧ other = .signedFloat) ∨
        (rule = .signedFloat ∧ other = .float) ∨ IsPositionName rule ∨ IsPositionName other := by
    decide +kernel
  exact hall rule (mem_all rule) other (mem_all other) h

end Rule

namespace Script

open Grammar

variable {text : List Char} {n : Nat} {name other : Rule}

/-- A script does not report that one of the two sorts of positions is missing. -/
theorem not_listsAt_actions_position (hname : IsPositionName name) :
    ¬ ListsAt name n (actions.failures text) := by
  have hinner : name.IsInner := by rcases hname with rfl | rfl <;> trivial
  intro h
  exact apart_actions hinner hinner (fun k _ _ hlists _ => not_listsAt_position hname k hlists) h h

/-- Parts that a script reports together do not share a name. -/
theorem eq_of_listsAt_actions (hname : ListsAt name n (actions.failures text))
    (hother : ListsAt other n (actions.failures text))
    (h : name.description = other.description) : name = other := by
  have hnumbers : Apart .float .signedFloat actions := apart_actions trivial trivial apart_numbers
  rcases Rule.of_description_eq h with heq | ⟨rfl, rfl⟩ | ⟨rfl, rfl⟩ | hposition | hposition
  · exact heq
  · exact absurd hother (hnumbers hname)
  · exact absurd hname (hnumbers hother)
  · exact absurd hname (not_listsAt_actions_position hposition)
  · exact absurd hother (not_listsAt_actions_position hposition)

end Script

namespace Diagnostic

open Script Grammar

theorem nodup_listed (attempts : List Rule) : (listed attempts).Nodup :=
  (show Rule.all.Nodup by decide +kernel).filter _

/-- **What is expected.**  A script that cannot be read has a diagnostic that says what could have
followed, and it says nothing twice. -/
theorem ofScript?_expected_nodup {script : String} (h : Action.ofScript? script = none) :
    ∃ d, ofScript? script = some d ∧ d.expected.map Rule.description ≠ [] ∧
      (d.expected.map Rule.description).Nodup := by
  have hnone : written? (Text.clean script).toList = none := Option.map_eq_none_iff.mp h
  obtain ⟨⟨n, names⟩, hfrontier, -⟩ := exists_failures_of_written? hnone
  have hlists {name : Rule} (hname : name ∈ listed names) :
      ListsAt name n (actions.failures (Text.skipBlanks (Text.clean script).toList)) :=
    ⟨names, hfrontier, mem_listed.mp hname⟩
  refine ⟨_, ofText?_of_failures hnone hfrontier, ?_, ?_⟩
  · obtain ⟨name, hname⟩ := List.exists_mem_of_ne_nil names (named_failures actions _ _ hfrontier)
    exact List.ne_nil_of_mem (List.mem_map_of_mem (mem_listed.mpr hname))
  · refine List.Nodup.map_on (fun name hname other hother heq => ?_) (nodup_listed names)
    exact eq_of_listsAt_actions (hlists hname) (hlists hother) heq

/-- A sign without a number, inside one sort of number and before the other. -/
theorem ofScript?_expected_nodup_move :
    ∃ d, ofScript? "create move +" = some d ∧ d.expected.map Rule.description ≠ [] ∧
      (d.expected.map Rule.description).Nodup :=
  ofScript?_expected_nodup (by decide +kernel)

end Diagnostic

end ObjectActions
