import ObjectActions.Proofs.Diagnostic.Soundness
import ObjectActions.Proofs.Script.Composition
import ObjectActions.Proofs.Script.Evaluation

/-!
# Two steps do what one does

Reading a script gives its actions at once.  Matching it first and evaluating the trees afterwards
gives the same: the same actions, the same notices in the same order, and for a script that cannot
be read the same diagnostic.  In particular no tree of a script is refused once the script has been
matched, so none of the failures that evaluation provides for ever happens.
-/

namespace ObjectActions

namespace Evaluation

open Script Grammar

variable {text : List Char}

/-- A script that cannot be read is not matched, and the record of failed attempts is reported. -/
theorem matched_eq_of_none (h : written? text = none) :
    let record := actions.track (Text.skipBlanks text) ⟨text.length, []⟩
    matched text = .error (.unmatched
      ⟨text, text.length - record.remaining, Diagnostic.listed record.names⟩) := by
  have hnone : actions.trees? (Text.skipBlanks text) = none :=
    trees?_eq_none_iff.mpr (Option.map_eq_none_iff.mp h)
  unfold matched
  rw [hnone]

/-- What is reported is the diagnostic of the script. -/
theorem matched_of_none (h : written? text = none) :
    ∃ d, matched text = .error (.unmatched d) ∧ Diagnostic.ofText? text = some d := by
  obtain ⟨frontier, hfrontier, -⟩ := exists_failures_of_written? h
  refine ⟨_, ?_, Diagnostic.ofText?_of_failures h hfrontier⟩
  rw [matched_eq_of_none h, track_of_failures hfrontier (Text.length_skipBlanks_le text)]

theorem written?_eq_none_of_matched {failure : Failure} (h : matched text = .error failure) :
    written? text = none := by
  rw [Option.eq_none_iff_forall_ne_some]
  intro written hwritten
  obtain ⟨parts, hmatched, -⟩ := matched_of_written? hwritten
  rw [hmatched] at h
  cases h

theorem ofText?_of_matched {d : Diagnostic} (h : matched text = .error (.unmatched d)) :
    Diagnostic.ofText? text = some d := by
  obtain ⟨d', hmatched, hdiagnostic⟩ := matched_of_none (written?_eq_none_of_matched h)
  rw [hmatched] at h
  cases h
  exact hdiagnostic

theorem explain_of_some {script : String} {d : Diagnostic}
    (h : Diagnostic.ofScript? script = some d) : explain script = "parse error: " ++ d.render := by
  unfold explain
  rw [h]

/-- What is explained is never empty. -/
theorem message_ne_empty (d : Diagnostic) : "parse error: " ++ d.render ≠ "" := by
  intro h
  have hlist := congrArg String.toList h
  rw [String.toList_append] at hlist
  cases hlist

/-- **Two steps do what one does.**  A script has no explanation exactly if it has actions when it is
matched first and evaluated afterwards.  If it is matched, its trees are evaluated without a failure,
to the actions that are read from it and that its map is made of, and what is noticed is noticed on
the way or while the actions are merged.  If it is not matched, there are no entries, and the only
notice carries the explanation. -/
theorem ofScript_agrees (script : String) :
    (explain script = "" ↔ ∃ actions, (ofScript script).1 = .ok actions) ∧
    match matched (Text.clean script).toList with
    | .ok parts =>
        ∃ actions notices, evaluate parts = (.ok actions, notices) ∧
          ofScript script = (.ok actions, notices) ∧
          explain script = "" ∧
          Action.ofScript? script = some actions ∧
          ActionMap.ofScript script = .ofActions actions ∧
          Notice.ofScript script = notices ++ Notice.ofActions [] actions
    | .error failure =>
        ∃ d, failure = .unmatched d ∧
          ofScript script = (.error failure, []) ∧
          explain script = failure.message ∧
          explain script = "parse error: " ++ d.render ∧
          ActionMap.ofScript script = .empty ∧
          Notice.ofScript script = [.rejected d] ∧
          (Notice.rejected d).message = "action string rejected: " ++ d.render := by
  cases hwritten : written? (Text.clean script).toList with
  | some written =>
      obtain ⟨parts, hmatched, hevaluate⟩ := matched_of_written? hwritten
      have hscript : ofScript script =
          (.ok (written.map WrittenAction.action), Notice.ofWritten written) := by
        unfold ofScript
        rw [hmatched]
        exact hevaluate
      have hactions : Action.ofScript? script = some (written.map WrittenAction.action) := by
        rw [Action.ofScript?, hwritten, Option.map_some]
      have hexplain : explain script = "" := by
        unfold explain Diagnostic.ofScript? Diagnostic.ofText?
        rw [hwritten]
      have hnotices : Notice.ofScript script = Notice.ofWritten written ++
          Notice.ofActions [] (written.map WrittenAction.action) := by
        unfold Notice.ofScript
        rw [hwritten]
      rw [hmatched, hscript]
      exact ⟨⟨fun _ => ⟨_, rfl⟩, fun _ => hexplain⟩, _, _, hevaluate, rfl, hexplain, hactions,
        ActionMap.ofScript_of_some hactions, hnotices⟩
  | none =>
      obtain ⟨d, hmatched, hdiagnostic⟩ := matched_of_none hwritten
      have hscript : ofScript script = (.error (.unmatched d), []) := by
        unfold ofScript
        rw [hmatched]
      have hactions : Action.ofScript? script = none := by
        rw [Action.ofScript?, hwritten, Option.map_none]
      have hexplain := explain_of_some hdiagnostic
      have hnotices : Notice.ofScript script = [.rejected d] := by
        unfold Notice.ofScript Diagnostic.ofScript?
        rw [hwritten, hdiagnostic]
        rfl
      rw [hmatched, hscript]
      refine ⟨⟨fun hempty => ?_, ?_⟩, d, rfl, rfl, hexplain, hexplain,
        ActionMap.ofScript_of_none hactions, hnotices, rfl⟩
      · exact absurd (hexplain.symm.trans hempty) (message_ne_empty d)
      · rintro ⟨actions, hok⟩
        cases hok

/-- Evaluation does refuse trees, but no script has this one. -/
example : command (.node (.command (.named .warp)) "warp" [.node (.keyword .warp) "warp" []]) =
    .error (.shape "warp without coordinates") := rfl

end Evaluation

end ObjectActions
