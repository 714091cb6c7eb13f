import ObjectActions.Proofs.Grammar.Tracking
import ObjectActions.Proofs.Notice.Evaluation

/-!
# Diagnostics do not look back

When a script is put together from two scripts with a semicolon between them, and the first one can
be read, then what is wrong with the second one is told as if it stood alone, only further on in the
text.  Many attempts fail while the first script is read, even at its end, but none of them begins
behind the semicolon: what an item leaves unexplained does not begin with the separator that
follows it (`Explains.length_le_of_mark`).  In the second script at least the end of the text is
tried in vain, so the attempts there are further on than all of these.

* `IsItem.exists_failures_append`: the attempts in a list of items that takes up its text, and in
  what follows a separator behind it;
* `failures_actions_append` and `track_actions_append`: what is reported for both scripts, and the
  record that is kept while they are read, is what it is for the second one;
* `matched_append`: so matching both scripts, with the record handed on through all of the first
  one, fails as matching the second one does.
-/

namespace ObjectActions

namespace Script

open Grammar

variable {α : Type} {mark : String} {c : Char} {item : Grammar Rule α} {text : List Char}

/-! ## Attempts before a place -/

/-- Whether all attempts begin with more than some number of characters left. -/
def Before (remaining : Nat) (attempts : Option (Frontier Rule)) : Prop :=
  ∀ frontier ∈ attempts, remaining < frontier.remaining

theorem Before.furthest {remaining : Nat} {first second : Option (Frontier Rule)}
    (hfirst : Before remaining first) (hsecond : Before remaining second) :
    Before remaining (Frontier.furthest first second) := by
  intro frontier hfrontier
  have hplace := remaining_furthest first second
  rw [hfrontier, Option.map_some] at hplace
  rcases eq_or_eq_of_merge hplace.symm with h | h
  · obtain ⟨other, hother, heq⟩ := Option.map_eq_some_iff.mp h
    exact heq ▸ hfirst other hother
  · obtain ⟨other, hother, heq⟩ := Option.map_eq_some_iff.mp h
    exact heq ▸ hsecond other hother

/-- Attempts before a place do not matter if there is one behind it. -/
theorem Before.furthest_eq {remaining : Nat} {attempts : Option (Frontier Rule)}
    (h : Before remaining attempts) {frontier : Frontier Rule}
    (hle : frontier.remaining ≤ remaining) :
    Frontier.furthest attempts (some frontier) = some frontier := by
  rcases attempts with - | other
  · exact Frontier.furthest_none_left _
  · exact Frontier.furthest_of_gt (Nat.lt_of_le_of_lt hle (h other rfl))

/-! ## Lists that take up their text -/

namespace IsItem

variable (h : IsItem c item) (hmark : mark.toList = [c]) (hc : Text.isSeparator c)
include h hc

/-- All attempts of an item before a separator begin before what follows the separator. -/
theorem before_failures {rest more : List Char} (hread : item.rest? text = some rest)
    (hnext : Text.skipBlanks rest = c :: more) : Before more.length (item.failures text) := by
  intro frontier hfrontier
  have hle := h.explains.length_le_of_mark hc hread (by rw [hnext]; rfl)
    (by rw [reach?, hfrontier, Option.map_some])
  rw [hnext] at hle
  exact hle

include hmark

/-- **Lists that take up their text.**  Behind the next separator only the attempts of the list
that begins there matter, for the others begin before it. -/
theorem exists_failures_append (more : List Char) (hread : item.read? text ≠ none)
    (hnil : (listing mark item text).2 = []) :
    ∃ earlier, Before more.length earlier ∧
      (separatedList mark item).failures (text ++ c :: more) =
        Frontier.furthest earlier ((separatedList mark item).failures (skipMarks c more)) := by
  have hblank := isBlank_of_isSeparator hc
  induction text using listing_induction (c := c) h.productive with
  | none text hnone => exact absurd hnone hread
  | last text value rest hsome hlast =>
      rw [listing_of_end hmark hc hsome hlast] at hnil
      change Text.skipBlanks rest = [] at hnil
      have hquote : ¬ OpensQuote rest := by simp [OpensQuote, hnil]
      have hrest := rest?_of_read? (h.settled.read?_of_some hsome hquote more)
      have hafter : Text.skipBlanks (rest ++ c :: more) = c :: more := by
        rw [Text.skipBlanks_append_cons hblank, hnil, List.nil_append]
      have hmarks : skipMarks c (rest ++ c :: more) = skipMarks c more := by
        rw [← skipMarks_skipBlanks, hafter, skipMarks_cons_self]
      refine ⟨_, h.before_failures hc hrest hafter, ?_⟩
      rw [failures_separatedList_of_mark hmark hc hrest (by rw [hafter]; rfl), hmarks]
  | mark text value rest hsome hnext ih =>
      rw [listing_of_mark hmark hc hsome hnext] at hnil
      have hquote : ¬ OpensQuote rest := by
        rw [OpensQuote, hnext, Option.some.injEq]
        exact mark_ne_quote hc
      have hrest := rest?_of_read? (h.settled.read?_of_some hsome hquote more)
      obtain ⟨behind, hbehind⟩ := List.head?_eq_some_iff.mp hnext
      have hafter : Text.skipBlanks (rest ++ c :: more) = c :: (behind ++ c :: more) := by
        rw [Text.skipBlanks_append_cons hblank, hbehind, List.cons_append]
      have hbefore := h.before_failures hc hrest hafter
      have hbefore' : Before more.length (item.failures (text ++ c :: more)) := by
        intro frontier hfrontier
        have hlt := hbefore frontier hfrontier
        rw [List.length_append, List.length_cons] at hlt
        omega
      rw [failures_separatedList_of_mark hmark hc hrest (by rw [hafter]; rfl)]
      by_cases hmarks : skipMarks c rest = []
      · -- only separators follow
        rw [skipMarks_append_of_eq_nil hmarks, skipMarks_cons_self]
        exact ⟨_, hbefore', rfl⟩
      · have hitem : item.read? (skipMarks c rest) ≠ none := by
          intro hnone
          rw [listing_of_none hmark hc hnone, skipMarks_skipMarks] at hnil
          exact hmarks hnil
        obtain ⟨earlier, hearlier, hfailures⟩ := ih hitem hnil
        rw [skipMarks_append_of_ne_nil hmarks, hfailures, ← Frontier.furthest_assoc]
        exact ⟨_, hbefore'.furthest hearlier, rfl⟩

end IsItem

/-! ## Scripts -/

theorem failures_actions (text : List Char) :
    actions.failures text =
      Frontier.furthest ((separatedList ";" action).failures text)
        ((finish Rule.endOfInput).failures (listedActions text).2) := by
  obtain ⟨rest, hread, hrest⟩ := exists_rest?_separatedList ";" action text
  have hseq := failures_seq (separatedList ";" action) (finish Rule.endOfInput) text
  rw [hread, Option.bind_some, hrest] at hseq
  exact hseq

section Append

variable {first second : List Char} {written : WrittenAction} {more : List WrittenAction}

/-- What is reported for two scripts is what is reported for the second one. -/
theorem failures_actions_append (hfirst : written? first = some (written :: more))
    (hsecond : written? second = none) (hhead : (Text.skipBlanks second).head? ≠ some ';') :
    actions.failures (Text.skipBlanks first ++ ';' :: second) =
      actions.failures (Text.skipBlanks second) := by
  have hmark : ";".toList = [';'] := rfl
  have hc : Text.isSeparator ';' := rfl
  have hmarks : skipMarks ';' second = Text.skipBlanks second := skipMarks_of_head?_ne hhead
  -- the first script is a list that takes up its text
  have hnil : (listing ";" action (Text.skipBlanks first)).2 = [] := by
    have hsome := isSome_written?_iff.mp (by rw [hfirst, Option.isSome_some])
    exact hsome
  have hread : action.read? (Text.skipBlanks first) ≠ none := by
    intro hnone
    rw [written?_eq, listedActions, listing_of_none hmark hc hnone] at hfirst
    split at hfirst <;> cases hfirst
  have hfails : (listedActions (Text.skipBlanks second)).2 ≠ [] := by
    intro hnil'
    have hsome := isSome_written?_iff.mpr hnil'
    rw [hsecond] at hsome
    cases hsome
  obtain ⟨frontier, hfrontier, hle, -⟩ := exists_failures_actions hfails
  obtain ⟨earlier, hearlier, hfailures⟩ :=
    isItem_action.exists_failures_append hmark hc second hread hnil
  have hlisted : (listedActions (Text.skipBlanks first ++ ';' :: second)).2 =
      (listedActions (Text.skipBlanks second)).2 := by
    have happend := listing_append settled_action productive_action hmark hc second hread
      (by simp [hnil, OpensQuote])
    rw [listedActions, happend, if_pos hnil, hmarks, listedActions]
  have hlength := (listing_isSuffix ";" action (Text.skipBlanks second)).length_le
  have hskip := Text.length_skipBlanks_le second
  rw [← listedActions] at hlength
  calc actions.failures (Text.skipBlanks first ++ ';' :: second)
      = Frontier.furthest earlier (actions.failures (Text.skipBlanks second)) := by
        rw [failures_actions, hfailures, hlisted, hmarks, Frontier.furthest_assoc,
          ← failures_actions]
    _ = actions.failures (Text.skipBlanks second) := by
        rw [hfrontier]
        exact hearlier.furthest_eq (by omega)

/-- The record that is kept while two scripts are read ends as the one that is kept for the second
one alone. -/
theorem track_actions_append (hfirst : written? first = some (written :: more))
    (hsecond : written? second = none) (hhead : (Text.skipBlanks second).head? ≠ some ';') :
    actions.track (Text.skipBlanks (first ++ ';' :: second)) ⟨(first ++ ';' :: second).length, []⟩ =
      actions.track (Text.skipBlanks second) ⟨second.length, []⟩ := by
  obtain ⟨frontier, hfrontier, -⟩ := exists_failures_of_written? hsecond
  have hjoined := failures_actions_append hfirst hsecond hhead
  rw [hfrontier, ← Text.skipBlanks_append_cons (by decide)] at hjoined
  rw [track_of_failures hfrontier (Text.length_skipBlanks_le second),
    track_of_failures hjoined (Text.length_skipBlanks_le _)]

/-- Two scripts are not matched as the second one is not, only further on in the text. -/
theorem matched_append (hfirst : written? first = some (written :: more))
    (hsecond : written? second = none) (hhead : (Text.skipBlanks second).head? ≠ some ';') :
    ∃ d d', Evaluation.matched second = .error (.unmatched d) ∧
      Evaluation.matched (first ++ ';' :: second) = .error (.unmatched d') ∧
      d'.position = first.length + 1 + d.position ∧ d'.expected = d.expected := by
  obtain ⟨frontier, hfrontier, hle⟩ := exists_failures_of_written? hsecond
  have hrecord := track_of_failures hfrontier (Text.length_skipBlanks_le second)
  have hjoined : written? (first ++ ';' :: second) = none := by
    rw [written?_append hhead (.inl ⟨_, _, hfirst⟩), hfirst, hsecond]
    rfl
  have hmatched := Evaluation.matched_eq_of_none hjoined
  rw [track_actions_append hfirst hsecond hhead] at hmatched
  refine ⟨_, _, Evaluation.matched_eq_of_none hsecond, hmatched, ?_, rfl⟩
  simp only [hrecord, List.length_append, List.length_cons]
  omega

end Append

end Script

namespace Diagnostic

open Script

/-- **Diagnostics do not look back.**  Behind a script with an action that can be read, and a
semicolon, a script that cannot be read has the diagnostic that it has alone: the place is shifted
by the first script and the semicolon, and the same parts are expected.  These are also what is
reported when a record of failed attempts is handed on through both scripts. -/
theorem ofScript?_behind_semicolon {first second : String} {action : Action}
    {more : List Action} (hfirst : Action.ofScript? first = some (action :: more))
    (hsecond : Action.ofScript? second = none)
    (hhead : (Text.skipBlanks (Text.clean second).toList).head? ≠ some ';') :
    Action.ofScript? (first ++ ";" ++ second) = none ∧
      ∃ d d', ofScript? second = some d ∧ ofScript? (first ++ ";" ++ second) = some d' ∧
        d'.position = (Text.clean first).toList.length + 1 + d.position ∧
        d'.expected = d.expected ∧
        Evaluation.matched (Text.clean second).toList = .error (.unmatched d) ∧
        Evaluation.matched (Text.clean (first ++ ";" ++ second)).toList =
          .error (.unmatched d') := by
  obtain ⟨as, has, hactions⟩ := Option.map_eq_some_iff.mp hfirst
  obtain ⟨written, more', rfl, -, -⟩ := List.map_eq_cons_iff.mp hactions
  have hnone : written? (Text.clean second).toList = none := Option.map_eq_none_iff.mp hsecond
  obtain ⟨d, d', hmatched, hmatched', hposition, hexpected⟩ := matched_append has hnone hhead
  rw [← Action.clean_append_semicolon] at hmatched'
  refine ⟨?_, d, d', Evaluation.ofText?_of_matched hmatched,
    Evaluation.ofText?_of_matched hmatched', hposition, hexpected, hmatched, hmatched'⟩
  rw [Action.ofScript?, Option.map_eq_none_iff]
  exact Evaluation.written?_eq_none_of_matched hmatched'

/-- A name that is missing in the second script. -/
theorem ofScript?_behind_semicolon_light :
    ∃ d d', ofScript? "bump light fx=" = some d ∧
      ofScript? ("create sign;" ++ ";" ++ "bump light fx=") = some d' ∧
      d'.position = (Text.clean "create sign;").toList.length + 1 + d.position ∧
      d'.expected = d.expected ∧
      Evaluation.matched (Text.clean "bump light fx=").toList = .error (.unmatched d) ∧
      Evaluation.matched (Text.clean ("create sign;" ++ ";" ++ "bump light fx=")).toList =
        .error (.unmatched d') :=
  (ofScript?_behind_semicolon
    (show Action.ofScript? "create sign;" = some [⟨.create, [some (.act .sign .unset)]⟩] by rfl)
    (by decide +kernel) (by simp [Text.clean, Text.isNoise, Text.skipBlanks, Text.isBlank])).2

end Diagnostic

end ObjectActions
