import ObjectActions.ActionMap.Basic
import ObjectActions.Proofs.Script.Listing

/-!
# Scripts in a row

A script that is put together from two scripts with a semicolon between them says what the
first one says followed by what the second one says.  This holds whenever the first script
can be read and holds an action, however many semicolons it ends with, and
whatever the second script is as long as that does not begin with a semicolon itself.

If the first script cannot be read, then the script put together cannot be read either,
with two exceptions that the statement has to leave out: a quote that is left open in the
first script may be closed in the second one, and a first script of nothing but separators
would make the whole script begin with a semicolon.

* `written?_append`: the statement for cleaned scripts;
* `ofScript?_append_semicolon`: the statement for all scripts.
-/

namespace ObjectActions

namespace Script

open Grammar

/-! ## Scripts as lists of actions -/

/-- The actions at the front of a text, and what is left of the text behind them. -/
def listedActions (text : List Char) : List WrittenAction × List Char := listing ";" action text

/-- A script makes sense if nothing is left behind its actions. -/
theorem written?_eq (text : List Char) :
    written? text =
      if (listedActions (Text.skipBlanks text)).2 = [] then
        some (listedActions (Text.skipBlanks text)).1
      else none := by
  obtain ⟨rest, hread, hrest⟩ := read?_separatedList ";" action (Text.skipBlanks text)
  rw [written?, actions, seqLeft_eq_map, read?_map, read?_seq, hread, listedActions]
  by_cases hnil : (listing ";" action (Text.skipBlanks text)).2 = [] <;> simp [read?, hrest, hnil]

/-! ## Two scripts with a semicolon between them -/

section Append

variable {first second : List Char}

/-- A text with something other than blanks and semicolons is not used up by skipping. -/
theorem skipMarks_ne_nil {text : List Char} {c : Char}
    (h : ∃ d ∈ text, Text.isBlank d = false ∧ d ≠ c) : skipMarks c text ≠ [] := by
  obtain ⟨d, hmem, hblank, hne⟩ := h
  intro hnil
  have hall := List.dropWhile_eq_nil_iff.mp hnil d hmem
  simp [hblank, hne] at hall

theorem written?_append (hsecond : (Text.skipBlanks second).head? ≠ some ';')
    (hfirst : (∃ a as, written? first = some (a :: as)) ∨
      ('"' ∉ first ∧ ∃ c ∈ first, Text.isBlank c = false ∧ c ≠ ';')) :
    written? (first ++ ';' :: second) =
      (written? first).bind fun as => (written? second).map (as ++ ·) := by
  have hmark : ";".toList = [';'] := rfl
  have hc : Text.isSeparator ';' := rfl
  have hskip : Text.skipBlanks (first ++ ';' :: second) = Text.skipBlanks first ++ ';' :: second :=
    Text.skipBlanks_append_cons (by decide) first second
  rw [written?_eq (first ++ ';' :: second), hskip]
  cases hread : action.read? (Text.skipBlanks first) with
  | none =>
      have hlisted : listedActions (Text.skipBlanks first) = ([], skipMarks ';' first) := by
        rw [listedActions, listing_of_none hmark hc hread, skipMarks_skipBlanks]
      have hlisted' : listedActions (Text.skipBlanks first ++ ';' :: second) =
          ([], skipMarks ';' (Text.skipBlanks first ++ ';' :: second)) :=
        listing_of_none hmark hc (settled_action.read?_of_none hread second)
      have hwritten : written? first = if skipMarks ';' first = [] then some [] else none := by
        rw [written?_eq, hlisted]
      have hne : skipMarks ';' first ≠ [] := by
        rcases hfirst with ⟨a, as, hsome⟩ | ⟨-, hmem⟩
        · rw [hwritten] at hsome
          split at hsome <;> simp at hsome
        · exact skipMarks_ne_nil hmem
      rw [hlisted', hwritten, skipMarks_append_of_ne_nil (by simpa), if_neg (by simp),
        if_neg hne]
      rfl
  | some result =>
      have hquote : ¬ OpensQuote (listing ";" action (Text.skipBlanks first)).2 := by
        intro hopen
        rcases hfirst with ⟨a, as, hsome⟩ | ⟨hmem, -⟩
        · rw [written?_eq] at hsome
          split at hsome
          · next hnil =>
              rw [listedActions] at hnil
              simp [hnil, OpensQuote] at hopen
          · cases hsome
        · have hsuffix := (skipBlanks_isSuffix _).trans <|
            (listing_isSuffix ";" action _).trans (skipBlanks_isSuffix first)
          exact hmem (hsuffix.subset (List.mem_of_mem_head? hopen))
      have happend := listing_append settled_action productive_action hmark hc second
        (by simp [hread]) hquote
      have hsecond' : skipMarks ';' second = Text.skipBlanks second := skipMarks_of_head?_ne hsecond
      rw [written?_eq first, written?_eq second]
      simp only [listedActions, happend, hsecond']
      by_cases hnil : (listing ";" action (Text.skipBlanks first)).2 = []
      · by_cases hnil' : (listing ";" action (Text.skipBlanks second)).2 = [] <;>
          simp [hnil, hnil']
      · simp [hnil]

end Append

end Script

/-! ## All scripts -/

theorem ActionMap.ofScript_of_some {script : String} {actions : List Action}
    (h : Action.ofScript? script = some actions) : ofScript script = ofActions actions := by
  unfold ofScript
  split
  · next hnone =>
      rw [h] at hnone
      cases hnone
  · next hsome =>
      rw [h] at hsome
      cases hsome
      rfl

theorem ActionMap.ofScript_of_none {script : String} (h : Action.ofScript? script = none) :
    ofScript script = empty := by
  unfold ofScript
  split
  · rfl
  · next hsome =>
      rw [h] at hsome
      cases hsome

namespace Action

open Script

theorem clean_append_semicolon (first second : String) :
    (Text.clean (first ++ ";" ++ second)).toList =
      (Text.clean first).toList ++ ';' :: (Text.clean second).toList := by
  have hnoise : Text.isNoise ';' = false := by decide
  simp [Text.clean, hnoise]

/-- **Scripts in a row.**  Two scripts with a semicolon between them can be read if and only
if both can be read, and they say then what both say one after the other. -/
theorem ofScript?_append_semicolon (first second : String)
    (hsecond : (Text.skipBlanks (Text.clean second).toList).head? ≠ some ';')
    (hfirst : (∃ a as, ofScript? first = some (a :: as)) ∨
      ('"' ∉ (Text.clean first).toList ∧
        ∃ c ∈ (Text.clean first).toList, Text.isBlank c = false ∧ c ≠ ';')) :
    ((ofScript? (first ++ ";" ++ second)).isSome ↔
        (ofScript? first).isSome ∧ (ofScript? second).isSome) ∧
      ∀ as bs, ofScript? first = some as → ofScript? second = some bs →
        ofScript? (first ++ ";" ++ second) = some (as ++ bs) ∧
          ActionMap.ofScript (first ++ ";" ++ second) = ActionMap.ofActions (as ++ bs) := by
  have hwritten : (∃ a as, written? (Text.clean first).toList = some (a :: as)) ∨
      ('"' ∉ (Text.clean first).toList ∧
        ∃ c ∈ (Text.clean first).toList, Text.isBlank c = false ∧ c ≠ ';') := by
    refine hfirst.imp_left ?_
    rintro ⟨a, as, hsome⟩
    obtain ⟨written, hwritten, hactions⟩ := Option.map_eq_some_iff.mp hsome
    obtain ⟨w, ws, rfl, -, -⟩ := List.map_eq_cons_iff.mp hactions
    exact ⟨w, ws, hwritten⟩
  have happend : ofScript? (first ++ ";" ++ second) =
      (ofScript? first).bind fun as => (ofScript? second).map (as ++ ·) := by
    simp only [ofScript?]
    rw [clean_append_semicolon, written?_append hsecond hwritten]
    cases written? (Text.clean first).toList with
    | none => rfl
    | some as => cases written? (Text.clean second).toList <;> simp
  constructor
  · rw [happend]
    cases ofScript? first <;> cases ofScript? second <;> simp
  · intro as bs has hbs
    have hjoined : ofScript? (first ++ ";" ++ second) = some (as ++ bs) := by
      rw [happend, has, hbs]
      rfl
    exact ⟨hjoined, ActionMap.ofScript_of_some hjoined⟩

/-- Semicolons may be repeated at the end of the first script. -/
theorem ofScript?_append_semicolon_repeated :
    (ofScript? ("create sign;;" ++ ";" ++ "bump examine")).isSome ↔
      (ofScript? "create sign;;").isSome ∧ (ofScript? "bump examine").isSome :=
  (ofScript?_append_semicolon "create sign;;" "bump examine"
    (by simp [Text.clean, Text.isNoise, Text.skipBlanks, Text.isBlank])
    (.inr (by simp [Text.clean, Text.isNoise, Text.isBlank]))).1

end Action

end ObjectActions
