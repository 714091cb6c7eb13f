import ObjectActions.Proofs.Script.Opening
import ObjectActions.Proofs.Text.Squeezing

/-!
# Statements in a row

If a comma and more text are put behind a script of one action, the statements of the other text
become further statements of that action.  Nothing of the first script is read differently
because of what follows the comma, and nothing of the other text because of what precedes it.

Two things have to be kept apart from this: a semicolon at the end of the first script, behind
which the other text would be read as a new action, and a comma at the front of the other text,
which would be taken for a repetition of the comma between the two.

* `statementsOf_append`: the statements of two texts with a comma between them;
* `Action.ofScript?_append_comma`: the statement for scripts.
-/

namespace ObjectActions

/-! ## The end of a text -/

theorem Text.trimRight_append_of_ne_nil (first : List Char) {second : List Char}
    (h : trimRight second ≠ []) : trimRight (first ++ second) = first ++ trimRight second := by
  induction first with
  | nil => rfl
  | cons c first ih =>
      rw [List.cons_append, trimRight, ih]
      split
      · next hnil => exact absurd (List.append_eq_nil_iff.mp hnil).2 h
      · rfl

namespace Script

open Grammar

variable {text : List Char}

/-- A text whose end holds only blanks and semicolons ends with a semicolon. -/
theorem getLast?_trimRight_of_skipMarks {rest : List Char} (hsuffix : rest <:+ text)
    (hhead : rest.head? = some ';') (hmarks : skipMarks ';' rest = []) :
    (Text.trimRight text).getLast? = some ';' := by
  obtain ⟨front, rfl⟩ := hsuffix
  have hmem : ';' ∈ rest := List.mem_of_mem_head? hhead
  have hne : Text.trimRight rest ≠ [] := by
    intro hnil
    have hblank := List.all_eq_true.mp (Text.trimRight_eq_nil_iff.mp hnil) ';' hmem
    exact absurd hblank (by decide)
  obtain ⟨before, c, hlast, hc⟩ := Text.exists_of_trimRight_ne_nil hne
  obtain ⟨blanks, -, hsplit⟩ := Text.trimRight_append rest
  have hcmem : c ∈ rest := by
    rw [← hsplit, hlast]
    simp
  -- the last character that is no blank is one of the marks
  have hsemicolon : c = ';' := by
    have hall := List.dropWhile_eq_nil_iff.mp hmarks c hcmem
    simpa [hc] using hall
  rw [Text.trimRight_append_of_ne_nil front hne, hlast, ← List.append_assoc,
    List.getLast?_concat, hsemicolon]

/-! ## Lists of statements -/

theorem statementsOf_isSuffix (text : List Char) : (statementsOf text).2 <:+ text :=
  (listing_isSuffix _ _ _).trans (skipBlanks_isSuffix text)

/-- A list with items begins with an item. -/
theorem read?_ne_none_of_listing {α : Type} {mark : String} {c : Char} {item : Grammar Rule α}
    (hmark : mark.toList = [c]) (hc : Text.isSeparator c)
    (h : (listing mark item text).1 ≠ []) : item.read? text ≠ none := by
  intro hnone
  rw [listing_of_none hmark hc hnone] at h
  exact h rfl

theorem listing_eq_nil {α : Type} {mark : String} {c : Char} {item : Grammar Rule α}
    (hmark : mark.toList = [c]) (hc : Text.isSeparator c)
    (h : (listing mark item text).1 = []) : (listing mark item text).2 = skipMarks c text := by
  cases hread : item.read? text with
  | none => rw [listing_of_none hmark hc hread]
  | some result =>
      rw [listing_of_some hmark hc hread] at h
      cases h

/-- Statements that are followed by no action fill a text that does not end with a semicolon. -/
theorem eq_nil_of_furtherActions? {rest : List Char} (hsuffix : rest <:+ text)
    (hlast : (Text.trimRight text).getLast? ≠ some ';') (h : furtherActions? rest = some []) :
    rest = [] := by
  have hmark : ";".toList = [';'] := rfl
  by_contra hne
  rw [furtherActions?, if_neg hne] at h
  split at h
  · next hhead =>
      split at h
      · next hnil =>
          rw [listedActions, listing_eq_nil hmark rfl (Option.some.inj h),
            skipMarks_skipMarks] at hnil
          exact hlast (getLast?_trimRight_of_skipMarks hsuffix hhead hnil)
      · cases h
  · cases h

/-- **Statements in a row.** -/
theorem statementsOf_append {first second : List Char} (hne : (statementsOf first).1 ≠ [])
    (hrest : (statementsOf first).2 = []) (hsecond : (Text.skipBlanks second).head? ≠ some ',') :
    statementsOf (first ++ ',' :: second) =
      ((statementsOf first).1 ++ (statementsOf second).1, (statementsOf second).2) := by
  have hmark : ",".toList = [','] := rfl
  have hread := read?_ne_none_of_listing hmark rfl hne
  -- nothing is left of the first text, so no quote is left open either
  have hopen : ¬ OpensQuote (statementsOf first).2 := by simp [hrest, OpensQuote]
  have happend := listing_append (settled_statement rfl) productive_statement hmark rfl second
    hread hopen
  unfold statementsOf at hrest ⊢
  rw [Text.skipBlanks_append_cons (by decide), happend, if_pos hrest,
    skipMarks_of_head?_ne hsecond]

end Script

namespace Action

open Script

/-- **Commas.**  If a script of one action that has commands does not end with a semicolon, and
the text behind the comma does not begin with a comma, then the script put together can be read
if and only if the text can be read behind the same trigger, and the commands of its first
action follow those of the script. -/
theorem ofScript?_append_comma {trigger : Trigger} {word : String}
    (hword : Text.lower word.toList = trigger.name.toList) (first second : String)
    {action : Action} (hfirst : ofScript? (word ++ " " ++ first) = some [action])
    (hne : action.commands ≠ [])
    (hlast : (Text.trimRight (Text.clean first).toList).getLast? ≠ some ';')
    (hsecond : (Text.skipBlanks (Text.clean second).toList).head? ≠ some ',') :
    ((ofScript? (word ++ " " ++ first ++ "," ++ second)).isSome ↔
        (ofScript? (word ++ " " ++ second)).isSome) ∧
      ∀ actions, ofScript? (word ++ " " ++ second) = some actions →
        ∃ commands rest, actions = ⟨trigger, commands⟩ :: rest ∧
          ofScript? (word ++ " " ++ first ++ "," ++ second) =
            some (⟨trigger, action.commands ++ commands⟩ :: rest) := by
  rw [ofScript?_trigger hword] at hfirst
  obtain ⟨further, hfurther, heq⟩ := Option.map_eq_some_iff.mp hfirst
  rw [List.cons.injEq] at heq
  obtain ⟨rfl, hmap⟩ := heq
  rw [List.map_eq_nil_iff.mp hmap] at hfurther
  have hrest := eq_nil_of_furtherActions? (statementsOf_isSuffix _) hlast hfurther
  have hstatements : (statementsOf (Text.clean first).toList).1 ≠ [] := by
    simpa using hne
  have hcomma : Text.isNoise ',' = false := by decide
  have hclean : (Text.clean (first ++ "," ++ second)).toList =
      (Text.clean first).toList ++ ',' :: (Text.clean second).toList := by
    simp [Text.clean, hcomma]
  have hjoined : ofScript? (word ++ " " ++ first ++ "," ++ second) =
      (furtherActions? (statementsOf (Text.clean second).toList).2).map fun rest =>
        ⟨trigger, (statementsOf (Text.clean first).toList).1.map Statement.command? ++
          (statementsOf (Text.clean second).toList).1.map Statement.command?⟩ ::
            rest.map WrittenAction.action := by
    have hassoc : word ++ " " ++ first ++ "," ++ second =
        word ++ " " ++ (first ++ "," ++ second) := by simp only [String.append_assoc]
    rw [hassoc, ofScript?_trigger hword, hclean,
      statementsOf_append hstatements hrest hsecond, List.map_append]
  rw [hjoined, ofScript?_trigger hword]
  constructor
  · rw [Option.isSome_map, Option.isSome_map]
  · intro actions hactions
    obtain ⟨rest, hsome, rfl⟩ := Option.map_eq_some_iff.mp hactions
    exact ⟨_, _, rfl, by rw [hsome, Option.map_some]⟩

/-- A comma in quoted text, and a script that goes on with another action. -/
theorem ofScript?_append_comma_quoted :
    ofScript? ("Bump" ++ " " ++ "dance, sign \"a, b\"" ++ "," ++ "solid off; create examine") =
      some
        [⟨.bump,
            [some (.invalid "dance"),
              some (.act .sign (Record.unset.set { name := .text, value := "a, b" })),
              some (.act .solid (Record.unset.set { name := .value, value := false }))]⟩,
          ⟨.create, [some (.act .examine Record.unset)]⟩] := by
  have hfirst : ofScript? ("Bump" ++ " " ++ "dance, sign \"a, b\"") =
      some [⟨.bump, [some (.invalid "dance"),
        some (.act .sign (Record.unset.set { name := .text, value := "a, b" }))]⟩] := by
    decide +kernel
  have hsecond : ofScript? ("Bump" ++ " " ++ "solid off; create examine") =
      some [⟨.bump, [some (.act .solid (Record.unset.set { name := .value, value := false }))]⟩,
        ⟨.create, [some (.act .examine Record.unset)]⟩] := by
    decide +kernel
  have hword : Text.lower "Bump".toList = Trigger.bump.name.toList := by decide
  obtain ⟨commands, rest, heq, hjoined⟩ := (ofScript?_append_comma hword "dance, sign \"a, b\""
    "solid off; create examine" hfirst (by simp) (by decide) (by decide)).2 _ hsecond
  cases heq
  exact hjoined

end Action

end ObjectActions
