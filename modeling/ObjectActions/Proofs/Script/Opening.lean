import ObjectActions.Proofs.Script.Order

/-!
# Scripts that open with a trigger

A script that begins with a trigger is read in two steps: the statements behind the trigger make
up its first action, and what is left behind these is nothing or begins with a semicolon, behind
which the further actions stand.  `written?_trigger` says so in one equation, in which the first
step does not depend on the trigger and the second one does not depend on either;
`ofScript?_trigger` says the same of scripts that are still to be cleaned.

Most scripts that are looked at one by one hold a single keyword behind their trigger.
`ofScript?_keyword` reduces these to how the clause of that keyword is read.
-/

namespace ObjectActions.Script

open Grammar

/-- The statements at the front of a text, and what is left behind them and the commas and blanks
that follow them. -/
def statementsOf (text : List Char) : List Statement × List Char :=
  listing "," statement (Text.skipBlanks text)

theorem statementsOf_cons_blank {c : Char} (hc : Text.isBlank c = true) (text : List Char) :
    statementsOf (c :: text) = statementsOf text := by
  rw [statementsOf, statementsOf, Text.skipBlanks_cons_of_isBlank hc]

/-- The actions behind the first action, given what is left behind its statements. -/
def furtherActions? (rest : List Char) : Option (List WrittenAction) :=
  if rest = [] then some []
  else if rest.head? = some ';' then
    if (listedActions (skipMarks ';' rest)).2 = [] then
      some (listedActions (skipMarks ';' rest)).1
    else none
  else none

theorem furtherActions?_nil : furtherActions? [] = some [] := rfl

variable {trigger : Trigger} {word behind : List Char}

/-- The word for a trigger begins with no blank. -/
theorem skipBlanks_trigger (h : Text.lower word = trigger.name.toList) (behind : List Char) :
    Text.skipBlanks (word ++ behind) = word ++ behind := by
  have hletters := isAlpha_of_lower_eq h (isAlpha_of_mem_trigger trigger)
  cases word with
  | nil => exact absurd h (by cases trigger <;> decide)
  | cons c word =>
      exact Text.skipBlanks_cons_of_not (isBlank_of_isAlpha (hletters c List.mem_cons_self)) _

/-- A trigger is read with the statements behind it. -/
theorem read?_action_trigger (h : Text.lower word = trigger.name.toList) (hstop : Stops behind) :
    ∃ rest, action.read? (word ++ behind) = some (⟨trigger, (statementsOf behind).1⟩, rest) ∧
      Text.skipBlanks rest = (statementsOf behind).2 := by
  have hletters := isAlpha_of_lower_eq h (isAlpha_of_mem_trigger trigger)
  obtain ⟨htake, hdrop⟩ := takeWhile_isNameChar_append hletters hstop
  obtain ⟨rest, hlist, hrest⟩ := read?_separatedList "," statement (Text.skipBlanks behind)
  refine ⟨rest, ?_, hrest⟩
  rw [action, read?, read?_map, read?_seq, Script.trigger, read?_word, htake, hdrop,
    ofKeyword?_of_lower_eq h, Option.map_some, Option.bind_some, hlist]
  rfl

/-- **Scripts that open with a trigger.** -/
theorem written?_trigger (h : Text.lower word = trigger.name.toList) (hstop : Stops behind) :
    written? (word ++ behind) =
      (furtherActions? (statementsOf behind).2).map
        (⟨trigger, (statementsOf behind).1⟩ :: ·) := by
  obtain ⟨rest, haction, hrest⟩ := read?_action_trigger h hstop
  rw [written?_eq, skipBlanks_trigger h, furtherActions?, ← hrest]
  unfold listedActions
  by_cases hmark : (Text.skipBlanks rest).head? = some ';'
  · have hne : Text.skipBlanks rest ≠ [] := by
      intro hnil
      simp [hnil] at hmark
    rw [listing_of_mark rfl rfl haction hmark, if_neg hne, if_pos hmark, skipMarks_skipBlanks]
    by_cases hlast : (listing ";" action (skipMarks ';' rest)).2 = [] <;> simp [hlast]
  · rw [listing_of_end rfl rfl haction hmark, if_neg hmark]
    by_cases hnil : Text.skipBlanks rest = [] <;> simp [hnil]

/-! ## Scripts that are not cleaned -/

/-- A script that opens with a word of letters and a blank, cleaned. -/
theorem toList_clean_word {word : String} (hword : ∀ c ∈ word.toList, c.isAlpha = true)
    (script : String) :
    (Text.clean (word ++ " " ++ script)).toList =
      word.toList ++ ' ' :: (Text.clean script).toList := by
  have hkept : (word.toList.filter fun c => !Text.isNoise c) = word.toList :=
    List.filter_eq_self.mpr fun c hc => by simp [isNoise_of_isAlpha (hword c hc)]
  have hblank : Text.isNoise ' ' = false := by decide
  simp [Text.clean, hkept, hblank]

/-- A script that opens with a trigger, cleaned. -/
theorem toList_clean_trigger {trigger : Trigger} {word : String}
    (h : Text.lower word.toList = trigger.name.toList) (script : String) :
    (Text.clean (word ++ " " ++ script)).toList =
      word.toList ++ ' ' :: (Text.clean script).toList :=
  toList_clean_word (isAlpha_of_lower_eq h (isAlpha_of_mem_trigger trigger)) script

theorem stops_cons_space (text : List Char) : Stops (' ' :: text) := by
  simp [Stops, Text.isBlank]

/-- What a script says that opens with a trigger and a blank. -/
theorem ofScript?_trigger {trigger : Trigger} {word : String}
    (h : Text.lower word.toList = trigger.name.toList) (script : String) :
    Action.ofScript? (word ++ " " ++ script) =
      (furtherActions? (statementsOf (Text.clean script).toList).2).map fun rest =>
        ⟨trigger, (statementsOf (Text.clean script).toList).1.map Statement.command?⟩ ::
          rest.map WrittenAction.action := by
  have hblank : Text.isBlank ' ' = true := by decide
  rw [Action.ofScript?, toList_clean_trigger h, written?_trigger h (stops_cons_space _),
    statementsOf_cons_blank hblank]
  generalize statementsOf (Text.clean script).toList = statements
  cases furtherActions? statements.2 <;> rfl

/-! ## One keyword behind a trigger -/

/-- A clause that fills the text behind a trigger is its only statement. -/
theorem statementsOf_of_read?_clause {text last : List Char} {said : Clause}
    (hhead : ∀ c ∈ text.head?, Text.isBlank c = false)
    (hread : clause.read? text = some (said, last)) (hlast : Text.skipBlanks last = []) :
    statementsOf text =
      ([⟨String.ofList (text.take (text.length - last.length)), said⟩], []) := by
  rw [statementsOf, Text.skipBlanks_eq_self hhead]
  exact listing_of_single rfl rfl (read?_statement hread) hlast

/-- A keyword that is set off by a blank is the word at the front. -/
theorem frontWord_keyword (k : Keyword) (rest : List Char) :
    frontWord (k.word.toList ++ ' ' :: rest) = k.word.toList := by
  have hletters := k.isAlpha_of_mem_word
  rw [frontWord, (takeWhile_isNameChar_append hletters (stops_cons_space rest)).1, k.lower_word]

theorem read?_keyword_self (k : Keyword) (rest : List Char) :
    (keyword k).read? (k.word.toList ++ ' ' :: rest) = some ((), ' ' :: rest) := by
  have hletters := k.isAlpha_of_mem_word
  rw [read?_keyword, if_pos (frontWord_keyword k rest),
    (takeWhile_isNameChar_append hletters (stops_cons_space rest)).2]

/-- A keyword begins with no blank. -/
theorem isBlank_head_keyword (k : Keyword) (rest : List Char) :
    ∀ c ∈ (k.word.toList ++ rest).head?, Text.isBlank c = false := by
  have hletters := k.isAlpha_of_mem_word
  have hne : k.word.toList ≠ [] := by
    rcases k with v | _
    · cases v <;> decide
    · decide
  obtain ⟨d, word, hword⟩ := List.exists_cons_of_ne_nil hne
  intro c hc
  rw [hword, List.cons_append, List.head?_cons, Option.mem_some] at hc
  exact isBlank_of_isAlpha (hletters c (by simp [hword, hc]))

/-- **One keyword behind a trigger.**  If the clause of the keyword is read up to blanks, then its
command is all that the script gives. -/
theorem ofScript?_keyword (trigger : Trigger) {k : Keyword} {arguments : String} {said : Clause}
    {last : List Char} (hclean : ∀ c ∈ arguments.toList, Text.isNoise c = false)
    (hread : (namedClause k).read? (k.word.toList ++ ' ' :: arguments.toList) = some (said, last))
    (hlast : Text.skipBlanks last = []) :
    Action.ofScript? (trigger.name ++ " " ++ (k.word ++ " " ++ arguments)) =
      some [⟨trigger, [Statement.command? ⟨arguments, said⟩]⟩] := by
  have hcleaned : (Text.clean (k.word ++ " " ++ arguments)).toList =
      k.word.toList ++ ' ' :: arguments.toList := by
    have hkept : Text.clean arguments = arguments := by
      rw [← @String.ofList_toList arguments, Text.clean_ofList hclean]
    rw [toList_clean_word k.isAlpha_of_mem_word, hkept]
  have hclause := read?_clause_of_frontWord (frontWord_keyword k arguments.toList) hread
  have hstatements := statementsOf_of_read?_clause (isBlank_head_keyword k _) hclause hlast
  rw [ofScript?_trigger (lower_triggerName trigger), hcleaned, hstatements, furtherActions?_nil]
  rfl

end ObjectActions.Script
