import Mathlib.Data.List.Nodup
import ObjectActions.Proofs.Command.Repeated
import ObjectActions.Proofs.Script.Order

/-!
# Arguments between single blanks

A script of a trigger, a verb and arguments, with a single blank before each of them, is one
statement with what the arguments say (`exists_statement_of_tokens`).  This holds even if two
arguments set the same attribute, as long as none of them looks like a continuation of the one
before it.

Most often the arguments are words, and each of them says what it says wherever it stands
(`Conveys`).  Then the command of the statement is a matter of counting: it is missing exactly
if two words set the same attribute, and has what the words say otherwise
(`exists_entry_of_words`).
-/

namespace ObjectActions.Script

variable {verb : Verb}

/-! ## Single blanks -/

/-- A single blank. -/
def blank : Gap := ⟨[' '], by simp, by decide⟩

/-- A joined list is its first member, and the others behind a separator each. -/
theorem intercalate_cons {α : Type} (separator first : List α) (others : List (List α)) :
    separator.intercalate (first :: others) = first ++ others.flatMap (separator ++ ·) := by
  induction others generalizing first with
  | nil => simp
  | cons second others ih =>
      rw [List.intercalate_cons_cons, ih, List.flatMap_cons]
      simp only [List.append_assoc]

theorem intercalate_eq_oneCommand (trigger : Trigger) (tokens : List (Token verb)) :
    " ".intercalate (trigger.name :: verb.word :: tokens.map fun token => String.ofList token.text) =
      String.ofList
        (oneCommand trigger.name.toList blank verb.word.toList (tokens.map fun t => (blank, t))) := by
  have hblank : " ".toList = blank.blanks := rfl
  have htexts : ((tokens.map fun token => String.ofList token.text).map String.toList).flatMap
      (blank.blanks ++ ·) = spacedOut (tokens.map fun t => (blank, t)) := by
    simp only [spacedOut, List.map_map, List.flatMap_map, Function.comp_apply, String.toList_ofList]
  rw [← String.toList_inj, String.toList_ofList, String.toList_intercalate, hblank, List.map_cons,
    List.map_cons, intercalate_cons, List.flatMap_cons, htexts, oneCommand, List.append_assoc]

/-- **Arguments between single blanks.** -/
theorem exists_statement_of_tokens (hverb : verb.Sortable) (trigger : Trigger)
    {tokens : List (Token verb)} (hchain : tokens.IsChain Token.AdmitsNext) :
    ∃ statement : Statement, statement.clause = .act verb (tokens.filterMap Token.said) ∧
      Action.ofScript? (" ".intercalate
          (trigger.name :: verb.word :: tokens.map fun token => String.ofList token.text)) =
        some [⟨trigger, [statement.command?]⟩] := by
  have hword : Text.lower verb.word.toList = verb.word.toList := Keyword.lower_word (.verb verb)
  have hsnd : (tokens.map fun t => (blank, t)).map Prod.snd = tokens := by
    rw [List.map_map]
    exact List.map_id tokens
  obtain ⟨text, hwritten⟩ := written?_oneCommand_of_isChain hverb blank
    (lower_triggerName trigger) hword (tokens.map fun t => (blank, t)) (hsnd.symm ▸ hchain)
  have hsaid : ((tokens.map fun t => (blank, t)).map (·.2.said)).filterMap id =
      tokens.filterMap Token.said := by
    rw [List.filterMap_map, List.filterMap_map]
    rfl
  refine ⟨⟨text, .act verb (tokens.filterMap Token.said)⟩, rfl, ?_⟩
  rw [intercalate_eq_oneCommand, Action.ofScript?,
    clean_oneCommand hverb blank (lower_triggerName trigger) hword, hwritten, hsaid]
  rfl

/-- **A single argument** that sets something gives a command that sets nothing else. -/
theorem ofScript?_token (hverb : verb.Sortable) (trigger : Trigger) {token : Token verb}
    {setting : Setting verb.attributes} (hsaid : token.said = some setting) :
    Action.ofScript? (trigger.name ++ " " ++ verb.word ++ " " ++ String.ofList token.text) =
      some [⟨trigger, [some (.act verb (Record.unset.set setting))]⟩] := by
  obtain ⟨⟨written, _⟩, rfl, hscript⟩ :=
    exists_statement_of_tokens hverb trigger (List.isChain_singleton token)
  have hjoined : " ".intercalate [trigger.name, verb.word, String.ofList token.text] =
      trigger.name ++ " " ++ verb.word ++ " " ++ String.ofList token.text := by
    rw [String.intercalate_cons_cons, String.intercalate_cons_cons, String.intercalate_singleton]
    simp only [String.append_assoc]
  have hsettings : [token].filterMap Token.said = [setting] := by simp [hsaid]
  rw [hsettings] at hscript
  exact (congrArg Action.ofScript? hjoined).symm.trans hscript

/-! ## Words -/

/-- Whether a word says something behind a verb, whatever word comes next. -/
structure Conveys (verb : Verb) (word : String) (said : Argument verb) : Prop where
  isRow : IsRow Text.isNameChar word.toList
  exists_token : ∃ token : Token verb, token.text = word.toList ∧ token.said = said ∧
    ∀ c, Text.isNameChar c = true → token.usage.Admits c

theorem ne_equals_of_isNameChar {c : Char} (h : Text.isNameChar c = true) : c ≠ '=' := by
  rintro rfl
  exact absurd h (by decide)

/-- A word with a meaning of its own. -/
theorem conveys_of_mem_table (hverb : verb.Sortable) {a : Attribute}
    {table : List (String × Option a.Value)} {mem : verb.Sets a}
    (husage : Usage.word a table mem ∈ verb.usages) {word : String} {value : Option a.Value}
    (h : (word, value) ∈ table) : Conveys verb word (value.map fun v => ⟨a, v, mem⟩) where
  isRow := by
    have hrow := regular_of_sortable hverb _ husage word (List.mem_map_of_mem h)
    exact ⟨hrow.1, fun c hc => isNameChar_of_isAlpha (hrow.2 c hc)⟩
  exists_token :=
    ⟨⟨word.toList, _, _, husage, .word h, fun _ _ _ _ heq => by cases heq⟩, rfl, rfl,
      fun _ => ne_equals_of_isNameChar⟩

/-- A word that can be anything. -/
theorem conveys_of_row {a : Attribute} {member : Char → Bool} {value? : String → Option a.Value}
    {mem : verb.Sets a} (husage : Usage.row a member value? mem ∈ verb.usages)
    (hmember : ∀ c, member c = true → Text.isNameChar c = true) {word : String}
    (hrow : IsRow member word.toList)
    (hword : ∀ a table mem, Usage.word a table mem ∈ verb.usages → word ∉ table.map Prod.fst) :
    Conveys verb word ((value? word).map fun v => ⟨a, v, mem⟩) where
  isRow := ⟨hrow.1, fun c hc => hmember c (hrow.2 c hc)⟩
  exists_token := by
    have hequals : member '=' ≠ true := fun h => ne_equals_of_isNameChar (hmember _ h) rfl
    have hspells := @Usage.Spells.row verb a member value? mem _ hrow
    rw [String.ofList_toList] at hspells
    refine ⟨⟨word.toList, _, _, husage, hspells, fun _ _ _ _ _ => ?_⟩, rfl, rfl, ?_⟩
    · refine plain_of_notMem (fun h => hequals (hrow.2 _ h)) ?_
      rwa [String.ofList_toList]
    · exact fun c hc => ⟨ne_equals_of_isNameChar hc, fun h => absurd h hequals⟩

/-- Words are arguments of which none looks like a continuation of the one before it. -/
theorem exists_tokens_of_words {said : String → Argument verb} {words : List String}
    (hwords : ∀ word ∈ words, Conveys verb word (said word)) :
    ∃ tokens : List (Token verb), (tokens.map fun token => String.ofList token.text) = words ∧
      tokens.filterMap Token.said = words.filterMap said ∧ tokens.IsChain Token.AdmitsNext := by
  have hall : ∃ tokens : List (Token verb),
      (tokens.map fun token => String.ofList token.text) = words ∧
        tokens.filterMap Token.said = words.filterMap said ∧
        ∀ token ∈ tokens, (∀ c ∈ token.text.head?, Text.isNameChar c = true) ∧
          ∀ c, Text.isNameChar c = true → token.usage.Admits c := by
    induction words with
    | nil => exact ⟨[], rfl, rfl, by simp⟩
    | cons word words ih =>
        rw [List.forall_mem_cons] at hwords
        obtain ⟨hrow, token, htext, hsaid, hadmits⟩ := hwords.1
        obtain ⟨tokens, htexts, hsaids, htokens⟩ := ih hwords.2
        refine ⟨token :: tokens, ?_, ?_, List.forall_mem_cons.mpr ⟨⟨?_, hadmits⟩, htokens⟩⟩
        · rw [List.map_cons, htexts, htext, String.ofList_toList]
        · simp only [List.filterMap_cons, hsaid, hsaids]
        · rw [htext]
          exact fun c hc => hrow.2 c (List.mem_of_mem_head? hc)
  obtain ⟨tokens, htexts, hsaids, htokens⟩ := hall
  refine ⟨tokens, htexts, hsaids, List.Pairwise.isChain ?_⟩
  apply List.pairwise_of_forall_mem_list
  intro first hfirst second hsecond c hc
  exact (htokens first hfirst).2 c ((htokens second hsecond).1 c hc)

/-! ## Counting -/

/-- Whether a word sets an attribute. -/
def settles (said : String → Argument verb) (a : Attribute) (word : String) : Bool :=
  (said word).any (·.name == a)

theorem settles_eq_true_iff {said : String → Argument verb} {a : Attribute} {word : String} :
    settles said a word = true ↔ ∃ v mem, said word = some ⟨a, v, mem⟩ := by
  rw [settles]
  cases said word with
  | none => simp
  | some setting =>
      obtain ⟨name, value, mem⟩ := setting
      simp only [Option.any_some, beq_iff_eq, Option.some.injEq]
      constructor
      · rintro rfl
        exact ⟨value, mem, rfl⟩
      · rintro ⟨v, mem', heq⟩
        exact congrArg Setting.name heq

/-- An attribute is set as often as there are words that set it. -/
theorem count_names (said : String → Argument verb) (a : Attribute) (words : List String) :
    ((words.filterMap said).map Setting.name).count a = words.countP (settles said a) := by
  rw [List.count_eq_countP, List.countP_map, List.countP_filterMap]
  refine List.countP_congr fun word _ => ?_
  rw [settles]
  cases said word <;> simp

/-- Where words set no more than two attributes, one of the two is set twice or none is. -/
theorem exists_two_le_countP_iff {said : String → Argument verb} {a b : Attribute}
    (honly : ∀ ⦃c word⦄, settles said c word = true → c = a ∨ c = b) (words : List String) :
    (∃ c, 2 ≤ words.countP (settles said c)) ↔
      2 ≤ words.countP (settles said a) ∨ 2 ≤ words.countP (settles said b) := by
  constructor
  · rintro ⟨c, hc⟩
    obtain ⟨word, -, hword⟩ := List.countP_pos_iff.mp (Nat.lt_of_lt_of_le Nat.zero_lt_two hc)
    rcases honly hword with rfl | rfl
    exacts [.inl hc, .inr hc]
  · rintro (h | h)
    exacts [⟨a, h⟩, ⟨b, h⟩]

/-- **Words behind a verb.**  There is no command exactly if two words set the same attribute, and
otherwise the command sets exactly what the words say. -/
theorem exists_entry_of_words (hverb : verb.Sortable) (trigger : Trigger)
    {said : String → Argument verb} {words : List String}
    (hwords : ∀ word ∈ words, Conveys verb word (said word)) :
    ∃ entry, Action.ofScript? (" ".intercalate (trigger.name :: verb.word :: words)) =
        some [⟨trigger, [entry]⟩] ∧
      (entry = none ↔ ∃ a, 2 ≤ words.countP (settles said a)) ∧
      ∀ command, entry = some command → ∃ record : Record verb.attributes,
        command = .act verb record ∧
          ∀ a v, record.get? a = some v ↔ ∃ word ∈ words, ∃ mem, said word = some ⟨a, v, mem⟩ := by
  obtain ⟨tokens, rfl, hsaids, hchain⟩ := exists_tokens_of_words hwords
  obtain ⟨statement, hclause, hscript⟩ := exists_statement_of_tokens hverb trigger hchain
  rw [hsaids] at hclause
  have hjudged := Statement.judged hclause
  refine ⟨statement.command?, hscript, ?_, fun command hcommand => ?_⟩
  · rw [hjudged.command?_eq_none_iff, List.nodup_iff_count_le_one, not_forall]
    simp only [count_names, Nat.not_le, Nat.succ_le_iff]
  · have hnodup := not_not.mp (mt hjudged.command?_eq_none_iff.mpr (by simp [hcommand]))
    obtain ⟨-, record, hrecord, hget⟩ := hjudged.command_of_nodup hnodup
    refine ⟨record, Option.some.inj (hcommand.symm.trans hrecord), fun a v => ?_⟩
    rw [hget]
    constructor
    · rintro ⟨mem, hmem⟩
      obtain ⟨word, hword, hsaid⟩ := List.mem_filterMap.mp hmem
      exact ⟨word, hword, mem, hsaid⟩
    · rintro ⟨word, hword, mem, hsaid⟩
      exact ⟨mem, List.mem_filterMap.mpr ⟨word, hword, hsaid⟩⟩

end ObjectActions.Script
