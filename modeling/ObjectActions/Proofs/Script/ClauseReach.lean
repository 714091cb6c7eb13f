import ObjectActions.Proofs.Script.ArgumentReach
import ObjectActions.Proofs.Script.Dispatch
import ObjectActions.Proofs.Script.Explanation
import ObjectActions.Proofs.Script.PlaceReach
import ObjectActions.Proofs.Script.Spacing

/-!
# Clauses that are cut off

Behind its keyword a clause has one of four bodies (`Body`): arguments behind each other, at most
one word or address, the name of a world and a place, or a place alone.  Each of them explains
what it leaves (`Body.explains`), and so does every clause (`explains_clause`).

A place that cannot be read turns the clause into one that is not understood, which takes up
everything before the next separator.  What has been tried inside the place is then behind nothing
that is left.
-/

namespace ObjectActions.Script

open Grammar

variable {α β : Type} {text more left front : List Char}

/-! ## What leaves nothing unexplained -/

/-- What was left is left without the end of the text. -/
theorem Leaves.cut_of_cuts {grammar : Grammar Rule α} (h : Leaves grammar text more left front)
    (hcuts : grammar.Cuts) :
    ∃ last, grammar.rest? text = some last ∧ Text.skipBlanks last = front := by
  obtain ⟨blanks, hblank, hsplit⟩ := Text.exists_blanks_append left
  rw [h.left, ← List.append_assoc] at hsplit
  have hread := h.read
  rw [hsplit] at hread
  refine ⟨blanks ++ front, hcuts hread, ?_⟩
  rw [Text.skipBlanks_append_of_eq_nil hblank]
  refine Text.skipBlanks_eq_self fun c hc => Text.isBlank_head_skipBlanks left c ?_
  rw [h.left, List.head?_append, hc]
  rfl

/-- What is tried nowhere but where it begins leaves nothing before an attempt. -/
theorem explains_of_cuts {grammar : Grammar Rule α} (hcuts : grammar.Cuts)
    (hbegins : ∀ text more : List Char,
      grammar.reach? (text ++ more) = some more.length → text = []) : Explains grammar := by
  have hnil {text more left front : List Char} (h : Leaves grammar text more left front) :
      front = [] := by
    by_contra hne
    exact h.ne_nil hne (hbegins text more (h.reach hne))
  constructor
  · intro text more left front hleaves
    exact hleaves.cut_of_cuts hcuts
  · intro text more left front hleaves c hc
    rw [hnil hleaves] at hc
    cases hc
  · intro text more left front hleaves hne
    exact absurd (hnil hleaves) hne

/-- What holds no separators tries nothing behind one. -/
theorem not_isSeparator_of_reach? {grammar : Grammar Rule α}
    (hignores : ∀ mark, Text.isSeparator mark → grammar.Ignores mark)
    (hreach : grammar.reach? (text ++ more) = some more.length)
    (hsuffix : front ++ more <:+ text ++ more) :
    ∀ c ∈ front.head?, Text.isSeparator c = false := by
  intro c hc
  by_contra hseparator
  have hmark : Text.isSeparator c = true := by simpa using hseparator
  obtain ⟨behind, rfl⟩ := List.head?_eq_some_iff.mp hc
  obtain ⟨taken, htaken⟩ := hsuffix
  rw [← htaken, List.cons_append] at hreach
  have hle := (hignores c hmark).le_reach? (isBlank_of_isSeparator hmark) hreach
  simp only [List.length_cons, List.length_append] at hle
  omega

theorem Leaves.isSuffix {grammar : Grammar Rule α} (h : Leaves grammar text more left front) :
    front ++ more <:+ text ++ more :=
  h.left ▸ (skipBlanks_isSuffix left).trans (isSuffix_of_rest? h.read)

theorem Leaves.stop_of_ignores {grammar : Grammar Rule α} (h : Leaves grammar text more left front)
    (hignores : ∀ mark, Text.isSeparator mark → grammar.Ignores mark) :
    ∀ c ∈ front.head?, Text.isSeparator c = false := by
  intro c hc
  have hne : front ≠ [] := List.ne_nil_of_mem (List.mem_of_mem_head? hc)
  exact not_isSeparator_of_reach? hignores (h.reach hne) h.isSuffix c hc

/-! ## Names of worlds -/

theorem rest?_worldName_cons (c : Char) (text : List Char) :
    worldName.rest? (c :: text) =
      if c.isAlpha then some ((c :: text).dropWhile Char.isAlphanum) else none := by
  rw [worldName, rest?_run]
  by_cases hc : c.isAlphanum = true
  · cases halpha : c.isAlpha <;> simp [hc, halpha]
  · have halpha : c.isAlpha = false := by
      cases halpha : c.isAlpha with
      | false => rfl
      | true => exact absurd (by simp [Char.isAlphanum, halpha]) hc
    simp [hc, halpha]

theorem productive_worldName : worldName.Productive := productive_token (by decide)

theorem cuts_worldName : worldName.Cuts := cuts_run _ _ _

theorem grows_worldName : worldName.Grows := by
  intro text rest h more
  obtain ⟨c, text, rfl⟩ := List.exists_cons_of_ne_nil (productive_worldName.ne_nil h)
  rw [rest?_worldName_cons] at h
  rw [List.cons_append, rest?_worldName_cons]
  split at h
  · next halpha => simp [halpha]
  · cases h

/-- What may be the name of a world ends before the end of the text whatever follows. -/
theorem rest?_optional_worldName {middle : List Char}
    (h : worldName.optional.rest? (text ++ more) = some (middle ++ more)) (hne : middle ≠ [])
    (other : List Char) : worldName.optional.rest? (text ++ other) = some (middle ++ other) := by
  rw [rest?_optional, Option.some.injEq] at h ⊢
  cases hread : worldName.rest? (text ++ more) with
  | some last =>
      rw [hread, Option.getD_some] at h
      rw [worldName, rest?_run_append _ _ _ (h ▸ hread) hne other, Option.getD_some]
  | none =>
      rw [hread, Option.getD_none] at h
      have htext := List.append_cancel_right h
      subst htext
      obtain ⟨c, text, rfl⟩ := List.exists_cons_of_ne_nil hne
      rw [List.cons_append, rest?_worldName_cons] at hread
      rw [List.cons_append, rest?_worldName_cons]
      split at hread
      · cases hread
      · next halpha => simp [halpha]

/-! ## Bodies -/

/-- What can stand behind a keyword. -/
inductive Body : Keyword → {β : Type} → Grammar Rule β → Prop where
  /-- Any number of arguments. -/
  | arguments {verb : Verb} {argument : Grammar Rule (Argument verb)}
      (h : Choices argument verb.forms) : Body (.verb verb) (.many argument)
  /-- At most one row of characters. -/
  | row (k : Keyword) (rule : Rule) (member : Char → Bool) :
      Body k (.optional (.token rule (.run member) nonempty?))
  /-- The name of a world and a place, of which either may be missing. -/
  | journey : Body (.verb .teleport) (.seq (.optional worldName) (.optional place))
  /-- A place. -/
  | destination : Body .warp place

theorem ignores_journey {mark : Char} (hmark : Text.isSeparator mark) :
    (seq (.optional worldName) (.optional place)).Ignores mark :=
  ⟨isAlphanum_of_isSeparator hmark, ignores_place hmark⟩

theorem cuts_journey : (seq (.optional worldName) (.optional place)).Cuts :=
  (cuts_worldName.optional grows_worldName).seq (cuts_place.optional grows_place)

theorem complete_journey
    (h : Leaves (.seq (.optional worldName) (.optional place)) text more left front)
    (hne : front ≠ []) :
    ∃ further, IsSolid further ∧
      TakesUp (.seq (.optional worldName) (.optional place)) (text ++ further) := by
  have htext := h.ne_nil hne
  have hread := h.read
  rw [rest?_seq] at hread
  obtain ⟨last, hworld, hplace⟩ := Option.bind_eq_some_iff.mp hread
  rcases exists_of_reach?_seq (h.reach hne) with hreach | ⟨middle, -, hmiddle, hskip, hreach⟩
  · exact absurd (eq_nil_of_reach?_token hreach) htext
  · rw [hworld, Option.some.injEq] at hmiddle
    subst hmiddle
    rw [hskip] at hplace
    have hblank : Text.skipBlanks middle ≠ [] := by
      have hle := h.length_le
      have hlength := (isSuffix_of_rest? hplace).length_le
      have hpos := List.length_pos_iff.mpr hne
      rw [List.length_append] at hlength
      exact List.length_pos_iff.mp (by omega)
    have hmiddle : middle ≠ [] := by
      rintro rfl
      exact hblank rfl
    obtain ⟨further, hsolid, hrest⟩ := exists_place_completion hblank hreach
    refine ⟨further, hsolid, [], ?_, rfl⟩
    rw [rest?_seq, rest?_optional_worldName hworld hmiddle further, Option.bind_some,
      hsolid.skipBlanks_after, rest?_optional, hrest, Option.getD_some]

theorem Leaves.skipBlanks_items {item : Grammar Rule α}
    (h : Leaves (.many item) text more left front) :
    Text.skipBlanks (items item (text ++ more)).2 = front ++ more := by
  rw [Option.some.inj ((rest?_many item).symm.trans h.read)]
  exact h.left

theorem explains_arguments {verb : Verb} {argument : Grammar Rule (Argument verb)}
    (h : Choices argument verb.forms) : Explains (.many argument) := by
  have horderly := orderly_forms verb
  have hprod := h.productive (takes_of_mem_forms verb)
  constructor
  · intro text more left front hleaves
    have hleft := hleaves.skipBlanks_items
    refine ⟨_, rest?_many argument, skipBlanks_items_of_append h horderly hprod hleft ?_⟩
    intro c hc
    have hne : front ≠ [] := List.ne_nil_of_mem (List.mem_of_getLast? hc)
    exact (leftover_of_reach?_many h horderly hprod (hleaves.reach hne) hleft hne).2 c hc
  · intro text more left front hleaves c hc
    have hne : front ≠ [] := List.ne_nil_of_mem (List.mem_of_mem_head? hc)
    obtain ⟨⟨d, hd, hmember⟩, -⟩ := leftover_of_reach?_many h horderly hprod
      (hleaves.reach hne) hleaves.skipBlanks_items hne
    obtain rfl : c = d := Option.mem_unique hc hd
    by_contra hseparator
    rw [isAddressChar_of_isSeparator (by simpa using hseparator)] at hmember
    cases hmember
  · intro text more left front hleaves hne _
    have hleft := hleaves.skipBlanks_items
    have hreach := hleaves.reach hne
    rcases narrow_or_address verb with hnarrow | haddress
    · obtain ⟨further, hsolid, hrest⟩ :=
        exists_items_completion h horderly hprod hnarrow hreach hleft hne
      exact ⟨further, hsolid, [], by rw [rest?_many, hrest], rfl⟩
    · exact absurd (eq_nil_of_address h horderly hprod haddress hreach hleft) hne

/-- A single row of characters is tried where it begins. -/
theorem explains_row (rule : Rule) (member : Char → Bool) :
    Explains (.optional (.token rule (.run member) nonempty?)) :=
  explains_of_cuts ((cuts_run _ _ _).optional (grows_row _ _)) fun _ _ h => eq_nil_of_reach?_token h

/-- **Bodies.** -/
theorem Body.explains {k : Keyword} {body : Grammar Rule β} (h : Body k body) : Explains body := by
  cases h with
  | arguments h => exact explains_arguments h
  | row k name member => exact explains_row name member
  | journey =>
      constructor
      · intro text more left front hleaves
        exact hleaves.cut_of_cuts cuts_journey
      · intro text more left front hleaves
        exact hleaves.stop_of_ignores fun _ => ignores_journey
      · intro text more left front hleaves hne _
        exact complete_journey hleaves hne
  | destination =>
      constructor
      · intro text more left front hleaves
        exact hleaves.cut_of_cuts cuts_place
      · intro text more left front hleaves
        exact hleaves.stop_of_ignores fun _ => ignores_place
      · intro text more left front hleaves hne _
        obtain ⟨further, hsolid, hrest⟩ :=
          exists_place_completion (hleaves.ne_nil hne) (hleaves.reach hne)
        exact ⟨further, hsolid, [], hrest, rfl⟩

/-- Nothing but a place can be missing behind a keyword, and a place stays one with more text
behind it. -/
theorem Body.total_or_grows {k : Keyword} {body : Grammar Rule β} (h : Body k body) :
    (∀ text, body.rest? text ≠ none) ∨ k = .warp ∧ body.Productive ∧ body.Grows := by
  cases h with
  | arguments h =>
      refine .inl fun text => ?_
      rw [rest?_many]
      exact Option.some_ne_none _
  | row k name member =>
      refine .inl fun text => ?_
      rw [rest?_optional]
      exact Option.some_ne_none _
  | journey =>
      refine .inl fun text => ?_
      rw [rest?_seq, rest?_optional, Option.bind_some, rest?_optional]
      exact Option.some_ne_none _
  | destination => exact .inr ⟨rfl, productive_place, grows_place⟩

/-! ## Clauses of keywords -/

/-- Behind the keyword of a clause stands a body, unless nothing can stand there. -/
theorem exists_body {k : Keyword} (hk : k ≠ .verb .examine) :
    ∃ (β : Type) (body : Grammar Rule β), Body k body ∧
      (∀ text, (namedClause k).rest? text = (seq (keyword k) body).rest? text) ∧
      ∀ text, (namedClause k).failures text =
        (rule (.command (.named k)) (seq (keyword k) body)).failures text := by
  cases k with
  | warp =>
      refine ⟨_, _, .destination, fun text => ?_, fun text => ?_⟩
      · simp only [namedClause, seqRight_eq_map, rest?_rule, rest?_map]
      · simp only [namedClause, seqRight_eq_map, failures_rule, rest?_map, failures_map]
  | verb verb =>
      by_cases hforms : verb.forms = []
      · -- the commands that read no row of arguments, each in its own way
        cases verb with
        | sound | url =>
            refine ⟨_, _, .row _ .resourceTarget Text.isAddressChar, fun text => ?_, fun text => ?_⟩
            · simp only [namedClause, verbArguments, oneArgument, sets, address, seqRight_eq_map,
                rest?_rule, rest?_map, rest?_seq, rest?_optional]
            · simp only [namedClause, verbArguments, oneArgument, sets, address, seqRight_eq_map,
                failures_rule, rest?_map, failures_map, rest?_seq, failures_seq, rest?_optional,
                failures_optional]
        | name =>
            refine ⟨_, _, .row _ .objectName Text.isNameChar, fun text => ?_, fun text => ?_⟩
            · simp only [namedClause, verbArguments, oneArgument, sets, objectName, word,
                seqRight_eq_map, rest?_rule, rest?_map, rest?_seq, rest?_optional]
            · simp only [namedClause, verbArguments, oneArgument, sets, objectName, word,
                seqRight_eq_map, failures_rule, rest?_map, failures_map, rest?_seq, failures_seq,
                rest?_optional, failures_optional]
        | teleport =>
            refine ⟨_, _, .journey, fun text => ?_, fun text => ?_⟩
            · simp only [namedClause, verbArguments, sets, seqRight_eq_map, rest?_rule, rest?_map,
                rest?_seq, rest?_optional]
            · simp only [namedClause, verbArguments, sets, seqRight_eq_map, failures_rule,
                rest?_map, failures_map, rest?_seq, failures_seq, rest?_optional,
                failures_optional]
        | examine => exact absurd rfl hk
        | _ => simp [Verb.forms, Verb.usages] at hforms
      · obtain ⟨argument, harguments, hchoices⟩ := exists_choices_forms hforms
        refine ⟨_, _, .arguments hchoices, fun text => ?_, fun text => ?_⟩
        · simp only [namedClause, harguments, manyArguments, seqRight_eq_map, rest?_rule, rest?_map]
        · simp only [namedClause, harguments, manyArguments, seqRight_eq_map, failures_rule,
            rest?_map, failures_map]

theorem rest?_keyword (k : Keyword) (text : List Char) :
    (keyword k).rest? text =
      if frontWord text = k.word.toList then some (text.dropWhile Text.isNameChar) else none := by
  unfold rest?
  rw [read?_keyword]
  split <;> rfl

theorem explains_word (name : Rule) (value? : String → Option α) : Explains (word name value?) :=
  explains_of_cuts (cuts_run _ _ _) fun _ _ h => eq_nil_of_reach?_token h

theorem explains_namedClause (k : Keyword) : Explains (namedClause k) := by
  by_cases hk : k = .verb .examine
  · subst hk
    exact (((explains_word _ _).map _).map _).rule _
  · obtain ⟨β, body, hbody, hrest, hfailures⟩ := exists_body hk
    have hseq : Explains (seq (keyword k) body) := hbody.explains.seq_word _ _
    exact (hseq.rule (.command (.named k))).congr hrest fun text => reach?_congr (hfailures text)

/-- The clause of another word fails where it begins. -/
theorem reach?_namedClause_of_ne {k : Keyword} (h : frontWord text ≠ k.word.toList) :
    (namedClause k).reach? text = some text.length := by
  have hrest : (keyword k).rest? text = none := by
    rw [rest?_keyword, if_neg h]
  have hreach : (keyword k).reach? text = some text.length := by
    rw [keyword, word, reach?_token_of_rest?, ← word, ← keyword, hrest]
    rfl
  by_cases hk : k = .verb .examine
  · subst hk
    rw [namedClause, verbArguments, reach?_rule, rest?_map, rest?_map, hrest, reach?_map,
      reach?_map, hreach]
    rfl
  · obtain ⟨β, body, -, -, hfailures⟩ := exists_body hk
    rw [reach?_congr (hfailures text), reach?_rule, rest?_seq, hrest, reach?_seq, hrest, hreach]
    rfl

/-- The furthest attempt of a clause is where it begins or in the clause of its keyword. -/
theorem exists_of_reach?_clause {n : Nat} (h : clause.reach? text = some n) :
    n = text.length ∨ ∃ k : Keyword, frontWord text = k.word.toList ∧
      (namedClause k).reach? text = some n := by
  unfold clause at h
  generalize Keyword.all = keywords at h
  induction keywords with
  | nil =>
      rw [List.foldr_nil, invalidClause, reach?_map, reach?_token] at h
      split at h
      · cases h
      · exact .inl (Option.some.inj h).symm
  | cons k keywords ih =>
      rcases exists_of_reach?_choice h with hnamed | ⟨-, hrest⟩
      · by_cases hword : frontWord text = k.word.toList
        · exact .inr ⟨k, hword, hnamed⟩
        · rw [reach?_namedClause_of_ne hword] at hnamed
          exact .inl (Option.some.inj hnamed).symm
      · exact ih hrest

/-! ## Clauses that are not understood -/

/-- What is left behind a clause that is not understood begins with a separator. -/
theorem skipBlanks_rest_invalidPhrase (text : List Char) :
    Text.skipBlanks (invalidPhrase.rest text) = text.dropWhile fun c => !Text.isSeparator c := by
  have hsplit := List.takeWhile_append_dropWhile (p := fun c => !Text.isSeparator c) (l := text)
  obtain ⟨blanks, hblanks, htrim⟩ :=
    Text.trimRight_append (text.takeWhile fun c => !Text.isSeparator c)
  have hrest : invalidPhrase.rest text = blanks ++ text.dropWhile fun c => !Text.isSeparator c := by
    have hpiece := invalidPhrase.piece_append_rest text
    rw [← htrim, List.append_assoc] at hsplit
    exact List.append_cancel_left (hpiece.trans hsplit.symm)
  rw [hrest, Text.skipBlanks_append_of_eq_nil (Text.skipBlanks_eq_nil_iff.mpr hblanks)]
  refine Text.skipBlanks_eq_self fun c hc => ?_
  have hseparator := head?_dropWhile text c hc
  exact isBlank_of_isSeparator (by simpa using hseparator)

theorem rest?_invalidClause (text : List Char) :
    invalidClause.rest? text =
      if invalidPhrase.piece text = [] then none else some (invalidPhrase.rest text) := by
  unfold rest?
  rw [read?_invalidClause]
  split <;> rfl

/-- Behind a clause that is not understood stands the next separator. -/
theorem dropWhile_of_invalidClause (hread : invalidClause.rest? (text ++ more) = some left)
    (hleft : Text.skipBlanks left = front ++ more) :
    (text ++ more).dropWhile (fun c => !Text.isSeparator c) = front ++ more := by
  rw [rest?_invalidClause] at hread
  split at hread
  · cases hread
  · rw [← skipBlanks_rest_invalidPhrase, Option.some.inj hread, hleft]

/-- A clause that is not understood does not need the end of the text. -/
theorem rest?_invalidClause_of_append (hread : invalidClause.rest? (text ++ more) = some left)
    (hdrop : (text ++ more).dropWhile (fun c => !Text.isSeparator c) = front ++ more) :
    ∃ last, invalidClause.rest? text = some last ∧ Text.skipBlanks last = front := by
  have hpiece : invalidPhrase.piece text = invalidPhrase.piece (text ++ more) :=
    congrArg Text.trimRight (takeWhile_of_dropWhile_append hdrop)
  rw [rest?_invalidClause] at hread
  refine ⟨invalidPhrase.rest text, ?_, ?_⟩
  · rw [rest?_invalidClause, hpiece]
    split at hread
    · cases hread
    · next hne => exact if_neg hne
  · rw [skipBlanks_rest_invalidPhrase, dropWhile_of_append hdrop]

/-- The word at the front ends before the next separator. -/
theorem dropWhile_isNameChar_of_separator
    (h : (text ++ more).dropWhile (fun c => !Text.isSeparator c) = front ++ more) :
    (text ++ more).dropWhile Text.isNameChar = text.dropWhile Text.isNameChar ++ more := by
  have hnarrow (c : Char) (hc : Text.isNameChar c = true) : (!Text.isSeparator c) = true := by
    cases hseparator : Text.isSeparator c with
    | false => rfl
    | true => exact absurd hc (by simp [isNameChar_of_isSeparator hseparator])
  have hle := Text.length_dropWhile_le_of_imp hnarrow (text ++ more)
  rw [h, List.length_append] at hle
  have hsuffix : (text ++ more).dropWhile Text.isNameChar <:+ text ++ more :=
    List.dropWhile_suffix _
  obtain ⟨rest, hrest, -⟩ := exists_append_of_isSuffix hsuffix (by omega)
  rw [hrest, dropWhile_of_append hrest]

/-! ## Clauses -/

/-- What is read as the clause of a keyword begins with that keyword. -/
theorem frontWord_of_rest? {k : Keyword} {rest : List Char}
    (h : (namedClause k).rest? text = some rest) : frontWord text = k.word.toList := by
  by_contra hne
  rw [rest?, read?_namedClause_of_ne hne] at h
  cases h

theorem rest?_clause_of_rest? {k : Keyword} {rest : List Char}
    (h : (namedClause k).rest? text = some rest) : clause.rest? text = some rest := by
  obtain ⟨value, hread⟩ := exists_read?_of_rest? h
  exact rest?_of_read? (read?_clause_of_frontWord (frontWord_of_rest? h) hread)

/-- Where no keyword is followed by what belongs to it the clause is not understood. -/
theorem rest?_clause_of_none (h : ∀ k, (namedClause k).rest? text = none) :
    clause.rest? text = invalidClause.rest? text := by
  unfold clause
  generalize Keyword.all = keywords
  induction keywords with
  | nil => rfl
  | cons k keywords ih =>
      rw [List.foldr_cons, orElse_eq_choice, rest?_choice, h k, Option.none_or, ih]

/-- No keyword stands at the front of a text without a word. -/
theorem takeWhile_ne_nil_of_frontWord {k : Keyword} (h : frontWord text = k.word.toList) :
    text.takeWhile Text.isNameChar ≠ [] := by
  intro hnil
  have hsplit := List.takeWhile_append_dropWhile (p := Text.isNameChar) (l := text)
  rw [hnil, List.nil_append] at hsplit
  have hread := rest?_keyword k text
  rw [if_pos h, hsplit] at hread
  exact Nat.lt_irrefl _ ((productive_keyword k).length_lt hread)

theorem takeWhile_isNameChar_of_blank
    (h : (text.takeWhile fun c => !Text.isSeparator c).all Text.isBlank) :
    text.takeWhile Text.isNameChar = [] := by
  cases text with
  | nil => rfl
  | cons d behind =>
      cases hd : Text.isNameChar d with
      | false => rw [List.takeWhile_cons_of_neg (by simp [hd])]
      | true =>
          have hblank := isBlank_of_isAddressChar (isAddressChar_of_isNameChar hd)
          have hseparator : Text.isSeparator d = false := by
            by_contra hmark
            rw [isNameChar_of_isSeparator (by simpa using hmark)] at hd
            cases hd
          simp [hseparator, hblank] at h

/-- A clause fails where nothing but blanks stands before the next separator. -/
theorem rest?_clause_eq_none_iff :
    clause.rest? text = none ↔ (text.takeWhile fun c => !Text.isSeparator c).all Text.isBlank := by
  have hinvalid : invalidClause.rest? text = none ↔
      (text.takeWhile fun c => !Text.isSeparator c).all Text.isBlank := by
    rw [rest?_invalidClause, ← Text.trimRight_eq_nil_iff, invalidPhrase, Lexeme.piece]
    split <;> simp_all
  by_cases hnamed : ∃ k rest, (namedClause k).rest? text = some rest
  · obtain ⟨k, rest, hrest⟩ := hnamed
    rw [rest?_clause_of_rest? hrest]
    constructor
    · intro h
      cases h
    · intro h
      have hword := takeWhile_ne_nil_of_frontWord (frontWord_of_rest? hrest)
      exact absurd (takeWhile_isNameChar_of_blank h) hword
  · have hnone (k : Keyword) : (namedClause k).rest? text = none := by
      by_contra hsome
      exact hnamed ⟨k, Option.ne_none_iff_exists'.mp hsome⟩
    rw [rest?_clause_of_none hnone, hinvalid]

/-- A clause that fails does so where it begins. -/
theorem length_le_of_clause (h : clause.rest? text = none) {n : Nat}
    (hreach : clause.reach? text = some n) : text.length ≤ n := by
  rcases exists_of_reach?_clause hreach with rfl | ⟨k, hword, -⟩
  · exact Nat.le_refl _
  · have hblank := takeWhile_isNameChar_of_blank (rest?_clause_eq_none_iff.mp h)
    exact absurd hblank (takeWhile_ne_nil_of_frontWord hword)

/-- A clause that is not understood stays so without the end of the text. -/
theorem rest?_namedClause_of_append {k : Keyword}
    (hdrop : (text ++ more).dropWhile Text.isNameChar = text.dropWhile Text.isNameChar ++ more)
    (h : (namedClause k).rest? (text ++ more) = none) : (namedClause k).rest? text = none := by
  by_contra hsome
  obtain ⟨rest, hrest⟩ := Option.ne_none_iff_exists'.mp hsome
  have hword : frontWord (text ++ more) = frontWord text := by
    rw [frontWord, frontWord, takeWhile_of_dropWhile_append hdrop]
  by_cases hk : k = .verb .examine
  · subst hk
    rw [namedClause, verbArguments, rest?_rule, rest?_map, rest?_map, rest?_keyword] at hrest h
    rw [hword] at h
    split at hrest <;> simp_all
  · obtain ⟨β, body, hbody, heq, -⟩ := exists_body hk
    rw [heq, rest?_seq, rest?_keyword] at h hrest
    rw [hword, hdrop] at h
    split at hrest
    · rw [if_pos ‹_›, Option.bind_some] at h
      rw [Option.bind_some] at hrest
      rcases hbody.total_or_grows with htotal | ⟨-, hprod, hgrows⟩
      · exact htotal _ h
      · rw [Text.skipBlanks_append_of_ne_nil (hprod.ne_nil hrest)] at h
        exact hgrows hrest more h
    · cases hrest

/-- Only a place can be missing behind a keyword. -/
theorem eq_warp_of_rest? {k : Keyword} (hword : frontWord text = k.word.toList)
    (h : (namedClause k).rest? text = none) : k = .warp := by
  by_cases hk : k = .verb .examine
  · subst hk
    rw [namedClause, verbArguments, rest?_rule, rest?_map, rest?_map, rest?_keyword,
      if_pos hword] at h
    cases h
  · obtain ⟨β, body, hbody, heq, -⟩ := exists_body hk
    rw [heq, rest?_seq, rest?_keyword, if_pos hword, Option.bind_some] at h
    rcases hbody.total_or_grows with htotal | ⟨hwarp, -⟩
    · exact absurd h (htotal _)
    · exact hwarp

theorem ignores_warp {mark : Char} (hmark : Text.isSeparator mark) :
    (namedClause .warp).Ignores mark :=
  ⟨ignores_keyword hmark _, ignores_place hmark⟩

/-- What is left behind a clause is left behind the clause of a keyword, or no clause of a keyword
is read and nothing is left in front of the end of the text. -/
theorem Leaves.exists_namedClause (h : Leaves clause text more left front) :
    (∃ k, Leaves (namedClause k) text more left front) ∨
      invalidClause.rest? (text ++ more) = some left ∧ front = [] ∧
        ∀ k, (namedClause k).rest? (text ++ more) = none := by
  by_cases hnamed : ∃ k rest, (namedClause k).rest? (text ++ more) = some rest
  · obtain ⟨k, rest, hrest⟩ := hnamed
    have hread := h.read
    rw [rest?_clause_of_rest? hrest, Option.some.injEq] at hread
    subst hread
    refine .inl ⟨k, hrest, h.left, fun hne => ?_⟩
    rcases exists_of_reach?_clause (h.reach hne) with hlength | ⟨l, hword, hreach⟩
    · have hpos := List.length_pos_iff.mpr (h.ne_nil hne)
      rw [List.length_append] at hlength
      omega
    · have heq := (frontWord_of_rest? hrest).symm.trans hword
      obtain rfl := Keyword.word_injective (String.toList_inj.mp heq)
      exact hreach
  · have hnone (k : Keyword) : (namedClause k).rest? (text ++ more) = none := by
      by_contra hsome
      exact hnamed ⟨k, Option.ne_none_iff_exists'.mp hsome⟩
    have hread := h.read
    rw [rest?_clause_of_none hnone] at hread
    refine .inr ⟨hread, ?_, hnone⟩
    by_contra hne
    rcases exists_of_reach?_clause (h.reach hne) with hlength | ⟨k, hword, hreach⟩
    · have hpos := List.length_pos_iff.mpr (h.ne_nil hne)
      rw [List.length_append] at hlength
      omega
    · -- only a place can be missing, and nothing is tried in a place behind a separator
      obtain rfl := eq_warp_of_rest? hword (hnone k)
      obtain ⟨c, behind, rfl⟩ := List.exists_cons_of_ne_nil hne
      have hstop := not_isSeparator_of_reach? (fun _ => ignores_warp) hreach h.isSuffix c rfl
      have hhead := congrArg List.head? (dropWhile_of_invalidClause hread h.left)
      have hseparator := head?_dropWhile (text ++ more) c hhead
      rw [hstop] at hseparator
      cases hseparator

/-- **Clauses.**  The furthest attempt of a clause tells what could have followed. -/
theorem explains_clause : Explains clause where
  cut text more left front h := by
    rcases h.exists_namedClause with ⟨k, hk⟩ | ⟨hread, rfl, hnone⟩
    · obtain ⟨last, hlast, hfront⟩ := (explains_namedClause k).cut hk
      exact ⟨last, rest?_clause_of_rest? hlast, hfront⟩
    · have hdrop := dropWhile_of_invalidClause hread h.left
      have hword := dropWhile_isNameChar_of_separator hdrop
      rw [rest?_clause_of_none fun k => rest?_namedClause_of_append hword (hnone k)]
      exact rest?_invalidClause_of_append hread hdrop
  stop text more left front h := by
    rcases h.exists_namedClause with ⟨k, hk⟩ | ⟨-, rfl, -⟩
    · exact (explains_namedClause k).stop hk
    · simp
  complete text more left front h hne hskip := by
    rcases h.exists_namedClause with ⟨k, hk⟩ | ⟨-, rfl, -⟩
    · obtain ⟨further, hsolid, last, hlast, hblank⟩ :=
        (explains_namedClause k).complete hk hne hskip
      exact ⟨further, hsolid, last, rest?_clause_of_rest? hlast, hblank⟩
    · exact absurd rfl hne

end ObjectActions.Script
