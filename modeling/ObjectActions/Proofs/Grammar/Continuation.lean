import ObjectActions.Proofs.Grammar.Locality
import ObjectActions.Proofs.Grammar.Reach

/-!
# Texts that are cut off or continued in another way

What is read at the front of a text is mostly known before the end of the text.  Three
statements make this precise, and most grammars satisfy all of them:

* `Cuts`: what was read without touching the end of a text is read without that end too;
* `Grows`: what can be read can be read with more text behind it, if not to the same place;
* `Keeps`: what can be read is read to the same place whatever stands behind it;
* `Foresees`: as long as no attempt fails at the end or in it, the end decides nothing, and
  with any other end the same is read.

Words satisfy none of them, since a word is another word with a letter behind it.
-/

namespace ObjectActions.Grammar

variable {ρ α β : Type} {text more rest : List Char}

/-- What is read before the end of a text does not need this end. -/
def Cuts (grammar : Grammar ρ α) : Prop :=
  ∀ ⦃text more rest⦄, grammar.rest? (text ++ more) = some (rest ++ more) →
    grammar.rest? text = some rest

/-- What can be read can be read with more text behind it. -/
def Grows (grammar : Grammar ρ α) : Prop :=
  ∀ ⦃text rest⦄, grammar.rest? text = some rest → ∀ more, grammar.rest? (text ++ more) ≠ none

/-- What can be read is read to the same place with more text behind it. -/
def Keeps (grammar : Grammar ρ α) : Prop :=
  ∀ ⦃text rest⦄, grammar.rest? text = some rest →
    ∀ more, grammar.rest? (text ++ more) = some (rest ++ more)

/-- Whether no attempt fails at the end of a text or in it. -/
def Quiet (grammar : Grammar ρ α) (more text : List Char) : Prop :=
  ∀ n ∈ grammar.reach? text, more.length < n

/-- Where no attempt fails at the end of a text, the end decides nothing. -/
structure Foresees (grammar : Grammar ρ α) : Prop where
  read : ∀ ⦃text more rest⦄, grammar.rest? (text ++ more) = some (rest ++ more) → rest ≠ [] →
    grammar.Quiet more (text ++ more) →
      ∀ other, grammar.rest? (text ++ other) = some (rest ++ other)
  refuse : ∀ ⦃text more⦄, grammar.rest? (text ++ more) = none →
    grammar.Quiet more (text ++ more) → ∀ other, grammar.rest? (text ++ other) = none

/-- Whether a failure is always reported. -/
def Reports (grammar : Grammar ρ α) : Prop :=
  ∀ ⦃text⦄, grammar.rest? text = none → grammar.reach? text ≠ none

/-! ## Ends of texts -/

theorem exists_append_of_isSuffix (h : rest <:+ text ++ more) (hle : more.length ≤ rest.length) :
    ∃ front, rest = front ++ more ∧ front <:+ text := by
  have hmore : more <:+ rest :=
    List.suffix_of_suffix_length_le (List.suffix_append text more) h hle
  obtain ⟨front, rfl⟩ := hmore
  obtain ⟨taken, htaken⟩ := h
  rw [← List.append_assoc] at htaken
  exact ⟨front, rfl, taken, List.append_cancel_right htaken⟩

theorem length_lt_of_eq_append {front : List Char} (h : rest = front ++ more) (hne : front ≠ []) :
    more.length < rest.length := by
  have hpos := List.length_pos_iff.mpr hne
  rw [h, List.length_append]
  omega

/-- A text is cut before its last characters. -/
theorem exists_append_of_le_length {n : Nat} (h : n ≤ text.length) :
    ∃ before more, text = before ++ more ∧ more.length = n := by
  refine ⟨text.take (text.length - n), text.drop (text.length - n), ?_, ?_⟩
  · exact (List.take_append_drop _ _).symm
  · rw [List.length_drop]
    omega

/-- What is read goes up to the end of the text or stops before it. -/
theorem exists_append_of_rest? {grammar : Grammar ρ α}
    (h : grammar.rest? (text ++ more) = some rest) (hle : more.length ≤ rest.length) :
    ∃ front, rest = front ++ more ∧ front <:+ text :=
  exists_append_of_isSuffix (isSuffix_of_rest? h) hle

theorem skipBlanks_eq_of_length_le (h : text.length ≤ (Text.skipBlanks text).length) :
    Text.skipBlanks text = text :=
  (skipBlanks_isSuffix text).eq_of_length_le h

theorem skipBlanks_append_of_length_le
    (h : more.length ≤ (Text.skipBlanks (text ++ more)).length) :
    Text.skipBlanks (text ++ more) = Text.skipBlanks text ++ more := by
  by_cases hnil : Text.skipBlanks text = []
  · rw [Text.skipBlanks_append_of_eq_nil hnil] at h ⊢
    rw [hnil, List.nil_append, skipBlanks_eq_of_length_le h]
  · exact Text.skipBlanks_append_of_ne_nil hnil more

/-- A text that is longer than its end, apart from blanks, does not hold blanks alone before it. -/
theorem skipBlanks_ne_nil_of_length_lt (more : List Char)
    (h : more.length < (Text.skipBlanks (text ++ more)).length) : Text.skipBlanks text ≠ [] := by
  intro hnil
  rw [Text.skipBlanks_append_of_eq_nil hnil] at h
  have hle := Text.length_skipBlanks_le more
  omega

/-- Whether a text begins with a blank does not depend on its end. -/
theorem skipBlanks_append_of_self (hne : text ≠ [])
    (h : Text.skipBlanks (text ++ more) = text ++ more) (other : List Char) :
    Text.skipBlanks (text ++ other) = text ++ other := by
  obtain ⟨c, text, rfl⟩ := List.exists_cons_of_ne_nil hne
  have hhead := Text.isBlank_head_skipBlanks (c :: text ++ more) c
  rw [h] at hhead
  exact Text.skipBlanks_cons_of_not (hhead rfl) _

theorem lt_merge_iff {first second : Option Nat} {k : Nat} :
    (∀ n ∈ Option.merge min first second, k < n) ↔ (∀ n ∈ first, k < n) ∧ ∀ n ∈ second, k < n := by
  cases first with
  | none => simp
  | some a =>
      cases second with
      | none => simp
      | some b => simpa only [Option.merge_some_some, Option.mem_some, forall_eq'] using Nat.lt_min

theorem Quiet.of_join {first : Grammar ρ α} {second : Grammar ρ β} {middle : List Char}
    (h : (join first second).Quiet more text) (hfirst : first.rest? text = some middle) :
    first.Quiet more text ∧ second.Quiet more middle := by
  unfold Quiet at h ⊢
  rw [reach?_join, hfirst, Option.bind_some] at h
  exact lt_merge_iff.mp h

theorem Quiet.of_seq {first : Grammar ρ α} {second : Grammar ρ β} {middle : List Char}
    (h : (seq first second).Quiet more text) (hfirst : first.rest? text = some middle) :
    first.Quiet more text ∧ second.Quiet more (Text.skipBlanks middle) := by
  unfold Quiet at h ⊢
  rw [reach?_seq, hfirst, Option.bind_some] at h
  exact lt_merge_iff.mp h

theorem Quiet.of_join_of_none {first : Grammar ρ α} {second : Grammar ρ β}
    (h : (join first second).Quiet more text) (hfirst : first.rest? text = none) :
    first.Quiet more text := by
  intro n hn
  apply h
  rw [reach?_join, hfirst, Option.mem_def.mp hn]
  rfl

theorem Quiet.of_seq_of_none {first : Grammar ρ α} {second : Grammar ρ β}
    (h : (seq first second).Quiet more text) (hfirst : first.rest? text = none) :
    first.Quiet more text := by
  intro n hn
  apply h
  rw [reach?_seq, hfirst, Option.mem_def.mp hn]
  rfl

/-- What fails quietly has failed before the end of the text. -/
theorem Reports.lt_length {grammar : Grammar ρ α} (h : grammar.Reports)
    (hnone : grammar.rest? text = none) (hquiet : grammar.Quiet more text) :
    more.length < text.length := by
  obtain ⟨n, hn⟩ := Option.ne_none_iff_exists'.mp (h hnone)
  have hle := grammar.reach?_le_length hn
  have hlt := hquiet n hn
  omega

/-! ## Parts that are read without their end -/

theorem Cuts.rule {body : Grammar ρ α} (h : body.Cuts) (name : ρ) : (rule name body).Cuts := h

theorem Cuts.map {body : Grammar ρ α} (h : body.Cuts) (f : α → β) : (map f body).Cuts := by
  intro text more rest hrest
  rw [rest?_map] at hrest ⊢
  exact h hrest

theorem Cuts.join {first : Grammar ρ α} {second : Grammar ρ β} (hfirst : first.Cuts)
    (hsecond : second.Cuts) : (join first second).Cuts := by
  intro text more rest h
  rw [rest?_join] at h ⊢
  obtain ⟨middle, hmiddle, hrest⟩ := Option.bind_eq_some_iff.mp h
  have hlength := (isSuffix_of_rest? hrest).length_le
  rw [List.length_append] at hlength
  obtain ⟨front, rfl, -⟩ := exists_append_of_rest? hmiddle (by omega)
  rw [hfirst hmiddle, Option.bind_some, hsecond hrest]

theorem Cuts.seq {first : Grammar ρ α} {second : Grammar ρ β} (hfirst : first.Cuts)
    (hsecond : second.Cuts) : (seq first second).Cuts := by
  intro text more rest h
  rw [rest?_seq] at h ⊢
  obtain ⟨middle, hmiddle, hrest⟩ := Option.bind_eq_some_iff.mp h
  have hlength := (isSuffix_of_rest? hrest).length_le
  have hskip := Text.length_skipBlanks_le middle
  rw [List.length_append] at hlength
  obtain ⟨front, rfl, -⟩ := exists_append_of_rest? hmiddle (by omega)
  rw [hfirst hmiddle, Option.bind_some]
  by_cases hfront : Text.skipBlanks front = []
  · -- the second part begins at the end of the text, so it takes nothing
    rw [Text.skipBlanks_append_of_eq_nil hfront] at hrest hlength
    have hmore := Text.length_skipBlanks_le more
    have hnil : rest = [] := List.length_eq_zero_iff.mp (by omega)
    subst hnil
    rw [skipBlanks_eq_of_length_le (by omega)] at hrest
    rw [hfront]
    exact hsecond hrest
  · rw [Text.skipBlanks_append_of_ne_nil hfront] at hrest
    exact hsecond hrest

theorem Cuts.choice {first second : Grammar ρ α} (hfirst : first.Cuts) (hsecond : second.Cuts)
    (hgrows : first.Grows) : (choice first second).Cuts := by
  intro text more rest h
  rw [rest?_choice] at h ⊢
  cases hread : first.rest? (text ++ more) with
  | some last =>
      rw [hread, Option.some_or, Option.some.injEq] at h
      rw [hfirst (h ▸ hread), Option.some_or]
  | none =>
      -- the first alternative cannot be read without the end of the text either
      rw [hread, Option.none_or] at h
      cases hcut : first.rest? text with
      | none => rw [Option.none_or, hsecond h]
      | some last => exact absurd hread (hgrows hcut more)

theorem Cuts.optional {body : Grammar ρ α} (h : body.Cuts) (hgrows : body.Grows) :
    body.optional.Cuts := by
  intro text more rest hrest
  rw [rest?_optional, Option.some.injEq] at hrest ⊢
  cases hread : body.rest? (text ++ more) with
  | some last =>
      rw [hread, Option.getD_some] at hrest
      rw [h (hrest ▸ hread), Option.getD_some]
  | none =>
      rw [hread, Option.getD_none] at hrest
      cases hcut : body.rest? text with
      | none => exact List.append_cancel_right hrest
      | some last => exact absurd hread (hgrows hcut more)

theorem Cuts.many {item : Grammar ρ α} (h : item.Cuts) (hgrows : item.Grows)
    (hprod : item.Productive) : (many item).Cuts := by
  intro text more rest hrest
  rw [rest?_many, Option.some.injEq] at hrest ⊢
  -- the induction is on the items of the whole text: each of them ends before the end of the text
  generalize hwhole : text ++ more = whole at hrest
  induction whole using hprod.items_induction generalizing text with
  | stop whole hstop =>
      subst hwhole
      have hnone := rest?_eq_none_iff.mpr hstop
      rw [items_snd_of_none hnone] at hrest
      have hnone' : item.rest? (Text.skipBlanks text) = none := by
        by_cases hblank : Text.skipBlanks text = []
        · rw [hblank]
          exact rest?_eq_none_iff.mpr hprod.read?_nil
        · rw [Text.skipBlanks_append_of_ne_nil hblank] at hnone
          cases hcut : item.rest? (Text.skipBlanks text) with
          | none => rfl
          | some last => exact absurd hnone (hgrows hcut more)
      rw [items_snd_of_none hnone', List.append_cancel_right hrest]
  | step whole value last hread ih =>
      subst hwhole
      have hsome := rest?_of_read? hread
      rw [items_snd_of_some hprod hsome] at hrest
      have hle := (items_isSuffix item last).length_le
      rw [hrest, List.length_append] at hle
      have hlt := hprod hread
      have hblank : Text.skipBlanks text ≠ [] := skipBlanks_ne_nil_of_length_lt more (by omega)
      rw [Text.skipBlanks_append_of_ne_nil hblank] at hsome
      obtain ⟨front, rfl, -⟩ := exists_append_of_rest? hsome (by omega)
      rw [items_snd_of_some hprod (h hsome)]
      exact ih rfl hrest

/-! ## Parts that foresee what follows -/

theorem Foresees.map {body : Grammar ρ α} (h : body.Foresees) (f : α → β) :
    (map f body).Foresees where
  read text more rest hrest hne hquiet other := by
    rw [rest?_map] at hrest ⊢
    exact h.read hrest hne hquiet other
  refuse text more hnone hquiet other := by
    rw [rest?_map] at hnone ⊢
    exact h.refuse hnone hquiet other

theorem Quiet.of_rule {body : Grammar ρ α} {name : ρ} (h : (rule name body).Quiet more text) :
    body.Quiet more text := by
  intro n hn
  refine h n ?_
  rw [reach?_rule, Option.mem_def.mp hn]
  split <;> rfl

theorem Foresees.rule {body : Grammar ρ α} (h : body.Foresees) (name : ρ) :
    (rule name body).Foresees where
  read _ _ _ hrest hne hquiet other := h.read hrest hne hquiet.of_rule other
  refuse _ _ hnone hquiet other := h.refuse hnone hquiet.of_rule other

theorem Reports.rule (name : ρ) (body : Grammar ρ α) : (rule name body).Reports := by
  intro text hnone
  rw [rest?_rule] at hnone
  rw [reach?_rule, hnone]
  simp

theorem reports_token (name : ρ) (lexeme : Lexeme) (value? : String → Option α) :
    (token name lexeme value?).Reports := by
  intro text hnone
  rw [rest?_token] at hnone
  rw [reach?_token]
  split at hnone
  · cases hnone
  · next h => simp [h]

theorem reports_many (item : Grammar ρ α) : (many item).Reports := by
  intro text hnone
  rw [rest?_many] at hnone
  cases hnone

theorem Foresees.join {first : Grammar ρ α} {second : Grammar ρ β} (hfirst : first.Foresees)
    (hsecond : second.Foresees) (hreports : second.Reports) : (join first second).Foresees where
  read text more rest h hne hquiet other := by
    rw [rest?_join] at h ⊢
    obtain ⟨middle, hmiddle, hrest⟩ := Option.bind_eq_some_iff.mp h
    obtain ⟨hquiet, hquiet'⟩ := hquiet.of_join hmiddle
    have hsuffix := isSuffix_of_rest? hrest
    have hlength := hsuffix.length_le
    rw [List.length_append] at hlength
    -- the first part ends before the end of the text, since the second one does
    obtain ⟨front, rfl, -⟩ := exists_append_of_rest? hmiddle (by omega)
    have hfront : front ≠ [] := by
      rintro rfl
      have hpos := List.length_pos_iff.mpr hne
      rw [List.nil_append] at hlength
      omega
    rw [hfirst.read hmiddle hfront hquiet other, Option.bind_some]
    exact hsecond.read hrest hne hquiet' other
  refuse text more h hquiet other := by
    rw [rest?_join] at h ⊢
    cases hmiddle : first.rest? (text ++ more) with
    | none =>
        rw [hfirst.refuse hmiddle (hquiet.of_join_of_none hmiddle) other]
        rfl
    | some middle =>
        rw [hmiddle, Option.bind_some] at h
        -- the second part has failed, so it was tried before the end of the text
        obtain ⟨hquiet, hquiet'⟩ := hquiet.of_join hmiddle
        have hlt := hreports.lt_length h hquiet'
        obtain ⟨front, rfl, -⟩ := exists_append_of_rest? hmiddle (by omega)
        have hfront : front ≠ [] := by
          rintro rfl
          simp at hlt
        rw [hfirst.read hmiddle hfront hquiet other, Option.bind_some]
        exact hsecond.refuse h hquiet' other

theorem Foresees.seq {first : Grammar ρ α} {second : Grammar ρ β} (hfirst : first.Foresees)
    (hsecond : second.Foresees) (hreports : second.Reports) : (seq first second).Foresees where
  read text more rest h hne hquiet other := by
    rw [rest?_seq] at h ⊢
    obtain ⟨middle, hmiddle, hrest⟩ := Option.bind_eq_some_iff.mp h
    obtain ⟨hquiet, hquiet'⟩ := hquiet.of_seq hmiddle
    have hlength := (isSuffix_of_rest? hrest).length_le
    have hskip := Text.length_skipBlanks_le middle
    have hpos := List.length_pos_iff.mpr hne
    rw [List.length_append] at hlength
    obtain ⟨front, rfl, -⟩ := exists_append_of_rest? hmiddle (by omega)
    have hfront : Text.skipBlanks front ≠ [] := skipBlanks_ne_nil_of_length_lt more (by omega)
    have hne' : front ≠ [] := by
      rintro rfl
      exact hfront rfl
    rw [Text.skipBlanks_append_of_ne_nil hfront] at hrest hquiet'
    rw [hfirst.read hmiddle hne' hquiet other, Option.bind_some,
      Text.skipBlanks_append_of_ne_nil hfront]
    exact hsecond.read hrest hne hquiet' other
  refuse text more h hquiet other := by
    rw [rest?_seq] at h ⊢
    cases hmiddle : first.rest? (text ++ more) with
    | none =>
        rw [hfirst.refuse hmiddle (hquiet.of_seq_of_none hmiddle) other]
        rfl
    | some middle =>
        rw [hmiddle, Option.bind_some] at h
        -- as above, and it did not begin behind the blanks at the end either
        obtain ⟨hquiet, hquiet'⟩ := hquiet.of_seq hmiddle
        have hlt := hreports.lt_length h hquiet'
        have hskip := Text.length_skipBlanks_le middle
        obtain ⟨front, rfl, -⟩ := exists_append_of_rest? hmiddle (by omega)
        have hfront : Text.skipBlanks front ≠ [] := skipBlanks_ne_nil_of_length_lt more (by omega)
        have hne : front ≠ [] := by
          rintro rfl
          exact hfront rfl
        rw [Text.skipBlanks_append_of_ne_nil hfront] at h hquiet'
        rw [hfirst.read hmiddle hne hquiet other, Option.bind_some,
          Text.skipBlanks_append_of_ne_nil hfront]
        exact hsecond.refuse h hquiet' other

theorem Quiet.of_choice {first second : Grammar ρ α} (h : (choice first second).Quiet more text) :
    first.Quiet more text ∧ (first.rest? text = none → second.Quiet more text) := by
  unfold Quiet at h
  rw [reach?_choice, lt_merge_iff] at h
  refine ⟨h.1, fun hnone n hn => h.2 n ?_⟩
  rw [hnone]
  exact hn

theorem Foresees.choice {first second : Grammar ρ α} (hfirst : first.Foresees)
    (hsecond : second.Foresees) : (choice first second).Foresees where
  read text more rest h hne hquiet other := by
    rw [rest?_choice] at h ⊢
    cases hread : first.rest? (text ++ more) with
    | some last =>
        rw [hread, Option.some_or, Option.some.injEq] at h
        rw [hfirst.read (h ▸ hread) hne hquiet.of_choice.1 other, Option.some_or]
    | none =>
        rw [hread, Option.none_or] at h
        rw [hfirst.refuse hread hquiet.of_choice.1 other, Option.none_or]
        exact hsecond.read h hne (hquiet.of_choice.2 hread) other
  refuse text more h hquiet other := by
    rw [rest?_choice, Option.or_eq_none_iff] at h ⊢
    exact ⟨hfirst.refuse h.1 hquiet.of_choice.1 other,
      hsecond.refuse h.2 (hquiet.of_choice.2 h.1) other⟩

theorem Foresees.optional {body : Grammar ρ α} (h : body.Foresees) : body.optional.Foresees where
  read text more rest hrest hne hquiet other := by
    rw [rest?_optional, Option.some.injEq] at hrest ⊢
    cases hread : body.rest? (text ++ more) with
    | some last =>
        rw [hread, Option.getD_some] at hrest
        rw [h.read (hrest ▸ hread) hne hquiet other, Option.getD_some]
    | none =>
        rw [hread, Option.getD_none] at hrest
        rw [h.refuse hread hquiet other, Option.getD_none, List.append_cancel_right hrest]
  refuse text more hnone _ _ := by
    rw [rest?_optional] at hnone
    cases hnone

theorem Foresees.many {item : Grammar ρ α} (h : item.Foresees) (hreports : item.Reports)
    (hprod : item.Productive) : (many item).Foresees where
  read text more rest hrest hne hquiet other := by
    rw [rest?_many, Option.some.injEq] at hrest ⊢
    generalize hwhole : text ++ more = whole at hrest hquiet
    induction whole using hprod.items_induction generalizing text with
    | stop whole hstop =>
        subst hwhole
        have hnone := rest?_eq_none_iff.mpr hstop
        -- no further item was found, and that was known before the end of the text
        have hquiet' : item.Quiet more (Text.skipBlanks (text ++ more)) := by
          unfold Quiet at hquiet ⊢
          rwa [reach?_many_of_none hnone] at hquiet
        have hlt := hreports.lt_length hnone hquiet'
        have hblank : Text.skipBlanks text ≠ [] := skipBlanks_ne_nil_of_length_lt more (by omega)
        rw [items_snd_of_none hnone] at hrest
        rw [Text.skipBlanks_append_of_ne_nil hblank] at hnone hquiet'
        have hnone' : item.rest? (Text.skipBlanks (text ++ other)) = none := by
          rw [Text.skipBlanks_append_of_ne_nil hblank]
          exact h.refuse hnone hquiet' other
        rw [items_snd_of_none hnone', List.append_cancel_right hrest]
    | step whole value last hread ih =>
        subst hwhole
        have hsome := rest?_of_read? hread
        unfold Quiet at hquiet
        rw [reach?_many_of_some hprod hsome, lt_merge_iff] at hquiet
        rw [items_snd_of_some hprod hsome] at hrest
        have hle := (items_isSuffix item last).length_le
        have hpos := List.length_pos_iff.mpr hne
        rw [hrest, List.length_append] at hle
        have hlt := hprod hread
        have hblank : Text.skipBlanks text ≠ [] := skipBlanks_ne_nil_of_length_lt more (by omega)
        rw [Text.skipBlanks_append_of_ne_nil hblank] at hsome hquiet
        obtain ⟨front, rfl, -⟩ := exists_append_of_rest? hsome (by omega)
        have hfront : front ≠ [] := by
          rintro rfl
          simp only [List.nil_append] at hle
          omega
        have hother : item.rest? (Text.skipBlanks (text ++ other)) = some (front ++ other) := by
          rw [Text.skipBlanks_append_of_ne_nil hblank]
          exact h.read hsome hfront hquiet.1 other
        rw [items_snd_of_some hprod hother]
        exact ih front rfl hrest hquiet.2
  refuse text more hnone _ _ := by
    rw [rest?_many] at hnone
    cases hnone

/-! ## Parts that do not see what follows -/

theorem Keeps.grows {grammar : Grammar ρ α} (h : grammar.Keeps) : grammar.Grows := by
  intro text rest hrest more
  rw [h hrest more]
  exact Option.some_ne_none _

theorem Keeps.rule {body : Grammar ρ α} (h : body.Keeps) (name : ρ) : (rule name body).Keeps := h

theorem Keeps.map {body : Grammar ρ α} (h : body.Keeps) (f : α → β) : (map f body).Keeps := by
  intro text rest hrest more
  rw [rest?_map] at hrest ⊢
  exact h hrest more

theorem Keeps.seq {first : Grammar ρ α} {second : Grammar ρ β} (hfirst : first.Keeps)
    (hsecond : second.Keeps) (hprod : second.Productive) : (seq first second).Keeps := by
  intro text rest h more
  rw [rest?_seq] at h ⊢
  obtain ⟨middle, hmiddle, hrest⟩ := Option.bind_eq_some_iff.mp h
  rw [hfirst hmiddle more, Option.bind_some,
    Text.skipBlanks_append_of_ne_nil (hprod.ne_nil hrest), hsecond hrest more]

theorem Grows.join_of_keeps {first : Grammar ρ α} {second : Grammar ρ β} (hfirst : first.Keeps)
    (hsecond : second.Grows) : (join first second).Grows := by
  intro text rest h more
  rw [rest?_join] at h ⊢
  obtain ⟨middle, hmiddle, hrest⟩ := Option.bind_eq_some_iff.mp h
  rw [hfirst hmiddle more, Option.bind_some]
  exact hsecond hrest more

theorem Grows.choice {first second : Grammar ρ α} (hfirst : first.Grows) (hsecond : second.Grows) :
    (choice first second).Grows := by
  intro text rest h more
  rw [rest?_choice] at h
  rw [rest?_choice, Ne, Option.or_eq_none_iff]
  rintro ⟨hnone, hnone'⟩
  cases hread : first.rest? text with
  | some last => exact hfirst hread more hnone
  | none =>
      rw [hread, Option.none_or] at h
      exact hsecond h more hnone'

/-- What fails on nothing but can be followed by anything grows with its first part. -/
theorem Grows.seq_of_total {first : Grammar ρ α} {second : Grammar ρ β} (hfirst : first.Grows)
    (hsecond : ∀ text, second.rest? text ≠ none) : (seq first second).Grows := by
  intro text rest h more
  rw [rest?_seq] at h ⊢
  obtain ⟨middle, hmiddle, -⟩ := Option.bind_eq_some_iff.mp h
  obtain ⟨last, hlast⟩ := Option.ne_none_iff_exists'.mp (hfirst hmiddle more)
  rw [hlast, Option.bind_some]
  exact hsecond _

/-! ## Where the furthest attempt begins -/

theorem reach?_of_rule {body : Grammar ρ α} {name : ρ}
    (h : (rule name body).reach? (text ++ more) = some more.length) (hne : text ≠ []) :
    body.reach? (text ++ more) = some more.length := by
  have hpos := List.length_pos_iff.mpr hne
  rw [reach?_rule] at h
  split at h
  · exact h
  · cases hreach : body.reach? (text ++ more) with
    | some n => rwa [hreach, Option.getD_some] at h
    | none =>
        rw [hreach, Option.getD_none, Option.some.injEq, List.length_append] at h
        omega

/-- An attempt that is not the furthest one begins before the end of the text. -/
theorem quiet_of_merge {first second : Option Nat} {k : Nat}
    (h : Option.merge min first second = some k) (hne : first ≠ some k) :
    ∀ n ∈ first, k < n := by
  intro n hn
  have hle := le_left_of_merge h hn
  refine Nat.lt_of_le_of_ne hle ?_
  rintro rfl
  exact hne hn

/-- The furthest attempt of a sequence is in one of its parts. -/
theorem exists_of_reach?_join {first : Grammar ρ α} {second : Grammar ρ β}
    (h : (join first second).reach? (text ++ more) = some more.length) :
    first.reach? (text ++ more) = some more.length ∨
      ∃ middle, first.Quiet more (text ++ more) ∧
        first.rest? (text ++ more) = some (middle ++ more) ∧
        second.reach? (middle ++ more) = some more.length := by
  rw [reach?_join] at h
  by_cases hfirst : first.reach? (text ++ more) = some more.length
  · exact .inl hfirst
  · obtain ⟨rest, hrest, hsecond⟩ :=
      Option.bind_eq_some_iff.mp ((eq_or_eq_of_merge h).resolve_left hfirst)
    obtain ⟨middle, rfl, -⟩ := exists_append_of_rest? hrest (second.reach?_le_length hsecond)
    exact .inr ⟨middle, quiet_of_merge h hfirst, hrest, hsecond⟩

theorem exists_of_reach?_seq {first : Grammar ρ α} {second : Grammar ρ β}
    (h : (seq first second).reach? (text ++ more) = some more.length) :
    first.reach? (text ++ more) = some more.length ∨
      ∃ middle, first.Quiet more (text ++ more) ∧
        first.rest? (text ++ more) = some (middle ++ more) ∧
        Text.skipBlanks (middle ++ more) = Text.skipBlanks middle ++ more ∧
        second.reach? (Text.skipBlanks middle ++ more) = some more.length := by
  rw [reach?_seq] at h
  by_cases hfirst : first.reach? (text ++ more) = some more.length
  · exact .inl hfirst
  · obtain ⟨rest, hrest, hsecond⟩ :=
      Option.bind_eq_some_iff.mp ((eq_or_eq_of_merge h).resolve_left hfirst)
    have hle := second.reach?_le_length hsecond
    have hskip := Text.length_skipBlanks_le rest
    obtain ⟨middle, rfl, -⟩ := exists_append_of_rest? hrest (by omega)
    have hmiddle : Text.skipBlanks (middle ++ more) = Text.skipBlanks middle ++ more :=
      skipBlanks_append_of_length_le hle
    rw [hmiddle] at hsecond
    exact .inr ⟨middle, quiet_of_merge h hfirst, hrest, hmiddle, hsecond⟩

/-- The furthest attempt of a choice is in an alternative that was tried. -/
theorem exists_of_reach?_choice {first second : Grammar ρ α} {n : Nat}
    (h : (choice first second).reach? text = some n) :
    first.reach? text = some n ∨ first.rest? text = none ∧ second.reach? text = some n := by
  rw [reach?_choice] at h
  rcases eq_or_eq_of_merge h with h | h
  · exact .inl h
  · split at h
    · cases h
    · next hread => exact .inr ⟨by simpa using hread, h⟩

/-! ## Marks -/

/-- Nothing is tried behind a mark that can be part of nothing. -/
theorem Ignores.le_reach? {mark : Char} {grammar : Grammar ρ α} (h : grammar.Ignores mark)
    (hmark : Text.isBlank mark = false) {n : Nat}
    (hn : grammar.reach? (text ++ mark :: more) = some n) : (mark :: more).length ≤ n := by
  unfold reach? at hn
  rw [h.failures_append hmark, Option.map_map] at hn
  obtain ⟨frontier, -, rfl⟩ := Option.map_eq_some_iff.mp hn
  exact Nat.le_add_left _ _

end ObjectActions.Grammar
