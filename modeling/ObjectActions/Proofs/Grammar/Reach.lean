import ObjectActions.Proofs.Grammar.Repetition

/-!
# How far a grammar gets

Where a text stops making sense does not depend on what the text means.  Two numbers matter:
what is left when a grammar has read what it can (`Grammar.rest?`), and how much was left
where the furthest failed attempt began (`Grammar.reach?`).  Both can be computed from the
parts of a grammar without the values that are read.

`reach?_le_length` and `Avoids.not_lists` are the two facts about all grammars: no attempt begins
before the text, and a name that a grammar avoids is not reported.
-/

namespace ObjectActions.Grammar

variable {ρ α β : Type} {text rest : List Char}

/-- What is left of a text, if a grammar can be read at its front. -/
def rest? (grammar : Grammar ρ α) (text : List Char) : Option (List Char) :=
  (grammar.read? text).map Prod.snd

/-- How many characters are left where the furthest failed attempt begins. -/
def reach? (grammar : Grammar ρ α) (text : List Char) : Option Nat :=
  (grammar.failures text).map Frontier.remaining

theorem reach?_congr {grammar : Grammar ρ α} {other : Grammar ρ β}
    (h : grammar.failures text = other.failures text) : grammar.reach? text = other.reach? text :=
  congrArg (Option.map Frontier.remaining) h

theorem rest?_of_read? {grammar : Grammar ρ α} {value : α}
    (h : grammar.read? text = some (value, rest)) : grammar.rest? text = some rest := by
  rw [rest?, h, Option.map_some]

theorem exists_read?_of_rest? {grammar : Grammar ρ α} (h : grammar.rest? text = some rest) :
    ∃ value, grammar.read? text = some (value, rest) := by
  obtain ⟨result, hread, rfl⟩ := Option.map_eq_some_iff.mp h
  exact ⟨result.1, hread⟩

theorem rest?_eq_none_iff {grammar : Grammar ρ α} :
    grammar.rest? text = none ↔ grammar.read? text = none := Option.map_eq_none_iff

theorem isSuffix_of_rest? {grammar : Grammar ρ α} (h : grammar.rest? text = some rest) :
    rest <:+ text := by
  obtain ⟨value, hread⟩ := exists_read?_of_rest? h
  exact grammar.read?_isSuffix hread

theorem Productive.length_lt {grammar : Grammar ρ α} (hprod : grammar.Productive)
    (h : grammar.rest? text = some rest) : rest.length < text.length := by
  obtain ⟨value, hread⟩ := exists_read?_of_rest? h
  exact hprod hread

theorem Productive.ne_nil {grammar : Grammar ρ α} (hprod : grammar.Productive)
    (h : grammar.rest? text = some rest) : text ≠ [] := by
  rintro rfl
  exact absurd (hprod.length_lt h) (Nat.not_lt_zero _)

/-! ## What is left -/

@[simp] theorem rest?_rule (name : ρ) (body : Grammar ρ α) :
    (rule name body).rest? text = body.rest? text := rfl

@[simp] theorem rest?_map (f : α → β) (body : Grammar ρ α) :
    (map f body).rest? text = body.rest? text := by
  rw [rest?, read?_map, Option.map_map]
  rfl

@[simp] theorem rest?_captured (body : Grammar ρ α) :
    body.captured.rest? text = body.rest? text := by
  unfold rest?
  rw [read?]
  cases body.read? text <;> rfl

@[simp] theorem rest?_token (name : ρ) (lexeme : Lexeme) (value? : String → Option α) :
    (token name lexeme value?).rest? text =
      if (value? (String.ofList (lexeme.piece text))).isSome then some (lexeme.rest text)
      else none := by
  unfold rest?
  rw [read?]
  cases value? (String.ofList (lexeme.piece text)) <;> rfl

@[simp] theorem rest?_literal (characters : String) :
    (literal characters : Grammar ρ Unit).rest? text = after? characters.toList text := by
  unfold rest?
  rw [read?, Option.map_map]
  exact Option.map_id_apply

@[simp] theorem rest?_seq (first : Grammar ρ α) (second : Grammar ρ β) :
    (seq first second).rest? text =
      (first.rest? text).bind fun rest => second.rest? (Text.skipBlanks rest) := by
  unfold rest?
  rw [read?_seq]
  cases first.read? text with
  | none => rfl
  | some result =>
      simp only [Option.bind_some, Option.map_some, Option.map_map]
      rfl

@[simp] theorem rest?_join (first : Grammar ρ α) (second : Grammar ρ β) :
    (join first second).rest? text = (first.rest? text).bind second.rest? := by
  unfold rest?
  rw [read?_join]
  cases first.read? text with
  | none => rfl
  | some result =>
      simp only [Option.bind_some, Option.map_some, Option.map_map]
      rfl

@[simp] theorem rest?_choice (first second : Grammar ρ α) :
    (choice first second).rest? text = (first.rest? text).or (second.rest? text) := by
  unfold rest?
  rw [read?]
  cases first.read? text <;> rfl

@[simp] theorem rest?_optional (body : Grammar ρ α) :
    body.optional.rest? text = some ((body.rest? text).getD text) := by
  unfold rest?
  rw [read?_optional]
  cases body.read? text <;> rfl

@[simp] theorem rest?_many (item : Grammar ρ α) :
    (many item).rest? text = some (items item text).2 := by
  rw [rest?, read?_many, Option.map_some]

/-! ## Where attempts fail -/

theorem remaining_furthest (first second : Option (Frontier ρ)) :
    (Frontier.furthest first second).map Frontier.remaining =
      Option.merge min (first.map Frontier.remaining) (second.map Frontier.remaining) := by
  rcases first with - | first <;> rcases second with - | second <;> try rfl
  simp only [Frontier.furthest, Option.map_some, Option.merge_some_some]
  split
  · rw [Option.map_some, Nat.min_eq_left (by omega)]
  · split
    · rw [Option.map_some, Nat.min_eq_right (by omega)]
    · simp only [Option.map_some, Option.some.injEq]
      omega

theorem remaining_failed (name : ρ) {remaining : Nat} {inner : Option (Frontier ρ)}
    (h : ∀ frontier ∈ inner, frontier.remaining ≤ remaining) :
    (Frontier.failed name remaining inner).remaining =
      (inner.map Frontier.remaining).getD remaining := by
  rcases inner with - | inner
  · rfl
  · have hle := h inner rfl
    unfold Frontier.failed
    simp only [Option.map_some, Option.getD_some]
    split
    · rfl
    · split
      · rfl
      · simp only
        omega

@[simp] theorem reach?_map (f : α → β) (body : Grammar ρ α) :
    (map f body).reach? text = body.reach? text := rfl

@[simp] theorem reach?_captured (body : Grammar ρ α) :
    body.captured.reach? text = body.reach? text := rfl

@[simp] theorem reach?_optional (body : Grammar ρ α) :
    body.optional.reach? text = body.reach? text := rfl

@[simp] theorem reach?_literal (characters : String) :
    (literal characters : Grammar ρ Unit).reach? text = none := rfl

@[simp] theorem reach?_token (name : ρ) (lexeme : Lexeme) (value? : String → Option α) :
    (token name lexeme value?).reach? text =
      if (value? (String.ofList (lexeme.piece text))).isSome then none
      else some text.length := by
  unfold reach?
  rw [failures]
  cases value? (String.ofList (lexeme.piece text)) <;> rfl

/-- A token that is refused is reported where it begins. -/
theorem failures_token_of_none {name : ρ} {lexeme : Lexeme} {value? : String → Option α}
    (h : (token name lexeme value?).rest? text = none) :
    (token name lexeme value?).failures text = some ⟨text.length, [name]⟩ := by
  rw [rest?_token] at h
  rw [failures]
  cases hvalue : value? (String.ofList (lexeme.piece text)) with
  | none => rfl
  | some value => simp [hvalue] at h

example : (token 'a' .letter fun _ => (none : Option Unit)).failures "xy".toList =
    some ⟨2, ['a']⟩ := by cbv

/-- A token fails where it begins. -/
theorem reach?_token_of_rest? (name : ρ) (lexeme : Lexeme) (value? : String → Option α) :
    (token name lexeme value?).reach? text =
      if ((token name lexeme value?).rest? text).isSome then none else some text.length := by
  rw [reach?_token, rest?_token]
  cases value? (String.ofList (lexeme.piece text)) <;> rfl

@[simp] theorem failures_map (f : α → β) (body : Grammar ρ α) (text : List Char) :
    (map f body).failures text = body.failures text := rfl

@[simp] theorem failures_optional (body : Grammar ρ α) (text : List Char) :
    body.optional.failures text = body.failures text := rfl

theorem failures_rule (name : ρ) (body : Grammar ρ α) (text : List Char) :
    (rule name body).failures text =
      if (body.rest? text).isSome then body.failures text
      else some (Frontier.failed name text.length (body.failures text)) := by
  unfold rest?
  rw [failures]
  cases body.read? text <;> rfl

theorem failures_seq (first : Grammar ρ α) (second : Grammar ρ β) (text : List Char) :
    (seq first second).failures text =
      Frontier.furthest (first.failures text)
        ((first.rest? text).bind fun rest => second.failures (Text.skipBlanks rest)) := by
  unfold rest?
  rw [failures]
  cases first.read? text with
  | none => exact (Frontier.furthest_none_right _).symm
  | some result => rfl

theorem failures_join (first : Grammar ρ α) (second : Grammar ρ β) (text : List Char) :
    (join first second).failures text =
      Frontier.furthest (first.failures text) ((first.rest? text).bind second.failures) := by
  unfold rest?
  rw [failures]
  cases first.read? text with
  | none => exact (Frontier.furthest_none_right _).symm
  | some result => rfl

theorem failures_choice (first second : Grammar ρ α) (text : List Char) :
    (choice first second).failures text =
      Frontier.furthest (first.failures text)
        (if (first.rest? text).isSome then none else second.failures text) := by
  unfold rest?
  rw [failures]
  cases first.read? text with
  | none => rfl
  | some result => exact (Frontier.furthest_none_right _).symm

@[simp] theorem reach?_seq (first : Grammar ρ α) (second : Grammar ρ β) :
    (seq first second).reach? text =
      Option.merge min (first.reach? text)
        ((first.rest? text).bind fun rest => second.reach? (Text.skipBlanks rest)) := by
  unfold reach?
  rw [failures_seq, remaining_furthest]
  cases first.rest? text <;> rfl

@[simp] theorem reach?_join (first : Grammar ρ α) (second : Grammar ρ β) :
    (join first second).reach? text =
      Option.merge min (first.reach? text) ((first.rest? text).bind second.reach?) := by
  unfold reach?
  rw [failures_join, remaining_furthest]
  cases first.rest? text <;> rfl

@[simp] theorem reach?_choice (first second : Grammar ρ α) :
    (choice first second).reach? text =
      Option.merge min (first.reach? text)
        (if (first.rest? text).isSome then none else second.reach? text) := by
  unfold reach?
  rw [failures_choice, remaining_furthest]
  split <;> rfl

/-! ## Bounds -/

theorem eq_or_eq_of_merge {first second : Option Nat} {n : Nat}
    (h : Option.merge min first second = some n) : first = some n ∨ second = some n := by
  rcases first with - | k <;> rcases second with - | l
  · cases h
  · exact .inr (by simpa using h)
  · exact .inl (by simpa using h)
  · simp only [Option.merge_some_some, Option.some.injEq] at h ⊢
    omega

theorem le_left_of_merge {first second : Option Nat} {n k : Nat}
    (h : Option.merge min first second = some n) (hfirst : first = some k) : n ≤ k := by
  subst hfirst
  rcases second with - | l <;> simp at h <;> omega

theorem remaining_itemFailures_le {item? : List Char → Option (α × List Char)}
    {watch : List Char → Option (Frontier ρ)}
    (hitem : ∀ text value rest, item? text = some (value, rest) → rest.length ≤ text.length)
    (hwatch : ∀ text, ∀ n ∈ (watch text).map Frontier.remaining, n ≤ text.length)
    (fuel : Nat) (text : List Char) :
    ∀ n ∈ (itemFailures item? watch fuel text).map Frontier.remaining, n ≤ text.length := by
  induction fuel generalizing text with
  | zero => intro n hn; cases hn
  | succ fuel ih =>
      intro n hn
      have hskip := Text.length_skipBlanks_le text
      unfold itemFailures at hn
      simp only at hn
      split at hn
      · have hle := hwatch _ n hn
        omega
      · next value rest hread =>
          rw [remaining_furthest, Option.mem_def] at hn
          have hlength := hitem _ _ _ hread
          rcases eq_or_eq_of_merge hn with hn | hn
          · have hle := hwatch _ n hn
            omega
          · have hle := ih rest n hn
            omega

/-- No attempt begins before the text. -/
theorem reach?_le_length (grammar : Grammar ρ α) {n : Nat} (h : grammar.reach? text = some n) :
    n ≤ text.length := by
  induction grammar generalizing text n with
  | token name lexeme value? =>
      rw [reach?_token] at h
      split at h
      · cases h
      · cases h
        exact Nat.le_refl _
  | literal characters => cases h
  | finish name =>
      unfold reach? at h
      rw [failures] at h
      split at h
      · cases h
      · cases h
        exact Nat.le_refl _
  | rule name body ih =>
      unfold reach? at h
      rw [failures] at h
      split at h
      · rw [Option.map_some, Option.some.injEq, remaining_failed] at h
        · cases hbody : body.reach? text with
          | none =>
              unfold reach? at hbody
              rw [hbody] at h
              exact h ▸ Nat.le_refl _
          | some k =>
              have hle := ih hbody
              unfold reach? at hbody
              rw [hbody] at h
              exact h ▸ hle
        · intro frontier hfrontier
          exact ih (by rw [reach?, hfrontier, Option.map_some])
      · exact ih h
  | seq first second ihfirst ihsecond =>
      rw [reach?_seq] at h
      rcases eq_or_eq_of_merge h with h | h
      · exact ihfirst h
      · obtain ⟨rest, hrest, h⟩ := Option.bind_eq_some_iff.mp h
        have hle := ihsecond h
        have hlength := (isSuffix_of_rest? hrest).length_le
        have hskip := Text.length_skipBlanks_le rest
        omega
  | join first second ihfirst ihsecond =>
      rw [reach?_join] at h
      rcases eq_or_eq_of_merge h with h | h
      · exact ihfirst h
      · obtain ⟨rest, hrest, h⟩ := Option.bind_eq_some_iff.mp h
        have hle := ihsecond h
        have hlength := (isSuffix_of_rest? hrest).length_le
        omega
  | choice first second ihfirst ihsecond =>
      rw [reach?_choice] at h
      rcases eq_or_eq_of_merge h with h | h
      · exact ihfirst h
      · split at h
        · cases h
        · exact ihsecond h
  | optional body ih => exact ih h
  | many item ih =>
      exact remaining_itemFailures_le (fun _ _ _ => item.length_le_of_read?)
        (fun text n hn => ih hn) _ text n h
  | map f body ih => exact ih h
  | captured body ih => exact ih h

/-- A part that is reported under one name gets as far as what is inside it, and if it fails
at least to where it begins. -/
@[simp] theorem reach?_rule (name : ρ) (body : Grammar ρ α) :
    (rule name body).reach? text =
      if (body.rest? text).isSome then body.reach? text
      else some ((body.reach? text).getD text.length) := by
  have hle : ∀ frontier ∈ body.failures text, frontier.remaining ≤ text.length := by
    intro frontier hfrontier
    exact body.reach?_le_length (by rw [reach?, hfrontier, Option.map_some])
  unfold reach? rest?
  rw [failures]
  cases body.read? text with
  | none => simp [remaining_failed name hle]
  | some result => simp

/-! ## Items -/

theorem items_snd_of_none {item : Grammar ρ α} (h : item.rest? (Text.skipBlanks text) = none) :
    (items item text).2 = text := by
  rw [items_of_none (rest?_eq_none_iff.mp h)]

theorem items_snd_of_some {item : Grammar ρ α} (hprod : item.Productive)
    (h : item.rest? (Text.skipBlanks text) = some rest) :
    (items item text).2 = (items item rest).2 := by
  obtain ⟨value, hread⟩ := exists_read?_of_rest? h
  rw [items_of_some hprod hread]

theorem reach?_many_of_none {item : Grammar ρ α}
    (h : item.rest? (Text.skipBlanks text) = none) :
    (many item).reach? text = item.reach? (Text.skipBlanks text) := by
  unfold reach?
  rw [failures_many_of_none (rest?_eq_none_iff.mp h)]

theorem reach?_many_of_some {item : Grammar ρ α} (hprod : item.Productive)
    (h : item.rest? (Text.skipBlanks text) = some rest) :
    (many item).reach? text =
      Option.merge min (item.reach? (Text.skipBlanks text)) ((many item).reach? rest) := by
  obtain ⟨value, hread⟩ := exists_read?_of_rest? h
  unfold reach?
  rw [failures_many_of_some hprod hread, remaining_furthest]

/-- Blanks before the first item make no difference to what is tried. -/
theorem failures_many_skipBlanks {item : Grammar ρ α} (hprod : item.Productive)
    (text : List Char) :
    (many item).failures (Text.skipBlanks text) = (many item).failures text := by
  have hskip := Text.skipBlanks_skipBlanks text
  cases hread : item.read? (Text.skipBlanks text) with
  | none => rw [failures_many_of_none hread, failures_many_of_none (by rwa [hskip]), hskip]
  | some result =>
      rw [failures_many_of_some hprod hread, failures_many_of_some hprod (by rwa [hskip]), hskip]

@[simp] theorem reach?_many_skipBlanks {item : Grammar ρ α} (hprod : item.Productive)
    (text : List Char) : (many item).reach? (Text.skipBlanks text) = (many item).reach? text := by
  unfold reach?
  rw [failures_many_skipBlanks hprod]

/-- Where no blank is left behind the items none is left behind blanks and the items. -/
theorem items_snd_skipBlanks_of_nil {item : Grammar ρ α} (hprod : item.Productive)
    (h : (items item text).2 = []) : (items item (Text.skipBlanks text)).2 = [] := by
  have hskip := Text.skipBlanks_skipBlanks text
  cases hread : item.rest? (Text.skipBlanks text) with
  | none =>
      rw [items_snd_of_none hread] at h
      rw [h]
      exact List.suffix_nil.mp (isSuffix_of_rest? (rest?_many item))
  | some rest =>
      rw [items_snd_of_some hprod hread] at h
      rwa [items_snd_of_some hprod (by rwa [hskip])]

theorem items_isSuffix (item : Grammar ρ α) (text : List Char) : (items item text).2 <:+ text :=
  isSuffix_of_rest? (rest?_many item)

/-- Nothing more can be read behind the last item. -/
theorem Productive.rest?_items {item : Grammar ρ α} (hprod : item.Productive)
    (text : List Char) : item.rest? (Text.skipBlanks (items item text).2) = none := by
  induction text using hprod.items_induction with
  | stop text hread =>
      rw [items_of_none hread]
      exact rest?_eq_none_iff.mpr hread
  | step text value rest hread ih =>
      rw [items_of_some hprod hread]
      exact ih

/-! ## Names -/

/-- Whether a name occurs nowhere in a grammar. -/
def Avoids (name : ρ) : {α : Type} → Grammar ρ α → Prop
  | _, .token other _ _ => other ≠ name
  | _, .literal _ => True
  | _, .finish other => other ≠ name
  | _, .rule other body => other ≠ name ∧ body.Avoids name
  | _, .seq first second => first.Avoids name ∧ second.Avoids name
  | _, .join first second => first.Avoids name ∧ second.Avoids name
  | _, .choice first second => first.Avoids name ∧ second.Avoids name
  | _, .optional body => body.Avoids name
  | _, .many item => item.Avoids name
  | _, .map _ body => body.Avoids name
  | _, .captured body => body.Avoids name

instance decidableAvoids [DecidableEq ρ] (name : ρ) :
    {α : Type} → (grammar : Grammar ρ α) → Decidable (grammar.Avoids name)
  | _, .token other _ _ => inferInstanceAs (Decidable (other ≠ name))
  | _, .literal _ => inferInstanceAs (Decidable True)
  | _, .finish other => inferInstanceAs (Decidable (other ≠ name))
  | _, .rule other body =>
      have := decidableAvoids name body
      inferInstanceAs (Decidable (other ≠ name ∧ body.Avoids name))
  | _, .seq first second | _, .join first second | _, .choice first second =>
      have := decidableAvoids name first
      have := decidableAvoids name second
      inferInstanceAs (Decidable (first.Avoids name ∧ second.Avoids name))
  | _, .optional body | _, .many body | _, .map _ body | _, .captured body =>
      decidableAvoids name body

/-- Whether a name is among those of some attempts. -/
def Lists (name : ρ) (attempts : Option (Frontier ρ)) : Prop :=
  ∃ frontier ∈ attempts, name ∈ frontier.names

theorem lists_furthest {name : ρ} {first second : Option (Frontier ρ)}
    (h : Lists name (Frontier.furthest first second)) : Lists name first ∨ Lists name second := by
  rcases first with - | first
  · exact .inr (by simpa using h)
  · rcases second with - | second
    · exact .inl (by simpa using h)
    · obtain ⟨frontier, hmem, hname⟩ := h
      unfold Frontier.furthest at hmem
      simp only [Option.mem_def] at hmem
      split at hmem
      · exact .inl ⟨frontier, hmem, hname⟩
      · split at hmem
        · exact .inr ⟨frontier, hmem, hname⟩
        · cases hmem
          rcases List.mem_append.mp hname with hname | hname
          · exact .inl ⟨first, rfl, hname⟩
          · exact .inr ⟨second, rfl, hname⟩

theorem lists_failed {name other : ρ} {remaining : Nat} {inner : Option (Frontier ρ)}
    (hne : other ≠ name) (h : Lists name (some (Frontier.failed other remaining inner))) :
    Lists name inner := by
  obtain ⟨frontier, hmem, hname⟩ := h
  cases hmem
  rcases inner with - | inner
  · exact absurd (List.mem_singleton.mp hname).symm hne
  · unfold Frontier.failed at hname
    simp only at hname
    split at hname
    · exact ⟨inner, rfl, hname⟩
    · split at hname
      · exact ⟨inner, rfl, hname⟩
      · exact absurd (List.mem_singleton.mp hname).symm hne

theorem not_lists_itemFailures {name : ρ} {item? : List Char → Option (α × List Char)}
    {watch : List Char → Option (Frontier ρ)} (hwatch : ∀ text, ¬ Lists name (watch text))
    (fuel : Nat) (text : List Char) : ¬ Lists name (itemFailures item? watch fuel text) := by
  induction fuel generalizing text with
  | zero => rintro ⟨frontier, hmem, -⟩; cases hmem
  | succ fuel ih =>
      intro h
      unfold itemFailures at h
      simp only at h
      split at h
      · exact hwatch _ h
      · exact (lists_furthest h).elim (hwatch _) (ih _)

/-- Only names that occur in a grammar are reported. -/
theorem Avoids.not_lists {name : ρ} {grammar : Grammar ρ α} (h : grammar.Avoids name)
    (text : List Char) : ¬ Lists name (grammar.failures text) := by
  induction grammar generalizing text with
  | token other lexeme value? =>
      rw [failures]
      split
      · rintro ⟨frontier, hmem, hname⟩
        cases hmem
        exact h (List.mem_singleton.mp hname).symm
      · rintro ⟨frontier, hmem, -⟩
        cases hmem
  | literal characters =>
      rintro ⟨frontier, hmem, -⟩
      cases hmem
  | finish other =>
      rw [failures]
      split
      · rintro ⟨frontier, hmem, -⟩
        cases hmem
      · rintro ⟨frontier, hmem, hname⟩
        cases hmem
        exact h (List.mem_singleton.mp hname).symm
  | rule other body ih =>
      rw [failures]
      split
      · intro hlists
        exact ih h.2 text (lists_failed h.1 hlists)
      · exact ih h.2 text
  | seq first second ihfirst ihsecond =>
      rw [failures]
      split
      · exact ihfirst h.1 text
      · intro hlists
        exact (lists_furthest hlists).elim (ihfirst h.1 _) (ihsecond h.2 _)
  | join first second ihfirst ihsecond =>
      rw [failures]
      split
      · exact ihfirst h.1 text
      · intro hlists
        exact (lists_furthest hlists).elim (ihfirst h.1 _) (ihsecond h.2 _)
  | choice first second ihfirst ihsecond =>
      rw [failures]
      split
      · intro hlists
        exact (lists_furthest hlists).elim (ihfirst h.1 _) (ihsecond h.2 _)
      · exact ihfirst h.1 text
  | optional body ih => exact ih h text
  | many item ih => exact not_lists_itemFailures (ih h) _ text
  | map f body ih => exact ih h text
  | captured body ih => exact ih h text

/-- An attempt under a name of its own is listed with others exactly if it is one of the
furthest. -/
theorem exists_furthest_of_not_lists {name : ρ} {attempts : Option (Frontier ρ)}
    (h : ¬ Lists name attempts) (remaining : Nat) :
    ∃ frontier, Frontier.furthest attempts (some ⟨remaining, [name]⟩) = some frontier ∧
      frontier.remaining ≤ remaining ∧
      (name ∈ frontier.names ↔ frontier.remaining = remaining) ∧
      (frontier.remaining ≠ remaining → attempts = some frontier) := by
  rcases attempts with - | other
  · refine ⟨⟨remaining, [name]⟩, Frontier.furthest_none_left _, Nat.le_refl _, by simp, ?_⟩
    intro hne
    exact absurd rfl hne
  · have hother : name ∉ other.names := fun hname => h ⟨other, rfl, hname⟩
    unfold Frontier.furthest
    simp only
    split
    · next hlt =>
        refine ⟨other, rfl, Nat.le_of_lt hlt, ?_, fun _ => rfl⟩
        exact iff_of_false hother (Nat.ne_of_lt hlt)
    · split
      · refine ⟨⟨remaining, [name]⟩, rfl, Nat.le_refl _, by simp, ?_⟩
        intro hne
        exact absurd rfl hne
      · next hle hge =>
          have heq : other.remaining = remaining := by omega
          refine ⟨⟨other.remaining, other.names ++ [name]⟩, rfl, Nat.le_of_eq heq, ?_, ?_⟩
          · exact iff_of_true (List.mem_append_right _ (List.mem_singleton.mpr rfl)) heq
          · intro hne
            exact absurd heq hne

end ObjectActions.Grammar
