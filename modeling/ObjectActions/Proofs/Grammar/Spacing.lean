import Mathlib.Data.List.Forall2
import ObjectActions.Proofs.Script.Lexicon
import ObjectActions.Proofs.Text.Squeezing

/-!
# Blanks between the parts of a grammar

Where a grammar allows blanks it takes any row of them.  So a text can be squeezed
(`Text.squeeze`) without changing what is read from it, unless blanks can be part of
a token.  `Grammar.solid` is a check on the grammar itself: no token of it holds a blank, quoted
text aside.  It is computed, and `read?_squeeze` is the induction over grammars that makes it
worth computing: from a text without quotes the same is read before and after
squeezing, and what is left is squeezed.

What holds blanks in a token reads something else after squeezing.  `SpaceBlind` says that it
reads something related, and is kept by everything that lists are made of.
-/

namespace ObjectActions.Grammar

variable {ρ α β : Type}

/-! ## A check on grammars -/

/-- The characters that are blanks. -/
def blanks : List Char := [' ', '\t', '\r', '\n']

theorem mem_blanks {c : Char} : c ∈ blanks ↔ Text.isBlank c = true := by
  simp [blanks, Text.isBlank, or_assoc]

/-- Whether a grammar is seen to take at least one character. -/
def takes {α : Type} : Grammar ρ α → Bool
  | .token _ _ value? => (value? "").isNone
  | .literal characters => !characters.toList.isEmpty
  | .rule _ body => body.takes
  | .seq first _ => first.takes
  | .join first second => first.takes || second.takes
  | .choice first second => first.takes && second.takes
  | .map _ body => body.takes
  | _ => false

/-- Whether a grammar is fixed characters with a quote among them. -/
def quotes {α : Type} : Grammar ρ α → Bool
  | .literal characters => characters.toList.contains '"'
  | _ => false

/-- Whether no token holds a blank, except in what begins with a quote. -/
def solid {α : Type} : Grammar ρ α → Bool
  | .token _ .letter value? =>
      (value? "").isNone && blanks.all fun c => (value? (String.singleton c)).isNone
  | .token _ (.run member) _ => blanks.all fun c => !member c
  | .literal characters => characters.toList.all fun c => !Text.isBlank c
  | .rule _ body => body.solid
  | .seq first second => first.solid && second.solid
  | .join first second => first.quotes || (first.solid && second.solid)
  | .choice first second => first.solid && second.solid
  | .optional body => body.solid
  | .many item => item.takes && item.solid
  | .map _ body => body.solid
  | _ => false

theorem productive_of_takes {grammar : Grammar ρ α} (h : grammar.takes) : grammar.Productive := by
  induction grammar with
  | token name lexeme value? => exact productive_token (Option.isNone_iff_eq_none.mp h)
  | literal characters => exact productive_literal (by simpa [takes] using h)
  | rule name body ih => exact (ih h).rule name
  | seq first second ih _ => exact (ih h).seq second
  | join first second ihfirst ihsecond =>
      rcases Bool.or_eq_true _ _ ▸ h with h | h
      · exact (ihfirst h).join second
      · exact (ihsecond h).join_right first
  | choice first second ihfirst ihsecond =>
      have h := Bool.and_eq_true _ _ ▸ h
      exact (ihfirst h.1).choice (ihsecond h.2)
  | map f body ih => exact (ih h).map f
  | finish | optional | many | captured => cases h

/-! ## Fixed characters -/

/-- Fixed characters without blanks are found in the same way after squeezing. -/
theorem after?_squeeze {characters : List Char} (h : ∀ c ∈ characters, Text.isBlank c = false)
    (text : List Char) :
    after? characters (Text.squeeze text) = (after? characters text).map Text.squeeze := by
  induction characters generalizing text with
  | nil => rfl
  | cons c characters ih =>
      obtain ⟨hc, hrest⟩ := List.forall_mem_cons.mp h
      -- A blank in front is not what is looked for, whatever is left of it after squeezing.
      have hnone {text : List Char} (hhead : text.head?.all Text.isBlank = true) :
          after? (c :: characters) text = none := by
        cases text with
        | nil => rfl
        | cons d text =>
            rw [after?, if_neg]
            intro heq
            have hblank : Text.isBlank c.toLower = true := by
              rw [heq, Text.isBlank_toLower]
              exact hhead
            rw [Text.isBlank_toLower, hc] at hblank
            cases hblank
      cases hhead : text.head?.all Text.isBlank with
      | true => rw [hnone hhead, hnone ((Text.all_head?_squeeze text).trans hhead), Option.map_none]
      | false =>
          cases text with
          | nil => cases hhead
          | cons d text =>
              rw [Text.squeeze_cons_of_not hhead, after?, after?]
              split
              · exact ih hrest text
              · rfl

/-- Characters with a quote among them are not found in a text without quotes. -/
theorem after?_of_quote {characters text : List Char} (h : '"' ∈ characters) (hquote : '"' ∉ text) :
    after? characters text = none := by
  induction characters generalizing text with
  | nil => cases h
  | cons c characters ih =>
      cases text with
      | nil => rfl
      | cons d text =>
          rw [List.mem_cons, not_or] at hquote
          rw [after?]
          split
          · next heq =>
              rcases List.mem_cons.mp h with rfl | hmem
              · have hd : d = '"' := (Text.toLower_eq_iff (by decide) d).mp heq.symm
                exact absurd hd.symm hquote.1
              · exact ih hmem hquote.2
          · rfl

/-! ## Reading a squeezed text -/

theorem read?_of_quotes {grammar : Grammar ρ α} (h : grammar.quotes) {text : List Char}
    (hquote : '"' ∉ text) : grammar.read? text = none := by
  cases grammar with
  | literal characters =>
      rw [read?, after?_of_quote (by simpa [quotes] using h) hquote, Option.map_none]
  | _ => cases h

theorem quote_notMem_of_suffix {rest text : List Char} (h : rest <:+ text) (hquote : '"' ∉ text) :
    '"' ∉ rest :=
  fun hmem => hquote (h.subset hmem)

/-- A solid token is cut in the same way after squeezing. -/
theorem read?_token_squeeze {name : ρ} {lexeme : Lexeme} {value? : String → Option α}
    (h : (token name lexeme value?).solid) (text : List Char) :
    (token name lexeme value?).read? (Text.squeeze text) =
      ((token name lexeme value?).read? text).map fun result =>
        (result.1, Text.squeeze result.2) := by
  cases lexeme with
  | letter =>
      rw [solid, Bool.and_eq_true, List.all_eq_true] at h
      have hempty : value? "" = none := Option.isNone_iff_eq_none.mp h.1
      have hblank (c : Char) (hc : Text.isBlank c = true) : value? (String.singleton c) = none :=
        Option.isNone_iff_eq_none.mp (h.2 c (mem_blanks.mpr hc))
      -- Neither a blank nor the end of the text stands for a value.
      have hnone {text : List Char} (hhead : text.head?.all Text.isBlank = true) :
          (token name .letter value?).read? text = none := by
        cases text with
        | nil => simp [read?, Lexeme.piece, hempty]
        | cons c text =>
            simp [read?, Lexeme.piece, hblank c hhead]
      cases hhead : text.head?.all Text.isBlank with
      | true => rw [hnone hhead, hnone ((Text.all_head?_squeeze text).trans hhead), Option.map_none]
      | false =>
          cases text with
          | nil => cases hhead
          | cons c text =>
              rw [Text.squeeze_cons_of_not hhead]
              simp [read?, Lexeme.piece, Lexeme.rest, Function.comp_def]
  | run member =>
      rw [solid, List.all_eq_true] at h
      have hmember (c : Char) (hc : Text.isBlank c = true) : member c = false := by
        simpa using h c (mem_blanks.mpr hc)
      rw [read?, read?, Lexeme.rest_run, Lexeme.rest_run, Lexeme.piece, Lexeme.piece,
        Text.takeWhile_squeeze hmember, Text.dropWhile_squeeze hmember, Option.map_map]
      rfl
  | phrase member => cases h

/-! ## Items -/

/-- Whether what is read after squeezing is related to what is read before, and what is left is
squeezed.  The text holds no quote and does not begin with a blank. -/
structure SpaceBlind (R : α → α → Prop) (grammar : Grammar ρ α) : Prop where
  read?_of_some : ∀ ⦃text value rest⦄, '"' ∉ text → (∀ c ∈ text.head?, Text.isBlank c = false) →
    grammar.read? text = some (value, rest) →
    ∃ value', grammar.read? (Text.squeeze text) = some (value', Text.squeeze rest) ∧ R value value'
  read?_of_none : ∀ ⦃text⦄, '"' ∉ text → (∀ c ∈ text.head?, Text.isBlank c = false) →
    grammar.read? text = none → grammar.read? (Text.squeeze text) = none

theorem quote_notMem_skipBlanks {text : List Char} (hquote : '"' ∉ text) :
    '"' ∉ Text.skipBlanks text :=
  quote_notMem_of_suffix (skipBlanks_isSuffix text) hquote

/-- Items are read one after the other before and after squeezing. -/
theorem SpaceBlind.items_squeeze {R : α → α → Prop} {item : Grammar ρ α} (h : item.SpaceBlind R)
    (hprod : item.Productive) {text : List Char} (hquote : '"' ∉ text) :
    List.Forall₂ R (items item text).1 (items item (Text.squeeze text)).1 ∧
      (items item (Text.squeeze text)).2 = Text.squeeze (items item text).2 := by
  induction text using hprod.items_induction with
  | stop text hread =>
      have hread' := h.read?_of_none (quote_notMem_skipBlanks hquote)
        (Text.isBlank_head_skipBlanks text) hread
      rw [← Text.skipBlanks_squeeze] at hread'
      rw [items_of_none hread, items_of_none hread']
      exact ⟨.nil, rfl⟩
  | step text value rest hread ih =>
      obtain ⟨value', hread', hvalue⟩ := h.read?_of_some (quote_notMem_skipBlanks hquote)
        (Text.isBlank_head_skipBlanks text) hread
      rw [← Text.skipBlanks_squeeze] at hread'
      have hrest := quote_notMem_of_suffix (item.read?_isSuffix hread)
        (quote_notMem_skipBlanks hquote)
      rw [items_of_some hprod hread, items_of_some hprod hread']
      exact ⟨.cons hvalue (ih hrest).1, (ih hrest).2⟩

/-- What reads the same before and after squeezing. -/
theorem spaceBlind_of_read?_squeeze {grammar : Grammar ρ α}
    (h : ∀ text, '"' ∉ text → grammar.read? (Text.squeeze text) =
      (grammar.read? text).map fun result => (result.1, Text.squeeze result.2)) :
    grammar.SpaceBlind Eq where
  read?_of_some text value rest hquote _ hread := by
    rw [h text hquote, hread]
    exact ⟨value, rfl, rfl⟩
  read?_of_none text hquote _ hread := by
    rw [h text hquote, hread, Option.map_none]

/-! ## Solid grammars -/

/-- **Blanks make no difference.**  What a solid grammar reads from a text without quotes, it
reads from the squeezed text too, and leaves the rest squeezed. -/
theorem read?_squeeze {grammar : Grammar ρ α} (h : grammar.solid) {text : List Char}
    (hquote : '"' ∉ text) :
    grammar.read? (Text.squeeze text) =
      (grammar.read? text).map fun result => (result.1, Text.squeeze result.2) := by
  induction grammar generalizing text with
  | token name lexeme value? => exact read?_token_squeeze h text
  | literal characters =>
      have hcharacters : ∀ c ∈ characters.toList, Text.isBlank c = false := by
        simpa [solid] using h
      rw [read?, read?, after?_squeeze hcharacters, Option.map_map, Option.map_map]
      rfl
  | rule name body ih => exact ih h hquote
  | seq first second ihfirst ihsecond =>
      rw [solid, Bool.and_eq_true] at h
      rw [read?_seq, read?_seq, ihfirst h.1 hquote]
      cases hfirst : first.read? text with
      | none => rfl
      | some result =>
          have hrest := quote_notMem_of_suffix
            ((skipBlanks_isSuffix _).trans (first.read?_isSuffix hfirst)) hquote
          simp only [Option.map_some, Option.bind_some, Text.skipBlanks_squeeze,
            ihsecond h.2 hrest, Option.map_map, Function.comp_def]
  | join first second ihfirst ihsecond =>
      rw [solid, Bool.or_eq_true, Bool.and_eq_true] at h
      rw [read?_join, read?_join]
      rcases h with hquotes | h
      · have hquote' : '"' ∉ Text.squeeze text := fun hmem =>
          (Text.mem_of_mem_squeeze hmem).elim hquote (by decide)
        rw [read?_of_quotes hquotes hquote, read?_of_quotes hquotes hquote']
        rfl
      · rw [ihfirst h.1 hquote]
        cases hfirst : first.read? text with
        | none => rfl
        | some result =>
            have hrest := quote_notMem_of_suffix (first.read?_isSuffix hfirst) hquote
            simp only [Option.map_some, Option.bind_some, ihsecond h.2 hrest, Option.map_map,
              Function.comp_def]
  | choice first second ihfirst ihsecond =>
      rw [solid, Bool.and_eq_true] at h
      rw [read?, read?, ihfirst h.1 hquote, ihsecond h.2 hquote]
      cases first.read? text <;> rfl
  | optional body ih =>
      rw [read?_optional, read?_optional, ih h hquote]
      cases body.read? text <;> rfl
  | many item ih =>
      rw [solid, Bool.and_eq_true] at h
      have hitem : item.SpaceBlind Eq := spaceBlind_of_read?_squeeze fun text => ih h.2
      obtain ⟨hvalues, hrest⟩ := hitem.items_squeeze (productive_of_takes h.1) hquote
      rw [List.forall₂_eq_eq_eq] at hvalues
      rw [read?_many, read?_many, Option.map_some, hvalues, ← hrest]
  | map f body ih =>
      rw [read?_map, read?_map, ih h hquote, Option.map_map, Option.map_map]
      rfl
  | finish | captured => cases h

theorem spaceBlind_of_solid {grammar : Grammar ρ α} (h : grammar.solid) :
    grammar.SpaceBlind Eq :=
  spaceBlind_of_read?_squeeze fun _ => read?_squeeze h

/-! ## Lists of what may hold blanks -/

variable {R : α → α → Prop} {S : β → β → Prop}

theorem SpaceBlind.mono {grammar : Grammar ρ α} {R' : α → α → Prop} (h : grammar.SpaceBlind R)
    (hR : ∀ a b, R a b → R' a b) : grammar.SpaceBlind R' where
  read?_of_some text value rest hquote hhead hread := by
    obtain ⟨value', hread', hvalue⟩ := h.read?_of_some hquote hhead hread
    exact ⟨value', hread', hR _ _ hvalue⟩
  read?_of_none _ hquote hhead hread := h.read?_of_none hquote hhead hread

theorem SpaceBlind.rule {body : Grammar ρ α} (h : body.SpaceBlind R) (name : ρ) :
    (Grammar.rule name body).SpaceBlind R :=
  ⟨h.read?_of_some, h.read?_of_none⟩

theorem SpaceBlind.map {body : Grammar ρ α} (h : body.SpaceBlind R) {f : α → β}
    (hf : ∀ a b, R a b → S (f a) (f b)) : (Grammar.map f body).SpaceBlind S where
  read?_of_some text value rest hquote hhead hread := by
    rw [read?_map, Option.map_eq_some_iff] at hread
    obtain ⟨⟨a, last⟩, hbody, heq⟩ := hread
    cases heq
    obtain ⟨b, hbody', hb⟩ := h.read?_of_some hquote hhead hbody
    exact ⟨f b, by rw [read?_map, hbody', Option.map_some], hf a b hb⟩
  read?_of_none text hquote hhead hread := by
    rw [read?_map, Option.map_eq_none_iff] at hread
    rw [read?_map, h.read?_of_none hquote hhead hread, Option.map_none]

/-- The text that a part was read from is not compared. -/
theorem SpaceBlind.captured {body : Grammar ρ α} (h : body.SpaceBlind R) :
    body.captured.SpaceBlind fun a b => R a.2 b.2 where
  read?_of_some text value rest hquote hhead hread := by
    rw [read?] at hread
    split at hread
    · cases hread
    · next a last hbody =>
        cases hread
        obtain ⟨b, hbody', hb⟩ := h.read?_of_some hquote hhead hbody
        exact ⟨_, by rw [read?, hbody'], hb⟩
  read?_of_none text hquote hhead hread := by
    rw [read?] at hread
    split at hread
    · next hbody => rw [read?, h.read?_of_none hquote hhead hbody]
    · cases hread

theorem SpaceBlind.choice {first second : Grammar ρ α} (hfirst : first.SpaceBlind R)
    (hsecond : second.SpaceBlind R) : (Grammar.choice first second).SpaceBlind R where
  read?_of_some text value rest hquote hhead hread := by
    rw [read?] at hread ⊢
    split at hread
    · next hnone =>
        rw [hfirst.read?_of_none hquote hhead hnone]
        exact hsecond.read?_of_some hquote hhead hread
    · next hsome =>
        obtain ⟨b, hread', hb⟩ := hfirst.read?_of_some hquote hhead (hsome.trans hread)
        exact ⟨b, by rw [hread'], hb⟩
  read?_of_none text hquote hhead hread := by
    rw [read?] at hread ⊢
    split at hread
    · next hnone =>
        rw [hfirst.read?_of_none hquote hhead hnone, hsecond.read?_of_none hquote hhead hread]
    · cases hread

theorem SpaceBlind.optional {body : Grammar ρ α} (h : body.SpaceBlind R) :
    body.optional.SpaceBlind (Option.Rel R) where
  read?_of_some text value rest hquote hhead hread := by
    rw [read?_optional, Option.some.injEq] at hread
    rw [read?_optional]
    cases hbody : body.read? text with
    | none =>
        rw [hbody] at hread
        cases hread
        rw [h.read?_of_none hquote hhead hbody]
        exact ⟨none, rfl, .none⟩
    | some result =>
        rw [hbody] at hread
        cases hread
        obtain ⟨b, hbody', hb⟩ := h.read?_of_some hquote hhead hbody
        rw [hbody']
        exact ⟨some b, rfl, .some hb⟩
  read?_of_none text hquote hhead hread := by
    rw [read?_optional] at hread
    cases hread

theorem SpaceBlind.many {item : Grammar ρ α} (h : item.SpaceBlind R) (hprod : item.Productive) :
    (Grammar.many item).SpaceBlind (List.Forall₂ R) where
  read?_of_some text value rest hquote _ hread := by
    rw [read?_many, Option.some.injEq] at hread
    obtain ⟨hvalues, hrest⟩ := h.items_squeeze hprod hquote
    rw [hread] at hvalues hrest
    exact ⟨_, by rw [read?_many, ← hrest], hvalues⟩
  read?_of_none text _ _ hread := by
    rw [read?_many] at hread
    cases hread

theorem SpaceBlind.seq {first : Grammar ρ α} {second : Grammar ρ β} (hfirst : first.SpaceBlind R)
    (hsecond : second.SpaceBlind S) :
    (Grammar.seq first second).SpaceBlind fun a b => R a.1 b.1 ∧ S a.2 b.2 where
  read?_of_some text value rest hquote hhead hread := by
    rw [read?_seq, Option.bind_eq_some_iff] at hread
    obtain ⟨⟨a, middle⟩, hread₁, hread₂⟩ := hread
    rw [Option.map_eq_some_iff] at hread₂
    obtain ⟨⟨b, last⟩, hread₂, heq⟩ := hread₂
    cases heq
    have hmiddle := quote_notMem_of_suffix (first.read?_isSuffix hread₁) hquote
    obtain ⟨a', hread₁', ha⟩ := hfirst.read?_of_some hquote hhead hread₁
    obtain ⟨b', hread₂', hb⟩ := hsecond.read?_of_some (quote_notMem_skipBlanks hmiddle)
      (Text.isBlank_head_skipBlanks middle) hread₂
    refine ⟨(a', b'), ?_, ha, hb⟩
    rw [read?_seq, hread₁', Option.bind_some, Text.skipBlanks_squeeze, hread₂', Option.map_some]
  read?_of_none text hquote hhead hread := by
    rw [read?_seq] at hread ⊢
    cases hread₁ : first.read? text with
    | none => rw [hfirst.read?_of_none hquote hhead hread₁, Option.bind_none]
    | some result =>
        rw [hread₁, Option.bind_some, Option.map_eq_none_iff] at hread
        have hmiddle := quote_notMem_of_suffix (first.read?_isSuffix hread₁) hquote
        obtain ⟨a', hread₁', -⟩ := hfirst.read?_of_some hquote hhead hread₁
        rw [hread₁', Option.bind_some, Text.skipBlanks_squeeze,
          hsecond.read?_of_none (quote_notMem_skipBlanks hmiddle)
            (Text.isBlank_head_skipBlanks _) hread, Option.map_none]

/-- The end of a text is not moved by squeezing if no blank stands before it. -/
theorem spaceBlind_finish (name : ρ) : (finish name).SpaceBlind Eq where
  read?_of_some text value rest _ _ hread := by
    rw [read?] at hread
    split at hread
    · next hempty =>
        rw [List.isEmpty_iff] at hempty
        cases hread
        subst hempty
        exact ⟨(), rfl, rfl⟩
    · cases hread
  read?_of_none text _ hhead hread := by
    cases text with
    | nil => cases hread
    | cons c text =>
        rw [Text.squeeze_cons_of_not (hhead c rfl)]
        rfl

/-! ## Phrases -/

variable {member : Char → Bool}

/-- The phrase that is cut off a squeezed text is the squeezed phrase. -/
theorem piece_phrase_squeeze (h : ∀ c, Text.isBlank c = true → member c = true)
    (text : List Char) :
    (Lexeme.phrase member).piece (Text.squeeze text) =
      Text.squeeze ((Lexeme.phrase member).piece text) := by
  rw [Lexeme.piece, Lexeme.piece, Text.trimRight_takeWhile_squeeze h, Text.squeeze_trimRight]

/-- What follows a phrase is squeezed. -/
theorem rest_phrase_squeeze (h : ∀ c, Text.isBlank c = true → member c = true)
    {text : List Char} (hpiece : (Lexeme.phrase member).piece text ≠ []) :
    (Lexeme.phrase member).rest (Text.squeeze text) =
      Text.squeeze ((Lexeme.phrase member).rest text) := by
  obtain ⟨front, c, heq, hc⟩ := Text.exists_of_trimRight_ne_nil hpiece
  have hsplit : Text.squeeze text =
      Text.squeeze ((Lexeme.phrase member).piece text) ++
        Text.squeeze ((Lexeme.phrase member).rest text) := by
    have happend := Text.squeeze_append_of_not hc front ((Lexeme.phrase member).rest text)
    conv_lhs => rw [← (Lexeme.phrase member).piece_append_rest text]
    rw [Lexeme.piece, heq, List.append_assoc]
    exact happend
  rw [Lexeme.rest, piece_phrase_squeeze h, hsplit, List.drop_left]

end ObjectActions.Grammar
