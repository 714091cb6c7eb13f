import ObjectActions.Proofs.Grammar.Repetition
import ObjectActions.Proofs.Text.Cutting

/-!
# Reading up to a mark

Nearly all parts of a script hold no separator, so they are read in the same way whether
a separator follows or the text ends.  `Grammar.Ignores` says of a grammar that a mark
can be part of nothing it reads and of nothing it looks for, and the two statements that
follow from it are about everything that can be known of a grammar:

* `Ignores.read?_append`: with the mark and more text behind it, a text is read to the
  same value, and the additional text is left behind what was left before;
* `Ignores.failures_append`: the attempts that fail are the same, as far from the mark.

Quoted text is the one part that may hold separators.  A grammar with quoted text in it is
at least `Settled` before a mark: what was read stays read unless a quote is left open
behind it, and what could not be read still cannot.
-/

namespace ObjectActions

namespace Frontier

variable {ρ : Type}

/-- The same attempts with more of the text behind them. -/
def before (distance : Nat) (frontier : Frontier ρ) : Frontier ρ :=
  ⟨frontier.remaining + distance, frontier.names⟩

theorem furthest_map_before (distance : Nat) (first second : Option (Frontier ρ)) :
    furthest (first.map (before distance)) (second.map (before distance)) =
      (furthest first second).map (before distance) := by
  cases first <;> cases second <;> grind [furthest, before]

theorem failed_map_before (distance remaining : Nat) (name : ρ) (inner : Option (Frontier ρ)) :
    failed name (remaining + distance) (inner.map (before distance)) =
      (failed name remaining inner).before distance := by
  cases inner <;> grind [failed, before]

end Frontier

namespace Grammar

variable {ρ α β : Type}

/-! ## Grammars that ignore a mark -/

/-- Whether a token is cut before a mark and cannot be the mark. -/
def tokenIgnores (mark : Char) : Lexeme → (String → Option α) → Prop
  | .letter, value? => value? "" = none ∧ value? (String.singleton mark) = none
  | .run member, _ => member mark = false
  | .phrase member, _ => member mark = false

/-- Whether a mark can be part of nothing that a grammar reads or looks for. -/
def Ignores (mark : Char) : {α : Type} → Grammar ρ α → Prop
  | _, .token _ lexeme value? => tokenIgnores mark lexeme value?
  | _, .literal characters => ∀ c ∈ characters.toList, c.toLower ≠ mark.toLower
  | _, .finish _ => False
  | _, .rule _ body => body.Ignores mark
  | _, .seq first second => first.Ignores mark ∧ second.Ignores mark
  | _, .join first second => first.Ignores mark ∧ second.Ignores mark
  | _, .choice first second => first.Ignores mark ∧ second.Ignores mark
  | _, .optional body => body.Ignores mark
  | _, .many item => item.Ignores mark ∧ item.Productive
  | _, .map _ body => body.Ignores mark
  | _, .captured body => body.Ignores mark

variable {mark : Char}

/-- A token that ignores a mark is cut in the same way before it, or is refused anyhow. -/
theorem value?_piece_append {lexeme : Lexeme} {value? : String → Option α}
    (h : tokenIgnores mark lexeme value?) (text more : List Char) :
    value? (String.ofList (lexeme.piece (text ++ mark :: more))) =
      value? (String.ofList (lexeme.piece text)) := by
  cases lexeme with
  | letter =>
      cases text with
      | nil =>
          have hmark : String.ofList [mark] = String.singleton mark := by
            rw [← String.toList_inj]
            simp
          simpa [Lexeme.piece, hmark] using h.2.trans h.1.symm
      | cons c text => simp [Lexeme.piece]
  | run member =>
      rw [Lexeme.piece, Lexeme.piece, Text.takeWhile_append_cons_of_not h]
  | phrase member =>
      rw [Lexeme.piece, Lexeme.piece, Text.takeWhile_append_cons_of_not h]

theorem rest_append {lexeme : Lexeme} {value? : String → Option α} {value : α}
    (h : tokenIgnores mark lexeme value?) {text : List Char} (more : List Char)
    (hvalue : value? (String.ofList (lexeme.piece text)) = some value) :
    lexeme.rest (text ++ mark :: more) = lexeme.rest text ++ mark :: more := by
  have hpiece : lexeme.piece (text ++ mark :: more) = lexeme.piece text := by
    cases lexeme with
    | letter =>
        cases text with
        | nil => exact absurd (h.1.symm.trans hvalue) (by simp)
        | cons c text => simp [Lexeme.piece]
    | run member =>
        rw [Lexeme.piece, Lexeme.piece, Text.takeWhile_append_cons_of_not h]
    | phrase member =>
        rw [Lexeme.piece, Lexeme.piece, Text.takeWhile_append_cons_of_not h]
  have hle : (lexeme.piece text).length ≤ text.length := (lexeme.piece_isPrefix text).length_le
  rw [Lexeme.rest, Lexeme.rest, hpiece, List.drop_append_of_le_length hle]

theorem after?_append {characters : List Char}
    (h : ∀ c ∈ characters, c.toLower ≠ mark.toLower) (text more : List Char) :
    after? characters (text ++ mark :: more) =
      (after? characters text).map (· ++ mark :: more) := by
  induction characters generalizing text with
  | nil => rfl
  | cons c characters ih =>
      cases text with
      | nil => simp [after?, h c List.mem_cons_self]
      | cons d text =>
          simp only [List.cons_append, after?]
          split
          · exact ih (fun c hc => h c (List.mem_cons_of_mem _ hc)) text
          · rfl

/-- **Reading before a mark.**  What ignores a mark is read in the same way before it. -/
theorem Ignores.read?_append {grammar : Grammar ρ α} (h : grammar.Ignores mark)
    (hmark : Text.isBlank mark = false) (text more : List Char) :
    grammar.read? (text ++ mark :: more) =
      (grammar.read? text).map fun result => (result.1, result.2 ++ mark :: more) := by
  induction grammar generalizing text with
  | token name lexeme value? =>
      rw [read?, read?, value?_piece_append h]
      cases hvalue : value? (String.ofList (lexeme.piece text)) with
      | none => rfl
      | some value => simp [rest_append h more hvalue]
  | literal characters =>
      rw [read?, read?, after?_append h]
      simp [Function.comp_def]
  | finish name => exact h.elim
  | rule name body ih => exact ih h text
  | seq first second ihfirst ihsecond =>
      rw [read?, read?, ihfirst h.1]
      cases first.read? text with
      | none => rfl
      | some result =>
          simp only [Option.map_some]
          rw [Text.skipBlanks_append_cons hmark, ihsecond h.2]
          cases second.read? (Text.skipBlanks result.2) <;> rfl
  | join first second ihfirst ihsecond =>
      rw [read?, read?, ihfirst h.1]
      cases first.read? text with
      | none => rfl
      | some result =>
          simp only [Option.map_some]
          rw [ihsecond h.2]
          cases second.read? result.2 <;> rfl
  | choice first second ihfirst ihsecond =>
      rw [read?, read?, ihfirst h.1]
      cases first.read? text with
      | none => exact ihsecond h.2 text
      | some result => rfl
  | optional body ih =>
      rw [read?, read?, ih h]
      cases body.read? text <;> rfl
  | many item ih =>
      rw [read?_many, read?_many, Option.map_some, Option.some.injEq]
      induction text using h.2.items_induction with
      | stop text hread =>
          have hmore : item.read? (Text.skipBlanks (text ++ mark :: more)) = none := by
            rw [Text.skipBlanks_append_cons hmark, ih h.1, hread]
            rfl
          rw [items_of_none hread, items_of_none hmore]
      | step text value rest hread ihrest =>
          have hmore : item.read? (Text.skipBlanks (text ++ mark :: more)) =
              some (value, rest ++ mark :: more) := by
            rw [Text.skipBlanks_append_cons hmark, ih h.1, hread]
            rfl
          rw [items_of_some h.2 hread, items_of_some h.2 hmore, ihrest]
  | map f body ih =>
      rw [read?, read?, ih h]
      cases body.read? text <;> rfl
  | captured body ih =>
      rw [read?, read?, ih h]
      cases hbody : body.read? text with
      | none => rfl
      | some result =>
          have hle := body.length_le_of_read? hbody
          have hlength : (text ++ mark :: more).length - (result.2 ++ mark :: more).length =
              text.length - result.2.length := by
            simp only [List.length_append]
            omega
          simp only [Option.map_some]
          rw [hlength, List.take_append_of_le_length (Nat.sub_le _ _)]

/-- What ignores a mark fails in the same places before it. -/
theorem Ignores.failures_append {grammar : Grammar ρ α} (h : grammar.Ignores mark)
    (hmark : Text.isBlank mark = false) (text more : List Char) :
    grammar.failures (text ++ mark :: more) =
      (grammar.failures text).map (Frontier.before (more.length + 1)) := by
  induction grammar generalizing text with
  | token name lexeme value? =>
      rw [failures, failures, value?_piece_append h]
      cases value? (String.ofList (lexeme.piece text)) <;> simp [Frontier.before]
  | literal characters => rfl
  | finish name => exact h.elim
  | rule name body ih =>
      have hbody : body.Ignores mark := h
      rw [failures, failures, hbody.read?_append hmark, ih hbody]
      cases body.read? text with
      | none =>
          simp only [Option.map_none, Option.map_some, List.length_append, List.length_cons]
          rw [Frontier.failed_map_before]
      | some result => rfl
  | seq first second ihfirst ihsecond =>
      rw [failures, failures, Ignores.read?_append h.1 hmark, ihfirst h.1]
      cases first.read? text with
      | none => rfl
      | some result =>
          simp only [Option.map_some]
          rw [Text.skipBlanks_append_cons hmark, ihsecond h.2, Frontier.furthest_map_before]
  | join first second ihfirst ihsecond =>
      rw [failures, failures, Ignores.read?_append h.1 hmark, ihfirst h.1]
      cases first.read? text with
      | none => rfl
      | some result =>
          simp only [Option.map_some]
          rw [ihsecond h.2, Frontier.furthest_map_before]
  | choice first second ihfirst ihsecond =>
      rw [failures, failures, Ignores.read?_append h.1 hmark, ihfirst h.1]
      cases first.read? text with
      | none =>
          simp only [Option.map_none]
          rw [ihsecond h.2, Frontier.furthest_map_before]
      | some result => rfl
  | optional body ih => exact ih h text
  | many item ih =>
      induction text using h.2.items_induction with
      | stop text hread =>
          have hmore : item.read? (Text.skipBlanks (text ++ mark :: more)) = none := by
            rw [Text.skipBlanks_append_cons hmark, h.1.read?_append hmark, hread]
            rfl
          rw [failures_many_of_none hread, failures_many_of_none hmore,
            Text.skipBlanks_append_cons hmark, ih h.1]
      | step text value rest hread ihrest =>
          have hmore : item.read? (Text.skipBlanks (text ++ mark :: more)) =
              some (value, rest ++ mark :: more) := by
            rw [Text.skipBlanks_append_cons hmark, h.1.read?_append hmark, hread]
            rfl
          rw [failures_many_of_some h.2 hread, failures_many_of_some h.2 hmore, ihrest,
            Text.skipBlanks_append_cons hmark, ih h.1, Frontier.furthest_map_before]
  | map f body ih => exact ih h text
  | captured body ih => exact ih h text

/-! ## Grammars that are settled before a mark -/

/-- Whether the first thing in a text that is no blank is a quote. -/
def OpensQuote (text : List Char) : Prop := (Text.skipBlanks text).head? = some '"'

@[simp] theorem opensQuote_skipBlanks (text : List Char) :
    OpensQuote (Text.skipBlanks text) ↔ OpensQuote text := by
  simp [OpensQuote]

/-- What is read before a mark stays the same with the mark and more text behind it, as
long as no quote is left open. -/
structure Settled (mark : Char) (grammar : Grammar ρ α) : Prop where
  read?_of_some : ∀ ⦃text value rest⦄, grammar.read? text = some (value, rest) →
    ¬ OpensQuote rest → ∀ more,
      grammar.read? (text ++ mark :: more) = some (value, rest ++ mark :: more)
  read?_of_none : ∀ ⦃text⦄, grammar.read? text = none →
    ∀ more, grammar.read? (text ++ mark :: more) = none

theorem Ignores.settled {grammar : Grammar ρ α} (h : grammar.Ignores mark)
    (hmark : Text.isBlank mark = false) : grammar.Settled mark where
  read?_of_some text value rest hread _ more := by
    rw [h.read?_append hmark, hread]
    rfl
  read?_of_none text hread more := by
    rw [h.read?_append hmark, hread]
    rfl

theorem Settled.rule {body : Grammar ρ α} (h : body.Settled mark) (name : ρ) :
    (rule name body).Settled mark :=
  ⟨fun _ _ _ hread => h.read?_of_some hread, fun _ hread => h.read?_of_none hread⟩

theorem Settled.map {body : Grammar ρ α} (h : body.Settled mark) (f : α → β) :
    (map f body).Settled mark where
  read?_of_some text value rest hread hquote more := by
    rw [read?] at hread ⊢
    cases hbody : body.read? text with
    | none => simp [hbody] at hread
    | some result =>
        obtain ⟨v, r⟩ := result
        simp only [hbody, Option.some.injEq, Prod.mk.injEq] at hread
        obtain ⟨rfl, rfl⟩ := hread
        rw [h.read?_of_some hbody hquote]
  read?_of_none text hread more := by
    rw [read?] at hread ⊢
    cases hbody : body.read? text with
    | none => rw [h.read?_of_none hbody]
    | some result => simp [hbody] at hread

theorem Settled.captured {body : Grammar ρ α} (h : body.Settled mark) :
    body.captured.Settled mark where
  read?_of_some text value rest hread hquote more := by
    rw [read?] at hread ⊢
    cases hbody : body.read? text with
    | none => simp [hbody] at hread
    | some result =>
        obtain ⟨v, r⟩ := result
        simp only [hbody, Option.some.injEq, Prod.mk.injEq] at hread
        obtain ⟨rfl, rfl⟩ := hread
        have hle := body.length_le_of_read? hbody
        have hlength : (text ++ mark :: more).length - (r ++ mark :: more).length =
            text.length - r.length := by
          simp only [List.length_append]
          omega
        rw [h.read?_of_some hbody hquote]
        simp only
        rw [hlength, List.take_append_of_le_length (Nat.sub_le _ _)]
  read?_of_none text hread more := by
    rw [read?] at hread ⊢
    cases hbody : body.read? text with
    | none => rw [h.read?_of_none hbody]
    | some result => simp [hbody] at hread

theorem Settled.choice {first second : Grammar ρ α} (hfirst : first.Settled mark)
    (hsecond : second.Settled mark) : (Grammar.choice first second).Settled mark where
  read?_of_some text value rest hread hquote more := by
    rw [read?] at hread ⊢
    cases h : first.read? text with
    | none =>
        rw [h] at hread
        rw [hfirst.read?_of_none h]
        exact hsecond.read?_of_some hread hquote more
    | some result =>
        rw [h, Option.some.injEq] at hread
        rw [hfirst.read?_of_some (h.trans (congrArg some hread)) hquote]
  read?_of_none text hread more := by
    rw [read?] at hread ⊢
    cases h : first.read? text with
    | none =>
        rw [h] at hread
        rw [hfirst.read?_of_none h]
        exact hsecond.read?_of_none hread more
    | some result => simp [h] at hread

theorem Settled.optional {body : Grammar ρ α} (h : body.Settled mark) :
    body.optional.Settled mark where
  read?_of_some text value rest hread hquote more := by
    rw [read?] at hread ⊢
    cases hbody : body.read? text with
    | none =>
        simp only [hbody, Option.some.injEq, Prod.mk.injEq] at hread
        obtain ⟨rfl, rfl⟩ := hread
        rw [h.read?_of_none hbody]
    | some result =>
        obtain ⟨v, r⟩ := result
        simp only [hbody, Option.some.injEq, Prod.mk.injEq] at hread
        obtain ⟨rfl, rfl⟩ := hread
        rw [h.read?_of_some hbody hquote]
  read?_of_none text hread more := by
    rw [read?] at hread
    cases hbody : body.read? text <;> simp [hbody] at hread

/-- Two parts of which the first holds no quote. -/
theorem Settled.seq {first : Grammar ρ α} {second : Grammar ρ β} (hfirst : first.Ignores mark)
    (hsecond : second.Settled mark) (hmark : Text.isBlank mark = false) :
    (seq first second).Settled mark where
  read?_of_some text value rest hread hquote more := by
    rw [read?] at hread ⊢
    rw [hfirst.read?_append hmark]
    cases h : first.read? text with
    | none => simp [h] at hread
    | some result =>
        simp only [h] at hread
        simp only [Option.map_some]
        rw [Text.skipBlanks_append_cons hmark]
        cases h' : second.read? (Text.skipBlanks result.2) with
        | none => simp [h'] at hread
        | some result' =>
            obtain ⟨v, r⟩ := result'
            simp only [h', Option.some.injEq, Prod.mk.injEq] at hread
            obtain ⟨rfl, rfl⟩ := hread
            rw [hsecond.read?_of_some h' hquote]
  read?_of_none text hread more := by
    rw [read?] at hread ⊢
    rw [hfirst.read?_append hmark]
    cases h : first.read? text with
    | none => rfl
    | some result =>
        simp only [h] at hread
        simp only [Option.map_some]
        rw [Text.skipBlanks_append_cons hmark]
        cases h' : second.read? (Text.skipBlanks result.2) with
        | none => rw [hsecond.read?_of_none h']
        | some result' => simp [h'] at hread

/-- Two parts of which the second is a repetition that does not begin with a quote. -/
theorem Settled.seq_many {first : Grammar ρ α} {item : Grammar ρ β}
    (hfirst : first.Settled mark) (hmany : (many item).Settled mark)
    (hquote : ∀ text, OpensQuote text → item.read? (Text.skipBlanks text) = none)
    (hmark : Text.isBlank mark = false) : (Grammar.seq first (many item)).Settled mark where
  read?_of_some text value rest hread hrest more := by
    rw [read?] at hread ⊢
    cases h : first.read? text with
    | none => simp [h] at hread
    | some result =>
        obtain ⟨v, middle⟩ := result
        simp only [h, read?_many, Option.some.injEq, Prod.mk.injEq] at hread
        obtain ⟨rfl, rfl⟩ := hread
        -- a quote left open behind the first part would be left open behind the second
        have hmiddle : ¬ OpensQuote middle := by
          intro hopen
          rw [items_of_none (by simpa using hquote middle hopen)] at hrest
          exact hrest ((opensQuote_skipBlanks middle).mpr hopen)
        have hitems : (many item).read? (Text.skipBlanks middle) =
            some ((items item (Text.skipBlanks middle)).1,
              (items item (Text.skipBlanks middle)).2) :=
          read?_many item _
        rw [hfirst.read?_of_some h hmiddle more]
        simp only
        rw [Text.skipBlanks_append_cons hmark, hmany.read?_of_some hitems hrest more]
  read?_of_none text hread more := by
    rw [read?] at hread ⊢
    cases h : first.read? text with
    | none => rw [hfirst.read?_of_none h]
    | some result => simp [h, read?_many] at hread

/-- Items none of which begins with a quote. -/
theorem Settled.many {item : Grammar ρ α} (h : item.Settled mark) (hprod : item.Productive)
    (hquote : ∀ text, OpensQuote text → item.read? (Text.skipBlanks text) = none)
    (hmark : Text.isBlank mark = false) : (Grammar.many item).Settled mark where
  read?_of_some text value rest hread hrest more := by
    rw [read?_many, Option.some.injEq] at hread ⊢
    have hvalue : value = (items item text).1 := by rw [hread]
    have hrest' : rest = (items item text).2 := by rw [hread]
    subst hvalue hrest'
    clear hread
    induction text using hprod.items_induction with
    | stop text hstop =>
        have hmore : item.read? (Text.skipBlanks (text ++ mark :: more)) = none := by
          rw [Text.skipBlanks_append_cons hmark]
          exact h.read?_of_none hstop more
        rw [items_of_none hstop, items_of_none hmore]
    | step text value rest hstep ih =>
        rw [items_of_some hprod hstep] at hrest
        have hopen : ¬ OpensQuote rest := by
          intro hopen
          rw [items_of_none (hquote rest hopen)] at hrest
          exact hrest hopen
        have hmore : item.read? (Text.skipBlanks (text ++ mark :: more)) =
            some (value, rest ++ mark :: more) := by
          rw [Text.skipBlanks_append_cons hmark]
          exact h.read?_of_some hstep hopen more
        rw [items_of_some hprod hstep, items_of_some hprod hmore, ih hrest]
  read?_of_none text hread more := by
    rw [read?_many] at hread
    cases hread

/-! ## Grammars that read a quote at once -/

/-- What is read before a mark stays the same with more text behind it, and so does the
fact that nothing can be read, unless the text begins with a quote. -/
structure Quoting (mark : Char) (grammar : Grammar ρ α) : Prop where
  read?_of_some : ∀ ⦃text value rest⦄, grammar.read? text = some (value, rest) → ∀ more,
    grammar.read? (text ++ mark :: more) = some (value, rest ++ mark :: more)
  read?_of_none : ∀ ⦃text⦄, text.head? ≠ some '"' → grammar.read? text = none →
    ∀ more, grammar.read? (text ++ mark :: more) = none

theorem Ignores.quoting {grammar : Grammar ρ α} (h : grammar.Ignores mark)
    (hmark : Text.isBlank mark = false) : grammar.Quoting mark where
  read?_of_some text value rest hread more := by
    rw [h.read?_append hmark, hread]
    rfl
  read?_of_none text _ hread more := by
    rw [h.read?_append hmark, hread]
    rfl

theorem Quoting.map {body : Grammar ρ α} (h : body.Quoting mark) (f : α → β) :
    (Grammar.map f body).Quoting mark where
  read?_of_some text value rest hread more := by
    rw [read?] at hread ⊢
    cases hbody : body.read? text with
    | none => simp [hbody] at hread
    | some result =>
        obtain ⟨v, r⟩ := result
        simp only [hbody, Option.some.injEq, Prod.mk.injEq] at hread
        obtain ⟨rfl, rfl⟩ := hread
        rw [h.read?_of_some hbody]
  read?_of_none text hhead hread more := by
    rw [read?] at hread ⊢
    cases hbody : body.read? text with
    | none => rw [h.read?_of_none hhead hbody]
    | some result => simp [hbody] at hread

theorem Quoting.choice {first second : Grammar ρ α} (hfirst : first.Ignores mark)
    (hsecond : second.Quoting mark) (hmark : Text.isBlank mark = false) :
    (Grammar.choice first second).Quoting mark where
  read?_of_some text value rest hread more := by
    rw [read?] at hread ⊢
    rw [hfirst.read?_append hmark]
    cases h : first.read? text with
    | none =>
        rw [h] at hread
        exact hsecond.read?_of_some hread more
    | some result =>
        rw [h, Option.some.injEq] at hread
        subst hread
        rfl
  read?_of_none text hhead hread more := by
    rw [read?] at hread ⊢
    rw [hfirst.read?_append hmark]
    cases h : first.read? text with
    | none =>
        rw [h] at hread
        exact hsecond.read?_of_none hhead hread more
    | some result => simp [h] at hread

/-- Items that may be quoted text are settled if no quote is left open behind them. -/
theorem Quoting.many {item : Grammar ρ α} (h : item.Quoting mark) (hprod : item.Productive)
    (hmark : Text.isBlank mark = false) : (Grammar.many item).Settled mark where
  read?_of_some text value rest hread hrest more := by
    rw [read?_many, Option.some.injEq] at hread ⊢
    have hvalue : value = (items item text).1 := by rw [hread]
    have hrest' : rest = (items item text).2 := by rw [hread]
    subst hvalue hrest'
    clear hread
    induction text using hprod.items_induction with
    | stop text hstop =>
        rw [items_of_none hstop] at hrest
        have hmore : item.read? (Text.skipBlanks (text ++ mark :: more)) = none := by
          rw [Text.skipBlanks_append_cons hmark]
          exact h.read?_of_none hrest hstop more
        rw [items_of_none hstop, items_of_none hmore]
    | step text value rest hstep ih =>
        rw [items_of_some hprod hstep] at hrest
        have hmore : item.read? (Text.skipBlanks (text ++ mark :: more)) =
            some (value, rest ++ mark :: more) := by
          rw [Text.skipBlanks_append_cons hmark]
          exact h.read?_of_some hstep more
        rw [items_of_some hprod hstep, items_of_some hprod hmore, ih hrest]
  read?_of_none text hread more := by
    rw [read?_many] at hread
    cases hread

end Grammar

end ObjectActions
