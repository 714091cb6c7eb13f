import ObjectActions.Grammar.Lexeme

/-!
# Grammars with ordered choice

A `Grammar ρ α` says how a value of type `α` is read from the front of a text.  It
is data: a tree of tokens, sequences, choices and repetitions, so that one and the
same grammar can be read with (`read?`), asked where a text stopped making sense
(`failures`), and reasoned about by induction.  The names in `ρ` label the parts
that may be reported as expected; they have no influence on what is read.

Reading is deterministic.  A choice takes its first alternative that can be read, an
optional part is read whenever it can be, a repetition goes on as long as it can, and
none of these decisions is taken back when something fails later on.  What is left of
the text after reading is always its end (`read?_isSuffix`).

Blanks may stand between the parts of a sequence and between the items of a
repetition, but not between parts that are joined directly.  A sequence that has
skipped blanks on the way to an optional part keeps them skipped if that part is
missing; a repetition gives back the blanks it skipped in search of one more item.
-/

namespace ObjectActions

/-- How a value is read from the front of a text. -/
inductive Grammar (ρ : Type) : Type → Type 1 where
  /-- A piece of text that stands for a value, or is refused. -/
  | token {α : Type} (name : ρ) (lexeme : Lexeme) (value? : String → Option α) : Grammar ρ α
  /-- Fixed characters, in any case if they are ASCII letters; never reported. -/
  | literal (characters : String) : Grammar ρ Unit
  /-- The end of the text. -/
  | finish (name : ρ) : Grammar ρ Unit
  /-- A part that is reported under one name where it cannot even begin. -/
  | rule {α : Type} (name : ρ) (body : Grammar ρ α) : Grammar ρ α
  /-- Two parts with any blanks between them. -/
  | seq {α β : Type} (first : Grammar ρ α) (second : Grammar ρ β) : Grammar ρ (α × β)
  /-- Two parts with nothing between them. -/
  | join {α β : Type} (first : Grammar ρ α) (second : Grammar ρ β) : Grammar ρ (α × β)
  /-- The first of two alternatives that can be read. -/
  | choice {α : Type} (first second : Grammar ρ α) : Grammar ρ α
  /-- A part that may be missing. -/
  | optional {α : Type} (body : Grammar ρ α) : Grammar ρ (Option α)
  /-- Any number of items, each after any blanks. -/
  | many {α : Type} (item : Grammar ρ α) : Grammar ρ (List α)
  /-- A part whose value is put to use. -/
  | map {α β : Type} (f : α → β) (body : Grammar ρ α) : Grammar ρ β
  /-- A part together with the text it was read from. -/
  | captured {α : Type} (body : Grammar ρ α) : Grammar ρ (String × α)

namespace Grammar

variable {ρ α β : Type}

/-! ## Reading -/

/-- What follows the given characters at the front of a text, ASCII case aside. -/
def after? : List Char → List Char → Option (List Char)
  | [], text => some text
  | _ :: _, [] => none
  | c :: characters, d :: text =>
      if c.toLower = d.toLower then after? characters text else none

/-- Reads items for as long as it can, each after any blanks.  `fuel` bounds the number
of items; one more than the length of the text is always enough for items that are
not empty. -/
def readItems (item? : List Char → Option (α × List Char)) :
    (fuel : Nat) → List Char → List α × List Char
  | 0, text => ([], text)
  | fuel + 1, text =>
      match item? (Text.skipBlanks text) with
      | none => ([], text)
      | some (value, rest) =>
          let (values, last) := readItems item? fuel rest
          (value :: values, last)

/-- The value that stands at the front of a text, and what is left of the text. -/
def read? {α : Type} : Grammar ρ α → List Char → Option (α × List Char)
  | .token _ lexeme value?, text =>
      (value? (String.ofList (lexeme.piece text))).map fun value => (value, lexeme.rest text)
  | .literal characters, text => (after? characters.toList text).map fun rest => ((), rest)
  | .finish _, text => if text.isEmpty then some ((), text) else none
  | .rule _ body, text => body.read? text
  | .seq first second, text =>
      match first.read? text with
      | none => none
      | some (a, middle) =>
          match second.read? (Text.skipBlanks middle) with
          | none => none
          | some (b, rest) => some ((a, b), rest)
  | .join first second, text =>
      match first.read? text with
      | none => none
      | some (a, middle) =>
          match second.read? middle with
          | none => none
          | some (b, rest) => some ((a, b), rest)
  | .choice first second, text =>
      match first.read? text with
      | none => second.read? text
      | some result => some result
  | .optional body, text =>
      match body.read? text with
      | none => some (none, text)
      | some (value, rest) => some (some value, rest)
  | .many item, text => some (readItems item.read? (text.length + 1) text)
  | .map f body, text =>
      match body.read? text with
      | none => none
      | some (value, rest) => some (f value, rest)
  | .captured body, text =>
      match body.read? text with
      | none => none
      | some (value, rest) =>
          some ((String.ofList (text.take (text.length - rest.length)), value), rest)

/-! ## Writing grammars down -/

instance : OrElse (Grammar ρ α) where
  orElse first second := .choice first (second ())

/-- Two parts with any blanks between them, of which the second has the value. -/
instance : SeqRight (Grammar ρ) where
  seqRight first second := .map Prod.snd (.seq first (second ()))

/-- Two parts with any blanks between them, of which the first has the value. -/
instance : SeqLeft (Grammar ρ) where
  seqLeft first second := .map Prod.fst (.seq first (second ()))

/-- One item or more. -/
def oneOrMore (item : Grammar ρ α) : Grammar ρ (List α) :=
  .map (fun items => items.1 :: items.2) (.seq item (.many item))

/-! ## Reading only takes from the front -/

theorem after?_isSuffix {characters text rest : List Char}
    (h : after? characters text = some rest) : rest <:+ text := by
  induction characters generalizing text with
  | nil =>
      rw [after?, Option.some.injEq] at h
      exact h ▸ List.suffix_rfl
  | cons c characters ih =>
      cases text with
      | nil => simp [after?] at h
      | cons d text =>
          rw [after?] at h
          split at h
          · exact (ih h).trans (List.suffix_cons d text)
          · cases h

theorem skipBlanks_isSuffix (text : List Char) : Text.skipBlanks text <:+ text :=
  List.dropWhile_suffix Text.isBlank

theorem readItems_isSuffix {item? : List Char → Option (α × List Char)}
    (hitem : ∀ text value rest, item? text = some (value, rest) → rest <:+ text)
    (fuel : Nat) (text : List Char) : (readItems item? fuel text).2 <:+ text := by
  induction fuel generalizing text with
  | zero => exact List.suffix_rfl
  | succ fuel ih =>
      rw [readItems]
      split
      · exact List.suffix_rfl
      · next value rest hread =>
          exact ((ih rest).trans (hitem _ _ _ hread)).trans (skipBlanks_isSuffix text)

/-- What is left after reading stands at the end of the text. -/
theorem read?_isSuffix (grammar : Grammar ρ α) {text rest : List Char} {value : α}
    (h : grammar.read? text = some (value, rest)) : rest <:+ text := by
  induction grammar generalizing text rest with
  | token name lexeme value? =>
      obtain ⟨_, -, heq⟩ := Option.map_eq_some_iff.mp h
      exact ⟨lexeme.piece text, (Prod.mk.inj heq).2 ▸ lexeme.piece_append_rest text⟩
  | literal characters =>
      obtain ⟨_, hafter, heq⟩ := Option.map_eq_some_iff.mp h
      exact (Prod.mk.inj heq).2 ▸ after?_isSuffix hafter
  | finish name =>
      rw [read?] at h
      split at h
      · cases h
        exact List.suffix_rfl
      · cases h
  | rule name body ih => exact ih h
  | seq first second ihfirst ihsecond =>
      rw [read?] at h
      split at h
      · cases h
      · next hfirst =>
          split at h
          · cases h
          · next hsecond =>
              cases h
              exact ((ihsecond hsecond).trans (skipBlanks_isSuffix _)).trans (ihfirst hfirst)
  | join first second ihfirst ihsecond =>
      rw [read?] at h
      split at h
      · cases h
      · next hfirst =>
          split at h
          · cases h
          · next hsecond =>
              cases h
              exact (ihsecond hsecond).trans (ihfirst hfirst)
  | choice first second ihfirst ihsecond =>
      rw [read?] at h
      split at h
      · exact ihsecond h
      · next hfirst =>
          cases h
          exact ihfirst hfirst
  | optional body ih =>
      rw [read?] at h
      split at h
      · cases h
        exact List.suffix_rfl
      · next hbody =>
          cases h
          exact ih hbody
  | many item ih =>
      rw [read?, Option.some.injEq] at h
      have hrest : (readItems item.read? (text.length + 1) text).2 = rest := congrArg Prod.snd h
      exact hrest ▸ readItems_isSuffix (fun _ _ _ hread => ih hread) _ text
  | map f body ih =>
      rw [read?] at h
      split at h
      · cases h
      · next hbody =>
          cases h
          exact ih hbody
  | captured body ih =>
      rw [read?] at h
      split at h
      · cases h
      · next hbody =>
          cases h
          exact ih hbody

end Grammar

end ObjectActions
