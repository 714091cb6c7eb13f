import ObjectActions.Grammar.Frontier

/-!
# Repetitions without a bound

`Grammar.readItems` is given a number of items that it may read at most.  That number
never matters as long as no item is empty: such an item leaves less of the text, so the
text runs out before the number does.  A grammar of this sort is called `Productive`, and
for productive items a repetition satisfies the two equations that one expects of it:

* where no item can be read it stops, and gives back the blanks it skipped;
* where an item can be read it goes on behind that item.

`Productive.items_induction` is the induction over the items that goes with them.
-/

namespace ObjectActions.Grammar

variable {ρ α β : Type}

/-! ## How grammars are written down -/

@[simp] theorem orElse_eq_choice (first second : Grammar ρ α) :
    (first <|> second) = .choice first second := rfl

@[simp] theorem seqRight_eq_map (first : Grammar ρ α) (second : Grammar ρ β) :
    (first *> second) = .map Prod.snd (.seq first second) := rfl

@[simp] theorem seqLeft_eq_map (first : Grammar ρ α) (second : Grammar ρ β) :
    (first <* second) = .map Prod.fst (.seq first second) := rfl

theorem read?_map (f : α → β) (body : Grammar ρ α) (text : List Char) :
    (map f body).read? text = (body.read? text).map fun result => (f result.1, result.2) := by
  rw [read?]
  cases body.read? text <;> rfl

theorem read?_seq (first : Grammar ρ α) (second : Grammar ρ β) (text : List Char) :
    (seq first second).read? text =
      (first.read? text).bind fun a =>
        (second.read? (Text.skipBlanks a.2)).map fun b => ((a.1, b.1), b.2) := by
  rw [read?]
  cases first.read? text with
  | none => rfl
  | some a => cases h : second.read? (Text.skipBlanks a.2) <;> simp [h]

theorem read?_join (first : Grammar ρ α) (second : Grammar ρ β) (text : List Char) :
    (join first second).read? text =
      (first.read? text).bind fun a => (second.read? a.2).map fun b => ((a.1, b.1), b.2) := by
  rw [read?]
  cases first.read? text with
  | none => rfl
  | some a => cases h : second.read? a.2 <;> simp [h]

theorem read?_optional (body : Grammar ρ α) (text : List Char) :
    body.optional.read? text =
      some ((body.read? text).elim (none, text) fun result => (some result.1, result.2)) := by
  rw [read?]
  cases body.read? text <;> rfl

/-- The first alternative decides, and the second one where the first one cannot be read. -/
theorem read?_choice (first second : Grammar ρ α) (text : List Char) :
    (choice first second).read? text = (first.read? text).or (second.read? text) := by
  rw [read?]
  cases first.read? text <;> rfl

/-- A part that may be missing is missing exactly where it cannot be read. -/
theorem read?_optional_none_iff {body : Grammar ρ α} {text rest : List Char} :
    body.optional.read? text = some (none, rest) ↔ body.read? text = none ∧ rest = text := by
  rw [read?_optional]
  cases body.read? text <;> simp [eq_comm]

theorem read?_optional_some_iff {body : Grammar ρ α} {text rest : List Char} {value : α} :
    body.optional.read? text = some (some value, rest) ↔ body.read? text = some (value, rest) := by
  rw [read?_optional]
  cases body.read? text <;> simp [Prod.ext_iff]

theorem read?_optional_map (f : α → β) (body : Grammar ρ α) (text : List Char) :
    (map f body).optional.read? text =
      (body.optional.read? text).map fun result => (result.1.map f, result.2) := by
  rw [read?_optional, read?_optional, read?_map]
  cases body.read? text <;> rfl

theorem read?_seqRight (first : Grammar ρ α) (second : Grammar ρ β) (text : List Char) :
    (first *> second).read? text =
      (first.read? text).bind fun a => second.read? (Text.skipBlanks a.2) := by
  rw [seqRight_eq_map, read?_map, read?_seq]
  cases first.read? text with
  | none => rfl
  | some a => cases h : second.read? (Text.skipBlanks a.2) <;> simp [h]

/-! ## Grammars that take something -/

/-- Whatever is read takes at least one character. -/
def Productive (grammar : Grammar ρ α) : Prop :=
  ∀ ⦃text value rest⦄, grammar.read? text = some (value, rest) → rest.length < text.length

theorem length_le_of_read? (grammar : Grammar ρ α) {text rest : List Char} {value : α}
    (h : grammar.read? text = some (value, rest)) : rest.length ≤ text.length :=
  (grammar.read?_isSuffix h).length_le

/-- Nothing productive can be read from nothing. -/
theorem Productive.read?_nil {grammar : Grammar ρ α} (h : grammar.Productive) :
    grammar.read? [] = none := by
  cases hread : grammar.read? [] with
  | none => rfl
  | some result => exact absurd (h hread) (Nat.not_lt_zero _)

theorem productive_token {name : ρ} {lexeme : Lexeme} {value? : String → Option α}
    (h : value? "" = none) : (token name lexeme value?).Productive := by
  intro text value rest hread
  obtain ⟨_, hvalue, heq⟩ := Option.map_eq_some_iff.mp hread
  have hpiece : lexeme.piece text ≠ [] := by
    intro hnil
    rw [hnil] at hvalue
    exact absurd (h.symm.trans hvalue) (by simp)
  have hlength := congrArg List.length (lexeme.piece_append_rest text)
  have hpos := List.length_pos_iff.mpr hpiece
  rw [← (Prod.mk.inj heq).2]
  simp only [List.length_append] at hlength
  omega

theorem productive_literal {characters : String} (h : characters.toList ≠ []) :
    (literal characters : Grammar ρ Unit).Productive := by
  intro text value rest hread
  obtain ⟨_, hafter, heq⟩ := Option.map_eq_some_iff.mp hread
  rw [← (Prod.mk.inj heq).2]
  cases hchars : characters.toList with
  | nil => exact absurd hchars h
  | cons c cs =>
      rw [hchars] at hafter
      cases text with
      | nil => simp [after?] at hafter
      | cons d text =>
          rw [after?] at hafter
          split at hafter
          · exact Nat.lt_succ_of_le (after?_isSuffix hafter).length_le
          · cases hafter

theorem Productive.rule {body : Grammar ρ α} (h : body.Productive) (name : ρ) :
    (rule name body).Productive :=
  fun _ _ _ hread => h hread

theorem Productive.map {body : Grammar ρ α} (h : body.Productive) (f : α → β) :
    (map f body).Productive := by
  intro text value rest hread
  rw [read?] at hread
  split at hread
  · cases hread
  · next hbody =>
      cases hread
      exact h hbody

theorem Productive.captured {body : Grammar ρ α} (h : body.Productive) :
    body.captured.Productive := by
  intro text value rest hread
  rw [read?] at hread
  split at hread
  · cases hread
  · next hbody =>
      cases hread
      exact h hbody

theorem Productive.choice {first second : Grammar ρ α} (hfirst : first.Productive)
    (hsecond : second.Productive) : (Grammar.choice first second).Productive := by
  intro text value rest hread
  rw [read?] at hread
  split at hread
  · exact hsecond hread
  · next hread' =>
      cases hread
      exact hfirst hread'

theorem Productive.seq {first : Grammar ρ α} (h : first.Productive) (second : Grammar ρ β) :
    (seq first second).Productive := by
  intro text value rest hread
  rw [read?] at hread
  split at hread
  · cases hread
  · next middle hfirst =>
      split at hread
      · cases hread
      · next hsecond =>
          cases hread
          have hle := second.length_le_of_read? hsecond
          have hskip := Text.length_skipBlanks_le middle
          have hlt := h hfirst
          omega

theorem Productive.join {first : Grammar ρ α} (h : first.Productive) (second : Grammar ρ β) :
    (join first second).Productive := by
  intro text value rest hread
  rw [read?] at hread
  split at hread
  · cases hread
  · next hfirst =>
      split at hread
      · cases hread
      · next hsecond =>
          cases hread
          exact Nat.lt_of_le_of_lt (second.length_le_of_read? hsecond) (h hfirst)

/-- Two parts of which the second takes something. -/
theorem Productive.join_right {second : Grammar ρ β} (h : second.Productive)
    (first : Grammar ρ α) : (Grammar.join first second).Productive := by
  intro text value rest hread
  rw [read?] at hread
  split at hread
  · cases hread
  · next hfirst =>
      split at hread
      · cases hread
      · next hsecond =>
          cases hread
          exact Nat.lt_of_lt_of_le (h hsecond) (first.length_le_of_read? hfirst)

/-! ## Reading items -/

/-- The bound on the number of items does not matter if it exceeds the text. -/
theorem readItems_congr {item : Grammar ρ α} (h : item.Productive) {first second : Nat}
    {text : List Char} (hfirst : text.length < first) (hsecond : text.length < second) :
    readItems item.read? first text = readItems item.read? second text := by
  induction first generalizing second text with
  | zero => exact absurd hfirst (Nat.not_lt_zero _)
  | succ first ih =>
      cases second with
      | zero => exact absurd hsecond (Nat.not_lt_zero _)
      | succ second =>
          rw [readItems, readItems]
          split
          · rfl
          · next rest hread =>
              have hlt := h hread
              have hskip := Text.length_skipBlanks_le text
              rw [@ih second rest (by omega) (by omega)]

/-- The items at the front of a text, and what is left of the text behind them. -/
def items (item : Grammar ρ α) (text : List Char) : List α × List Char :=
  readItems item.read? (text.length + 1) text

theorem read?_many (item : Grammar ρ α) (text : List Char) :
    (many item).read? text = some (items item text) := by
  rw [read?, items]

theorem items_of_none {item : Grammar ρ α} {text : List Char}
    (hread : item.read? (Text.skipBlanks text) = none) : items item text = ([], text) := by
  rw [items, readItems, hread]

theorem items_of_some {item : Grammar ρ α} (h : item.Productive) {text rest : List Char}
    {value : α} (hread : item.read? (Text.skipBlanks text) = some (value, rest)) :
    items item text = (value :: (items item rest).1, (items item rest).2) := by
  have hlt := h hread
  have hskip := Text.length_skipBlanks_le text
  rw [items, readItems, hread]
  simp only [items]
  rw [readItems_congr h (by omega) (Nat.lt_succ_self _)]

/-- Blanks before the first item make no difference, blanks at the end aside. -/
theorem items_skipBlanks {item : Grammar ρ α} (h : item.Productive) (text : List Char) :
    (items item (Text.skipBlanks text)).1 = (items item text).1 ∧
      Text.skipBlanks (items item (Text.skipBlanks text)).2 =
        Text.skipBlanks (items item text).2 := by
  cases hread : item.read? (Text.skipBlanks text) with
  | none =>
      have hread' : item.read? (Text.skipBlanks (Text.skipBlanks text)) = none := by simpa
      rw [items_of_none hread, items_of_none hread']
      simp
  | some result =>
      have hread' : item.read? (Text.skipBlanks (Text.skipBlanks text)) =
          some (result.1, result.2) := by simpa
      rw [items_of_some h hread, items_of_some h hread']
      simp

/-- One item or more is an item and the items behind it, blanks at the end aside. -/
theorem read?_oneOrMore_of_some {item : Grammar ρ α} (h : item.Productive)
    {text rest : List Char} {value : α} (hread : item.read? text = some (value, rest)) :
    ∃ last, (oneOrMore item).read? text = some (value :: (items item rest).1, last) ∧
      Text.skipBlanks last = Text.skipBlanks (items item rest).2 := by
  have hskip := items_skipBlanks h rest
  refine ⟨(items item (Text.skipBlanks rest)).2, ?_, hskip.2⟩
  rw [oneOrMore, read?_map, read?_seq, hread, ← hskip.1]
  simp only [read?_many, Option.bind_some, Option.map_some]

/-- Induction over the items that stand at the front of a text. -/
theorem Productive.items_induction {item : Grammar ρ α} (h : item.Productive)
    {motive : List Char → Prop}
    (stop : ∀ text, item.read? (Text.skipBlanks text) = none → motive text)
    (step : ∀ text value rest, item.read? (Text.skipBlanks text) = some (value, rest) →
      motive rest → motive text) (text : List Char) : motive text := by
  induction hlength : text.length using Nat.strongRecOn generalizing text with
  | ind length ih =>
      cases hread : item.read? (Text.skipBlanks text) with
      | none => exact stop text hread
      | some result =>
          obtain ⟨value, rest⟩ := result
          have hlt := h hread
          have hskip := Text.length_skipBlanks_le text
          exact step text value rest hread (ih rest.length (by omega) rest rfl)

/-! ## Watching items -/

theorem itemFailures_congr {item : Grammar ρ α} (h : item.Productive)
    (watch : List Char → Option (Frontier ρ)) {first second : Nat} {text : List Char}
    (hfirst : text.length < first) (hsecond : text.length < second) :
    itemFailures item.read? watch first text = itemFailures item.read? watch second text := by
  induction first generalizing second text with
  | zero => exact absurd hfirst (Nat.not_lt_zero _)
  | succ first ih =>
      cases second with
      | zero => exact absurd hsecond (Nat.not_lt_zero _)
      | succ second =>
          simp only [itemFailures]
          split
          · rfl
          · next rest hread =>
              have hlt := h hread
              have hskip := Text.length_skipBlanks_le text
              rw [@ih second rest (by omega) (by omega)]

theorem failures_many_of_none {item : Grammar ρ α} {text : List Char}
    (hread : item.read? (Text.skipBlanks text) = none) :
    (many item).failures text = item.failures (Text.skipBlanks text) := by
  simp only [failures, itemFailures, hread]

theorem failures_many_of_some {item : Grammar ρ α} (h : item.Productive)
    {text rest : List Char} {value : α}
    (hread : item.read? (Text.skipBlanks text) = some (value, rest)) :
    (many item).failures text =
      Frontier.furthest (item.failures (Text.skipBlanks text)) ((many item).failures rest) := by
  have hlt := h hread
  have hskip := Text.length_skipBlanks_le text
  simp only [failures]
  rw [itemFailures]
  simp only [hread]
  rw [itemFailures_congr h item.failures (by omega) (Nat.lt_succ_self _)]

end ObjectActions.Grammar
