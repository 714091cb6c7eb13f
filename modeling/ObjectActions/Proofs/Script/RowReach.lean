import ObjectActions.Proofs.Grammar.Continuation
import ObjectActions.Proofs.Script.Lexicon

/-!
# Rows that are cut off

A row of characters ends where a character of another class stands, or with the text.  A row that
ends before the end of the text is read in the same way without that end (`cuts_run`) and with any
other end (`rest?_run_append`).  A row that goes up to the end of the text may go on behind it, so
a word that is cut off may be another word or no word at all.

A single letter does not depend on what follows it.
-/

namespace ObjectActions.Script

open Grammar

variable {text more rest : List Char}

/-! ## Where a row ends -/

theorem takeWhile_ne_nil_iff {member : Char → Bool} :
    text.takeWhile member ≠ [] ↔ ∃ c ∈ text.head?, member c = true := by
  cases text with
  | nil => simp
  | cons c text => cases h : member c <;> simp [h]

theorem head?_dropWhile {member : Char → Bool} (text : List Char) :
    ∀ c ∈ (text.dropWhile member).head?, member c = false := by
  intro c hc
  have h := List.head?_dropWhile_not member text
  rw [Option.mem_def.mp hc] at h
  exact h

theorem dropWhile_of_append {member : Char → Bool}
    (h : (text ++ more).dropWhile member = rest ++ more) : text.dropWhile member = rest := by
  rw [List.dropWhile_append] at h
  split at h
  · next hnil =>
      have hle := (List.dropWhile_sublist member (l := more)).length_le
      rw [h, List.length_append] at hle
      rw [List.length_eq_zero_iff.mp (show rest.length = 0 by omega)]
      simpa using hnil
  · exact List.append_cancel_right h

/-- A row that ends before the end of the text is the same without that end. -/
theorem takeWhile_of_dropWhile_append {member : Char → Bool}
    (h : (text ++ more).dropWhile member = rest ++ more) :
    text.takeWhile member = (text ++ more).takeWhile member := by
  have hdrop := dropWhile_of_append h
  have hsplit := List.takeWhile_append_dropWhile (p := member) (l := text)
  have hsplit' := List.takeWhile_append_dropWhile (p := member) (l := text ++ more)
  rw [h, ← List.append_assoc] at hsplit'
  rw [hdrop] at hsplit
  exact List.append_cancel_right (hsplit.trans (List.append_cancel_right hsplit').symm)

section Runs

variable {α : Type} (rule : Rule) (member : Char → Bool) (value? : String → Option α)

theorem rest?_run (text : List Char) :
    (Grammar.token rule (.run member) value?).rest? text =
      if (value? (String.ofList (text.takeWhile member))).isSome then some (text.dropWhile member)
      else none := by
  rw [rest?_token, Lexeme.rest_run]
  rfl

theorem cuts_run : (Grammar.token rule (.run member) value?).Cuts := by
  intro text more rest h
  rw [rest?_run] at h ⊢
  split at h
  · next hsome =>
      rw [Option.some.injEq] at h
      rw [takeWhile_of_dropWhile_append h, if_pos hsome, dropWhile_of_append h]
  · cases h

/-- A row that ends before the end of the text ends there whatever follows. -/
theorem rest?_run_append
    (h : (Grammar.token rule (.run member) value?).rest? (text ++ more) = some (rest ++ more))
    (hne : rest ≠ []) (other : List Char) :
    (Grammar.token rule (.run member) value?).rest? (text ++ other) = some (rest ++ other) := by
  have hcut := cuts_run rule member value? h
  rw [rest?_run] at hcut ⊢
  split at hcut
  · next hsome =>
      rw [Option.some.injEq] at hcut
      have hdrop : text.dropWhile member ≠ [] := hcut ▸ hne
      rw [Text.takeWhile_append_of_dropWhile_ne_nil hdrop, if_pos hsome,
        Text.dropWhile_append_of_ne_nil hdrop, hcut]
  · cases hcut

end Runs

theorem rest?_row (rule : Rule) (member : Char → Bool) (text : List Char) :
    (Grammar.token rule (.run member) nonempty?).rest? text =
      if text.takeWhile member = [] then none else some (text.dropWhile member) := by
  unfold rest?
  rw [read?_row]
  split <;> rfl

theorem reach?_row (rule : Rule) (member : Char → Bool) (text : List Char) :
    (Grammar.token rule (.run member) nonempty?).reach? text =
      if text.takeWhile member = [] then some text.length else none := by
  unfold reach?
  rw [failures_row]
  split <;> rfl

section Tokens

variable {α : Type} (rule : Rule) (member : Char → Bool)

theorem grows_row : (Grammar.token rule (.run member) nonempty?).Grows := by
  intro text rest h more
  rw [rest?_row] at h ⊢
  split at h
  · cases h
  · next hne =>
      obtain ⟨c, hc, hmember⟩ := takeWhile_ne_nil_iff.mp hne
      obtain ⟨behind, rfl⟩ := List.head?_eq_some_iff.mp hc
      simp [hmember]

theorem foresees_row : (Grammar.token rule (.run member) nonempty?).Foresees where
  read _ _ _ h hne _ other := rest?_run_append rule member nonempty? h hne other
  refuse text more h hquiet other := by
    have hlt := (reports_token rule (.run member) nonempty?).lt_length h hquiet
    rw [rest?_row] at h ⊢
    cases text with
    | nil => exact absurd hlt (Nat.lt_irrefl _)
    | cons c text =>
        split at h
        · next htake =>
            have hmember : member c = false := by
              by_contra hmember
              exact takeWhile_ne_nil_iff.mpr ⟨c, rfl, by simpa using hmember⟩ htake
            simp [hmember]
        · cases h

/-- One character that is accepted or not. -/
theorem rest?_letter (value? : String → Option α) (c : Char) (text : List Char) :
    (Grammar.token rule .letter value?).rest? (c :: text) =
      if (value? (String.singleton c)).isSome then some text else none := by
  rw [rest?_token]
  rfl

theorem cuts_letter {value? : String → Option α} (hvalue : value? "" = none) :
    (Grammar.token rule .letter value?).Cuts := by
  intro text more rest h
  cases text with
  | nil =>
      have hlt := (productive_token hvalue).length_lt h
      simp only [List.nil_append, List.length_append] at hlt
      omega
  | cons c text =>
      rw [List.cons_append, rest?_letter] at h
      rw [rest?_letter]
      split at h
      · next hsome =>
          rw [Option.some.injEq] at h
          rw [if_pos hsome, List.append_cancel_right h]
      · cases h

/-- A character that is accepted is accepted whatever follows, and so it is with one that is
not. -/
theorem rest?_letter_append_of_ne_nil (value? : String → Option α) (hne : text ≠ [])
    (more : List Char) :
    (Grammar.token rule .letter value?).rest? (text ++ more) =
      ((Grammar.token rule .letter value?).rest? text).map (· ++ more) := by
  obtain ⟨c, text, rfl⟩ := List.exists_cons_of_ne_nil hne
  rw [List.cons_append, rest?_letter, rest?_letter]
  by_cases h : (value? (String.singleton c)).isSome <;> simp [h]

/-- A character stays what it is. -/
theorem rest?_letter_append {value? : String → Option α} (hvalue : value? "" = none)
    (h : (Grammar.token rule .letter value?).rest? text = some rest) (more : List Char) :
    (Grammar.token rule .letter value?).rest? (text ++ more) = some (rest ++ more) := by
  rw [rest?_letter_append_of_ne_nil rule value? ((productive_token hvalue).ne_nil h), h,
    Option.map_some]

theorem foresees_letter {value? : String → Option α} (hvalue : value? "" = none) :
    (Grammar.token rule .letter value?).Foresees where
  read text more rest h _ _ other :=
    rest?_letter_append rule hvalue (cuts_letter rule hvalue h) other
  refuse text more h hquiet other := by
    have hlt := (reports_token rule .letter value?).lt_length h hquiet
    cases text with
    | nil => exact absurd hlt (Nat.lt_irrefl _)
    | cons c text =>
        rw [List.cons_append, rest?_letter] at h ⊢
        split at h
        · cases h
        · next hnone => rw [if_neg hnone]

end Tokens

end ObjectActions.Script
