import ObjectActions.Proofs.Grammar.Repetition
import ObjectActions.Proofs.Text.Cutting
import ObjectActions.Script.Clause

/-!
# How the smallest parts of a script are read

The tokens of a script are rows of characters of one class, single characters, and fixed
characters in any case.  This module says for each sort of token what is read and what is
left, in terms of `List.takeWhile` and `List.dropWhile`, and does the same for the two
parts that are put together from tokens in one way everywhere: parameters and quoted text.

Other modules cite these statements and do not look into the grammars again.
-/

namespace ObjectActions

theorem Lexeme.rest_run (member : Char → Bool) (text : List Char) :
    (Lexeme.run member).rest text = text.dropWhile member := by
  have hsplit := (Lexeme.run member).piece_append_rest text
  have hpiece : (Lexeme.run member).piece text = text.takeWhile member := rfl
  rw [hpiece] at hsplit
  exact List.append_cancel_left (hsplit.trans List.takeWhile_append_dropWhile.symm)

namespace Script

open Grammar

variable {α : Type}

/-! ## Rows and words -/

theorem nonempty?_ofList (word : List Char) :
    nonempty? (String.ofList word) = if word = [] then none else some (String.ofList word) := by
  have hempty : String.ofList word = "" ↔ word = [] := by
    rw [← String.toList_inj]
    simp
  simp [nonempty?, hempty]

theorem read?_row (rule : Rule) (member : Char → Bool) (text : List Char) :
    (Grammar.token rule (.run member) nonempty?).read? text =
      if text.takeWhile member = [] then none
      else some (String.ofList (text.takeWhile member), text.dropWhile member) := by
  rw [read?, Lexeme.rest_run, Lexeme.piece, nonempty?_ofList]
  split <;> rfl

theorem failures_row (rule : Rule) (member : Char → Bool) (text : List Char) :
    (Grammar.token rule (.run member) nonempty?).failures text =
      if text.takeWhile member = [] then some ⟨text.length, [rule]⟩ else none := by
  rw [failures, Lexeme.piece, nonempty?_ofList]
  by_cases h : text.takeWhile member = [] <;> simp [h]

theorem read?_word (rule : Rule) (value? : String → Option α) (text : List Char) :
    (word rule value?).read? text =
      (value? (String.ofList (text.takeWhile Text.isNameChar))).map fun value =>
        (value, text.dropWhile Text.isNameChar) := by
  rw [word, read?, Lexeme.rest_run, Lexeme.piece]

/-! ## Fixed characters -/

/-- A mark that is no letter is found only where it stands. -/
theorem after?_mark {c : Char} (hc : c.isAlpha = false) (text : List Char) :
    after? [c] text = if text.head? = some c then some text.tail else none := by
  cases text with
  | nil => simp [after?]
  | cons d rest =>
      rw [after?, Text.toLower_of_not_isAlpha hc]
      by_cases h : d = c
      · subst h
        simp [Text.toLower_of_not_isAlpha hc, after?]
      · have hne : ¬ c = d.toLower := fun heq => h ((Text.toLower_eq_iff hc d).mp heq.symm)
        simp [hne, h]

/-! ## Parameters -/

/-- What stands behind a key and an equals sign, if a text begins with these. -/
def afterKey? (key : String) (text : List Char) : Option (List Char) :=
  (after? key.toList text).bind fun rest =>
    if (Text.skipBlanks rest).head? = some '=' then
      some (Text.skipBlanks (Text.skipBlanks rest).tail)
    else none

theorem read?_parameter (p : Parameter) (value : Grammar Rule α) (text : List Char) :
    (parameter p value).read? text = (afterKey? p.key text).bind value.read? := by
  simp only [parameter, seqRight_eq_map, read?, afterKey?]
  cases after? p.key.toList text with
  | none => rfl
  | some rest =>
      have hmark : "=".toList = ['='] := rfl
      simp only [Option.map_some, hmark, after?_mark (show '='.isAlpha = false by decide),
        Option.bind_some]
      by_cases h : (Text.skipBlanks rest).head? = some '='
      · simp only [h, if_true, Option.map_some, Option.bind_some]
        cases value.read? (Text.skipBlanks (Text.skipBlanks rest).tail) <;> rfl
      · simp [h]

/-- The characters of a key are letters. -/
theorem isAlpha_of_mem_key (p : Parameter) : ∀ c ∈ p.key.toList, c.isAlpha = true :=
  List.all_eq_true.mp (by cases p <;> decide)

/-! ## Quoted text -/

theorem read?_quotedText_of_head {text : List Char} (h : text.head? ≠ some '"') :
    quotedText.read? text = none := by
  have hmark : "\"".toList = ['"'] := rfl
  simp [quotedText, read?, hmark, after?_mark (show '"'.isAlpha = false by decide), h]

/-- What is left of quoted text begins with a quote unless nothing is left. -/
theorem head?_dropWhile_isQuotable (text : List Char) :
    (text.dropWhile Text.isQuotable).head? = some '"' ↔ '"' ∈ text := by
  induction text with
  | nil => simp
  | cons c rest ih =>
      by_cases hc : c = '"'
      · simp [hc, Text.isQuotable]
      · have hquotable : Text.isQuotable c = true := by simp [Text.isQuotable, hc]
        rw [List.dropWhile_cons_of_pos hquotable, ih]
        simp [Ne.symm hc]

theorem read?_quotedText (text : List Char) :
    quotedText.read? ('"' :: text) =
      if '"' ∈ text then
        some (String.ofList (text.takeWhile Text.isQuotable),
          (text.dropWhile Text.isQuotable).tail)
      else none := by
  have hmark : "\"".toList = ['"'] := rfl
  have hhead := head?_dropWhile_isQuotable text
  simp only [quotedText, read?, hmark, after?_mark (show '"'.isAlpha = false by decide),
    Lexeme.rest_run, Lexeme.piece]
  by_cases h : '"' ∈ text
  · simp [h, hhead.mpr h]
  · have hnot : (text.dropWhile Text.isQuotable).head? ≠ some '"' := fun heq => h (hhead.mp heq)
    simp [h, hnot]

/-- A part in which nothing smaller is reported is reported where it would begin. -/
theorem failures_rule_of_silent {body : Grammar Rule α} (h : ∀ text, body.failures text = none)
    (name : Rule) (text : List Char) :
    (Grammar.rule name body).failures text =
      if (body.read? text).isSome then none else some ⟨text.length, [name]⟩ := by
  rw [failures, h]
  cases body.read? text <;> rfl

theorem failures_quotedText (text : List Char) :
    quotedText.failures text =
      if (quotedText.read? text).isSome then none else some ⟨text.length, [.signText]⟩ := by
  refine failures_rule_of_silent (fun text => ?_) .signText text
  simp only [failures, read?]
  split
  · rfl
  · split <;> simp

end Script

end ObjectActions
