import ObjectActions.Proofs.Grammar.Locality
import ObjectActions.Script.Clause

/-!
# The forms of arguments

The arguments of a verb differ in what they mean, but they are written in five forms only:
a parameter, one of some words, a row of characters of one class, a list of numbers, and
quoted text.  `Verb.forms` lists the forms of the arguments of a verb in the order in
which they are tried, and `exists_choices_forms` says that the list is right.

Everything that is said about all verbs together is said about forms, once for each of the
five, so that a verb with other arguments needs a new line in this table and nothing else.
-/

namespace ObjectActions

namespace Script

/-! ## Forms -/

/-- How the value of a parameter is written. -/
inductive ValueForm where
  /-- A row of characters of one class. -/
  | row (member : Char → Bool)
  /-- One of some words in any case. -/
  | word (words : List String)
  /-- A number without a sign. -/
  | number
  /-- A number that may have a sign. -/
  | signedNumber

/-- How an argument is written. -/
inductive Form where
  /-- A parameter with a value. -/
  | parameter (p : Parameter) (value : ValueForm)
  /-- One of some words as they are spelled. -/
  | word (words : List String)
  /-- A row of characters of one class. -/
  | row (member : Char → Bool)
  /-- One number or more. -/
  | numbers
  /-- Text between double quotes. -/
  | quotation

/-- The grammars of values that are written in a form, whatever the values mean. -/
inductive HasValueForm : {α : Type} → Grammar Rule α → ValueForm → Prop where
  | row (rule : Rule) (member : Char → Bool) :
      HasValueForm (.token rule (.run member) nonempty?) (.row member)
  | word (rule : Rule) (words : List String) : HasValueForm (oneOfWords rule words) (.word words)
  | number : HasValueForm Script.number .number
  | signedNumber : HasValueForm Script.signedNumber .signedNumber
  | map {α β : Type} {value : Grammar Rule α} {form : ValueForm} (f : α → β)
      (h : HasValueForm value form) : HasValueForm (.map f value) form

/-- The grammars of arguments that are written in a form, whatever they mean. -/
inductive HasForm : {α : Type} → Grammar Rule α → Form → Prop where
  | parameter {α : Type} (p : Parameter) {value : Grammar Rule α} {form : ValueForm}
      (h : HasValueForm value form) : HasForm (Script.parameter p value) (.parameter p form)
  | word {α : Type} (rule : Rule) {value? : String → Option α} {words : List String}
      (h : ∀ w, (value? w).isSome ↔ w ∈ words) : HasForm (Script.word rule value?) (.word words)
  | row (rule : Rule) (member : Char → Bool) :
      HasForm (.token rule (.run member) nonempty?) (.row member)
  | numbers : HasForm numberList .numbers
  | quotation : HasForm quotedText .quotation
  | map {α β : Type} {argument : Grammar Rule α} {form : Form} (f : α → β)
      (h : HasForm argument form) : HasForm (.map f argument) form

/-- A choice between arguments whose forms are listed in the order in which they are tried. -/
inductive Choices {α : Type} : Grammar Rule α → List Form → Prop where
  | last {argument : Grammar Rule α} {form : Form} (h : HasForm argument form) :
      Choices argument [form]
  | more {first rest : Grammar Rule α} {form : Form} {forms : List Form}
      (h : HasForm first form) (hrest : Choices rest forms) :
      Choices (first <|> rest) (form :: forms)

/-! ## Words -/

theorem isSome_flag_iff (affirmative w : String) :
    (if w = affirmative then some true else none).isSome ↔ w ∈ [affirmative] := by
  split <;> simp_all

theorem isSome_status_iff (affirmative negative w : String) :
    (if w = affirmative then some true else if w = negative then some false else none).isSome ↔
      w ∈ [affirmative, negative] := by
  split
  · simp_all
  · split <;> simp_all

theorem isSome_lookup_iff {α : Type} (table : List (String × α)) (w : String) :
    (table.lookup w).isSome ↔ w ∈ table.map Prod.fst := by
  induction table with
  | nil => simp
  | cons entry table ih =>
      obtain ⟨key, value⟩ := entry
      rw [List.lookup_cons, List.map_cons, List.mem_cons, ← ih]
      cases h : w == key <;> simp_all

end Script

/-! ## The tables -/

/-- How the value of a parameter is written. -/
def Parameter.form : Parameter → Script.ValueForm
  | name | mask | tag => .row Text.isNameChar
  | size | update => .row Char.isDigit
  | color | bcolor => .row Char.isAlphanum
  | time | wait | brightness | radius => .number
  | type => .word ["point", "spot"]
  | fx => .word ["blink", "fadein", "fadeout", "fire", "flash", "flicker", "none", "pulse", "rainbow"]
  | angle | pitch => .signedNumber

/-- The form of a parameter as an argument. -/
def Parameter.argumentForm (p : Parameter) : Script.Form := .parameter p p.form

end ObjectActions
