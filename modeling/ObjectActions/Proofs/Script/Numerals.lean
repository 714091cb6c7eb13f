import ObjectActions.Proofs.Script.Lexicon

/-!
# How numbers are written

A number is a row of digits, or two rows with a point between them of which the first may be
empty.  A list of numbers needs no blanks between two numbers if the second one shows where
it begins: by its sign, or by its point if the first one has had its own.

The relations `IsNumber`, `IsSignedNumber` and `IsNumberList` say which texts are written in
this way and which values they have.  Each comes with the statement that such a text is read
to its value and that nothing behind it is touched, as long as what stands behind it cannot
be part of it (`NumberEnds`).
-/

namespace ObjectActions.Script

open Grammar

variable {text rest : List Char} {x : Binary64}

/-! ## Rows -/

/-- A row of at least one character of a class. -/
def IsRow (member : Char → Bool) (text : List Char) : Prop :=
  text ≠ [] ∧ ∀ c ∈ text, member c = true

instance (member : Char → Bool) (text : List Char) : Decidable (IsRow member text) :=
  decidable_of_iff (text ≠ [] ∧ text.all member = true) (by rw [IsRow, List.all_eq_true])

theorem read?_row_append {member : Char → Bool} (rule : Rule) (h : IsRow member text)
    (hrest : ∀ c ∈ rest.head?, member c = false) :
    (Grammar.token rule (.run member) nonempty?).read? (text ++ rest) =
      some (String.ofList text, rest) := by
  rw [read?_row, Text.takeWhile_append_of_stop h.2 hrest, Text.dropWhile_append_of_stop h.2 hrest,
    if_neg h.1]

/-- A row that fills the text is read as a whole. -/
theorem read?_row_self {member : Char → Bool} (rule : Rule) (h : IsRow member text) :
    (Grammar.token rule (.run member) nonempty?).read? text = some (String.ofList text, []) := by
  have hread := read?_row_append rule h (show ∀ c ∈ ([] : List Char).head?, _ by simp)
  rwa [List.append_nil] at hread

theorem nonempty?_empty : nonempty? "" = none := rfl

theorem productive_row (rule : Rule) (member : Char → Bool) :
    (Grammar.token rule (.run member) nonempty?).Productive :=
  productive_token nonempty?_empty

/-- Whether nothing follows without a blank before it. -/
def Stops (rest : List Char) : Prop := ∀ c ∈ rest.head?, Text.isBlank c = true

/-! ## Numbers without a sign -/

/-- How numbers without a sign are written. -/
inductive IsNumber : List Char → Binary64 → Prop where
  | whole {integral : List Char} (h : IsRow Char.isDigit integral) :
      IsNumber integral (Digits.toBinary64 integral [])
  | fraction {integral fractional : List Char} (hintegral : ∀ c ∈ integral, c.isDigit = true)
      (hfractional : IsRow Char.isDigit fractional) :
      IsNumber (integral ++ '.' :: fractional) (Digits.toBinary64 integral fractional)

/-- Whether what follows a number cannot be part of it. -/
def NumberEnds (text rest : List Char) : Prop :=
  ∀ c ∈ rest.head?, c.isDigit = false ∧ (c = '.' → '.' ∈ text)

theorem numberEnds_nil (text : List Char) : NumberEnds text [] := by simp [NumberEnds]

theorem point_notMem_digits {digits : List Char} (h : ∀ c ∈ digits, c.isDigit = true) :
    '.' ∉ digits := by
  intro hmem
  exact absurd (h '.' hmem) (by decide)

theorem read?_digits (rule : Rule) (text : List Char) :
    (digits rule).read? text =
      if text.takeWhile Char.isDigit = [] then none
      else some (String.ofList (text.takeWhile Char.isDigit), text.dropWhile Char.isDigit) :=
  read?_row rule Char.isDigit text

/-- A fraction is read where a point stands behind the first digits and a digit behind it. -/
theorem read?_fractionNumber (text : List Char) :
    fractionNumber.read? text =
      if (text.dropWhile Char.isDigit).head? = some '.' ∧
          (text.dropWhile Char.isDigit).tail.takeWhile Char.isDigit ≠ [] then
        some (Digits.toBinary64 (text.takeWhile Char.isDigit)
          ((text.dropWhile Char.isDigit).tail.takeWhile Char.isDigit),
          (text.dropWhile Char.isDigit).tail.dropWhile Char.isDigit)
      else none := by
  have hpoint : ".".toList = ['.'] := rfl
  simp only [fractionNumber, read?, Lexeme.rest_run, Lexeme.piece, Option.map_some, hpoint,
    after?_mark (show '.'.isAlpha = false by decide), read?_digits]
  by_cases hhead : (text.dropWhile Char.isDigit).head? = some '.'
  · by_cases hdigits : (text.dropWhile Char.isDigit).tail.takeWhile Char.isDigit = [] <;>
      simp [hhead, hdigits]
  · simp [hhead]

theorem read?_number (text : List Char) :
    number.read? text =
      (fractionNumber.read? text).or
        (if text.takeWhile Char.isDigit = [] then none
          else some (Digits.toBinary64 (text.takeWhile Char.isDigit) [],
            text.dropWhile Char.isDigit)) := by
  simp only [number, orElse_eq_choice, read?, wholeNumber, read?_digits]
  cases fractionNumber.read? text with
  | none => by_cases h : text.takeWhile Char.isDigit = [] <;> simp [h]
  | some result => rfl

/-- What is written as a number is read as this number. -/
theorem IsNumber.read? (h : IsNumber text x) (hrest : NumberEnds text rest) :
    number.read? (text ++ rest) = some (x, rest) := by
  have hdigit : ∀ c ∈ rest.head?, c.isDigit = false := fun c hc => (hrest c hc).1
  rw [read?_number, read?_fractionNumber]
  cases h with
  | whole h =>
      have hhead : rest.head? ≠ some '.' := by
        intro heq
        exact point_notMem_digits h.2 ((hrest '.' heq).2 rfl)
      simp [Text.takeWhile_append_of_stop h.2 hdigit, Text.dropWhile_append_of_stop h.2 hdigit,
        hhead, h.1]
  | @fraction integral fractional hintegral hfractional =>
      have hpoint : ∀ c ∈ ('.' :: (fractional ++ rest)).head?, c.isDigit = false := by
        simp
      rw [List.append_assoc, List.cons_append, Text.takeWhile_append_of_stop hintegral hpoint,
        Text.dropWhile_append_of_stop hintegral hpoint, List.head?_cons, List.tail_cons,
        Text.takeWhile_append_of_stop hfractional.2 hdigit,
        Text.dropWhile_append_of_stop hfractional.2 hdigit, if_pos ⟨rfl, hfractional.1⟩]
      rfl

/-- Whether a number without a sign cannot begin here. -/
def NoNumber (text : List Char) : Prop :=
  ∀ c ∈ text.head?, c.isDigit = false ∧ c ≠ '.'

theorem read?_number_of_noNumber (h : NoNumber text) : number.read? text = none := by
  have hdigits : text.takeWhile Char.isDigit = [] := by
    cases text with
    | nil => rfl
    | cons c rest => simp [(h c rfl).1]
  have hdrop : text.dropWhile Char.isDigit = text := by
    cases text with
    | nil => rfl
    | cons c rest => simp [(h c rfl).1]
  have hhead : text.head? ≠ some '.' := fun heq => (h '.' heq).2 rfl
  rw [read?_number, read?_fractionNumber]
  simp [hdigits, hdrop, hhead]

theorem productive_number : number.Productive := by
  refine Productive.rule (Productive.choice ?_ ?_) _
  · exact ((((productive_row _ _).join_right _).join_right _).map _).rule _
  · exact (productive_row _ _).map _

theorem isRow_takeWhile {member : Char → Bool} (h : text.takeWhile member ≠ []) :
    IsRow member (text.takeWhile member) :=
  ⟨h, fun _ hc => List.mem_takeWhile_imp hc⟩

/-- Where a number is read, one is written at the front. -/
theorem exists_isNumber (h : number.read? text ≠ none) :
    ∃ front x, front <+: text ∧ IsNumber front x := by
  by_cases hdigits : text.takeWhile Char.isDigit = []
  · rw [read?_number, if_pos hdigits, Option.or_none, read?_fractionNumber] at h
    split at h
    · next hfraction =>
        obtain ⟨behind, hbehind⟩ := List.head?_eq_some_iff.mp hfraction.1
        have hdrop : text.dropWhile Char.isDigit = text := by
          have hsplit := List.takeWhile_append_dropWhile (p := Char.isDigit) (l := text)
          rwa [hdigits, List.nil_append] at hsplit
        rw [hdrop] at hbehind hfraction
        rw [hbehind, List.tail_cons] at hfraction
        refine ⟨_, _, ?_, @IsNumber.fraction [] _ (by simp) (isRow_takeWhile hfraction.2)⟩
        rw [hbehind, List.nil_append]
        exact List.cons_prefix_cons.mpr ⟨rfl, List.takeWhile_prefix _⟩
    · exact absurd rfl h
  · exact ⟨_, _, List.takeWhile_prefix _, .whole (isRow_takeWhile hdigits)⟩

/-! ## Numbers with a sign -/

/-- How numbers with or without a sign are written. -/
inductive IsSignedNumber : List Char → Binary64 → Prop where
  | unsigned {text : List Char} {x : Binary64} (h : IsNumber text x) : IsSignedNumber text x
  | plus {text : List Char} {x : Binary64} (h : IsNumber text x) : IsSignedNumber ('+' :: text) x
  | minus {text : List Char} {x : Binary64} (h : IsNumber text x) :
      IsSignedNumber ('-' :: text) (-x)

theorem read?_sign (text : List Char) :
    sign.read? text =
      if text.head? = some '+' then some (false, text.tail)
      else if text.head? = some '-' then some (true, text.tail) else none := by
  have hsingle (c d : Char) : String.ofList [c] = String.ofList [d] ↔ c = d := by simp
  have hplus : "+" = String.ofList ['+'] := rfl
  have hminus : "-" = String.ofList ['-'] := rfl
  cases text with
  | nil => rfl
  | cons c rest =>
      have hpiece : Lexeme.letter.piece (c :: rest) = [c] := rfl
      have hrest : Lexeme.letter.rest (c :: rest) = rest := rfl
      simp only [sign, read?, hpiece, hrest, hplus, hminus, hsingle]
      by_cases h : c = '+'
      · simp [h]
      · by_cases h' : c = '-' <;> simp [h, h']

theorem read?_signedNumber (text : List Char) :
    signedNumber.read? text =
      match sign.read? text with
      | none => number.read? text
      | some (negative, rest) =>
          (number.read? rest).map fun result => (turn negative result.1, result.2) := by
  rw [signedNumber, read?, read?_map, read?_join, read?_optional]
  cases sign.read? text with
  | none => cases h : number.read? text <;> simp [h, turn]
  | some result => cases h : number.read? result.2 <;> simp [h]

theorem IsNumber.ne_nil (h : IsNumber text x) : text ≠ [] := by
  cases h with
  | whole h => exact h.1
  | fraction => simp

/-- A number without a sign begins with a digit or a point. -/
theorem IsNumber.head (h : IsNumber text x) : ∀ c ∈ text.head?, c.isDigit = true ∨ c = '.' := by
  intro c hc
  cases h with
  | whole h => exact .inl (h.2 c (List.mem_of_mem_head? hc))
  | @fraction integral fractional hintegral hfractional =>
      cases integral with
      | nil =>
          rw [List.nil_append, List.head?_cons, Option.mem_some] at hc
          exact .inr hc.symm
      | cons d integral =>
          rw [List.cons_append, List.head?_cons, Option.mem_some] at hc
          exact .inl (hintegral c (hc ▸ List.mem_cons_self))

/-- No sign stands before a number without a sign. -/
theorem IsNumber.read?_sign (h : IsNumber text x) (rest : List Char) :
    sign.read? (text ++ rest) = none := by
  have hhead : (text ++ rest).head? = text.head? := by
    cases htext : text with
    | nil => exact absurd htext h.ne_nil
    | cons c rest => rfl
  have hplus : text.head? ≠ some '+' := by
    intro heq
    rcases h.head '+' heq with hdigit | hpoint
    · exact absurd hdigit (by decide)
    · exact absurd hpoint (by decide)
  have hminus : text.head? ≠ some '-' := by
    intro heq
    rcases h.head '-' heq with hdigit | hpoint
    · exact absurd hdigit (by decide)
    · exact absurd hpoint (by decide)
  rw [Script.read?_sign, hhead, if_neg hplus, if_neg hminus]

theorem IsSignedNumber.read? (h : IsSignedNumber text x) (hrest : NumberEnds text rest) :
    signedNumber.read? (text ++ rest) = some (x, rest) := by
  rw [read?_signedNumber]
  cases h with
  | unsigned h =>
      rw [h.read?_sign rest]
      exact h.read? hrest
  | @plus text x h =>
      have hends : NumberEnds text rest := by simpa [NumberEnds] using hrest
      simp [read?_sign, h.read? hends, turn]
  | @minus text x h =>
      have hends : NumberEnds text rest := by simpa [NumberEnds] using hrest
      simp [read?_sign, h.read? hends, turn]

theorem IsSignedNumber.ne_nil (h : IsSignedNumber text x) : text ≠ [] := by
  cases h with
  | unsigned h => exact h.ne_nil
  | plus | minus => simp

/-- The characters that numbers begin with. -/
def beginsNumber (c : Char) : Bool := c.isDigit || c == '.' || c == '+' || c == '-'

theorem IsSignedNumber.head (h : IsSignedNumber text x) :
    ∀ c ∈ text.head?, beginsNumber c = true := by
  intro c hc
  cases h with
  | unsigned h => rcases h.head c hc with hdigit | rfl <;> simp [beginsNumber, *]
  | plus | minus =>
      rw [List.head?_cons, Option.mem_some] at hc
      subst hc
      rfl

theorem read?_signedNumber_of_head (h : ∀ c ∈ text.head?, beginsNumber c = false) :
    signedNumber.read? text = none := by
  have hplus : text.head? ≠ some '+' := fun heq => absurd (h '+' heq) (by decide)
  have hminus : text.head? ≠ some '-' := fun heq => absurd (h '-' heq) (by decide)
  have hnumber : NoNumber text := by
    intro c hc
    have hbegins := h c hc
    simp only [beginsNumber, Bool.or_eq_false_iff, beq_eq_false_iff_ne] at hbegins
    exact hbegins.1.1
  rw [read?_signedNumber, read?_sign, if_neg hplus, if_neg hminus]
  exact read?_number_of_noNumber hnumber

theorem productive_signedNumber : signedNumber.Productive :=
  ((productive_number.join_right _).map _).rule _

theorem exists_isSignedNumber (h : signedNumber.read? text ≠ none) :
    ∃ front x, front <+: text ∧ IsSignedNumber front x := by
  rw [read?_signedNumber, read?_sign] at h
  have hsigned {c : Char} (hhead : text.head? = some c)
      (hsome : number.read? text.tail ≠ none) :
      ∃ front x, c :: front <+: text ∧ IsNumber front x := by
    obtain ⟨front, x, hfront, hnumber⟩ := exists_isNumber hsome
    obtain ⟨rest, rfl⟩ := List.head?_eq_some_iff.mp hhead
    exact ⟨front, x, List.cons_prefix_cons.mpr ⟨rfl, hfront⟩, hnumber⟩
  by_cases hplus : text.head? = some '+'
  · obtain ⟨front, x, hfront, hnumber⟩ := hsigned hplus (by simpa [hplus] using h)
    exact ⟨_, _, hfront, .plus hnumber⟩
  · by_cases hminus : text.head? = some '-'
    · obtain ⟨front, x, hfront, hnumber⟩ := hsigned hminus (by simpa [hminus] using h)
      exact ⟨_, _, hfront, .minus hnumber⟩
    · obtain ⟨front, x, hfront, hnumber⟩ := exists_isNumber (by simpa [hplus, hminus] using h)
      exact ⟨_, _, hfront, .unsigned hnumber⟩

/-! ## Lists of numbers -/

/-- How lists of numbers are written. -/
inductive IsNumberList : List Char → List Binary64 → Prop where
  | last {text : List Char} {x : Binary64} (h : IsSignedNumber text x) : IsNumberList text [x]
  | more {text blanks further : List Char} {x : Binary64} {xs : List Binary64}
      (h : IsSignedNumber text x) (hblanks : blanks.all Text.isBlank)
      (hends : NumberEnds text (blanks ++ further)) (hfurther : IsNumberList further xs) :
      IsNumberList (text ++ (blanks ++ further)) (x :: xs)

variable {xs : List Binary64}

theorem IsNumberList.exists_cons (h : IsNumberList text xs) :
    ∃ c rest, text = c :: rest ∧ beginsNumber c = true := by
  have hfirst {text : List Char} {x : Binary64} (h : IsSignedNumber text x) :
      ∃ c rest, text = c :: rest ∧ beginsNumber c = true := by
    obtain ⟨c, rest, heq⟩ := List.exists_cons_of_ne_nil h.ne_nil
    exact ⟨c, rest, heq, h.head c (by simp [heq])⟩
  cases h with
  | last h => exact hfirst h
  | more h =>
      obtain ⟨c, rest, heq, hbegins⟩ := hfirst h
      exact ⟨c, _, by rw [heq, List.cons_append], hbegins⟩

theorem isBlank_of_beginsNumber {c : Char} (h : beginsNumber c = true) :
    Text.isBlank c = false := by
  cases hblank : Text.isBlank c with
  | false => rfl
  | true =>
      simp only [Text.isBlank, Bool.or_eq_true, beq_iff_eq] at hblank
      rcases hblank with ((rfl | rfl) | rfl) | rfl <;> exact absurd h (by decide)

theorem Stops.numberEnds (h : Stops rest) (text : List Char) : NumberEnds text rest := by
  intro c hc
  have hblank := h c hc
  simp only [Text.isBlank, Bool.or_eq_true, beq_iff_eq] at hblank
  rcases hblank with ((rfl | rfl) | rfl) | rfl <;> exact ⟨by decide, by simp⟩

theorem IsNumberList.skipBlanks_append (h : IsNumberList text xs) (rest : List Char) :
    Text.skipBlanks (text ++ rest) = text ++ rest := by
  obtain ⟨c, further, rfl, hc⟩ := h.exists_cons
  exact Text.skipBlanks_cons_of_not (isBlank_of_beginsNumber hc) _

/-- Where no number follows, exactly the numbers of the list are read. -/
theorem items_of_isNumberList (h : IsNumberList text xs) (hrest : Stops rest)
    (hnext : ∀ c ∈ (Text.skipBlanks rest).head?, beginsNumber c = false) :
    (items signedNumber (text ++ rest)).1 = xs ∧
      Text.skipBlanks (items signedNumber (text ++ rest)).2 = Text.skipBlanks rest := by
  have hprod := productive_signedNumber
  induction h with
  | @last text x h =>
      have hread : signedNumber.read? (Text.skipBlanks (text ++ rest)) = some (x, rest) := by
        rw [(IsNumberList.last h).skipBlanks_append]
        exact h.read? (hrest.numberEnds text)
      have hstop : items signedNumber rest = ([], rest) :=
        items_of_none (read?_signedNumber_of_head hnext)
      rw [items_of_some hprod hread, hstop]
      exact ⟨rfl, rfl⟩
  | @more text blanks further x xs h hblanks hends hfurther ih =>
      have hends' : NumberEnds text (blanks ++ further ++ rest) := by
        intro d hd
        refine hends d ?_
        obtain ⟨c, tail, rfl, -⟩ := hfurther.exists_cons
        cases blanks <;> simpa using hd
      have hread : signedNumber.read? (Text.skipBlanks (text ++ (blanks ++ further) ++ rest)) =
          some (x, blanks ++ further ++ rest) := by
        rw [(IsNumberList.more h hblanks hends hfurther).skipBlanks_append, List.append_assoc]
        exact h.read? hends'
      have hblank : Text.skipBlanks (blanks ++ further ++ rest) = further ++ rest := by
        have hnil := Text.skipBlanks_eq_nil_iff.mpr hblanks
        rw [List.append_assoc, Text.skipBlanks_append_of_eq_nil hnil, hfurther.skipBlanks_append]
      have hitems := items_skipBlanks hprod (blanks ++ further ++ rest)
      rw [hblank] at hitems
      rw [items_of_some hprod hread]
      exact ⟨by rw [← hitems.1, ih.1], by rw [← hitems.2, ih.2]⟩

theorem productive_numberList : numberList.Productive :=
  ((productive_signedNumber.seq _).map _).rule _

/-- What is written as a list of numbers is read as this list. -/
theorem IsNumberList.read? (h : IsNumberList text xs) (hrest : Stops rest)
    (hnext : ∀ c ∈ (Text.skipBlanks rest).head?, beginsNumber c = false) :
    ∃ last, numberList.read? (text ++ rest) = some (xs, last) ∧
      Text.skipBlanks last = Text.skipBlanks rest := by
  have hitems := items_of_isNumberList h hrest hnext
  have hskip := h.skipBlanks_append rest
  cases hread : signedNumber.read? (text ++ rest) with
  | none =>
      rw [items_of_none (by rwa [hskip])] at hitems
      have hnil : xs = [] := hitems.1.symm
      cases h <;> cases hnil
  | some result =>
      obtain ⟨last, hlast, hskipLast⟩ := read?_oneOrMore_of_some productive_signedNumber hread
      rw [items_of_some productive_signedNumber (by rwa [hskip])] at hitems
      exact ⟨last, hlast.trans (by rw [← hitems.1]), hskipLast.trans hitems.2⟩

end ObjectActions.Script
