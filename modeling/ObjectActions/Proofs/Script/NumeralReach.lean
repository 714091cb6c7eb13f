import ObjectActions.Proofs.Script.Numerals
import ObjectActions.Proofs.Script.RowReach

/-!
# Numbers that are cut off

A number that is cut off is a number with less digits, unless it is cut off behind its point.
Appending a zero always makes a number of it again.

How a number is read depends on where its digits end, so texts are split there first
(`NumeralSplit`): there may be no point, a point with no digits behind it, or a point with
digits behind it.
-/

namespace ObjectActions.Script

open Grammar

variable {text more rest : List Char}

/-! ## Where the digits end -/

/-- The three ways in which a text can begin as far as numbers are concerned. -/
inductive NumeralSplit : List Char → Prop where
  | whole {integral behind : List Char} (hintegral : ∀ c ∈ integral, c.isDigit = true)
      (hbehind : ∀ c ∈ behind.head?, c.isDigit = false ∧ c ≠ '.') :
      NumeralSplit (integral ++ behind)
  | point {integral behind : List Char} (hintegral : ∀ c ∈ integral, c.isDigit = true)
      (hbehind : ∀ c ∈ behind.head?, c.isDigit = false) :
      NumeralSplit (integral ++ '.' :: behind)
  | fraction {integral fractional behind : List Char}
      (hintegral : ∀ c ∈ integral, c.isDigit = true) (hfractional : IsRow Char.isDigit fractional)
      (hbehind : ∀ c ∈ behind.head?, c.isDigit = false) :
      NumeralSplit (integral ++ '.' :: (fractional ++ behind))

theorem numeralSplit (text : List Char) : NumeralSplit text := by
  have hdigits : ∀ c ∈ text.takeWhile Char.isDigit, c.isDigit = true :=
    fun _ hc => List.mem_takeWhile_imp hc
  have hbehind := @head?_dropWhile Char.isDigit text
  have hsplit := List.takeWhile_append_dropWhile (p := Char.isDigit) (l := text)
  rw [← hsplit]
  by_cases hpoint : (text.dropWhile Char.isDigit).head? = some '.'
  · obtain ⟨behind, hdrop⟩ := List.head?_eq_some_iff.mp hpoint
    rw [hdrop]
    have hbehind' := @head?_dropWhile Char.isDigit behind
    by_cases hrow : behind.takeWhile Char.isDigit = []
    · refine .point hdigits ?_
      have hself := List.takeWhile_append_dropWhile (p := Char.isDigit) (l := behind)
      rw [hrow, List.nil_append] at hself
      rwa [hself] at hbehind'
    · rw [← List.takeWhile_append_dropWhile (p := Char.isDigit) (l := behind)]
      exact .fraction hdigits (isRow_takeWhile hrow) hbehind'
  · refine .whole hdigits fun c hc => ⟨hbehind c hc, ?_⟩
    rintro rfl
    exact hpoint hc

/-! ## What is read and tried -/

theorem rest?_number (text : List Char) :
    number.rest? text =
      if (text.dropWhile Char.isDigit).head? = some '.' ∧
          (text.dropWhile Char.isDigit).tail.takeWhile Char.isDigit ≠ [] then
        some ((text.dropWhile Char.isDigit).tail.dropWhile Char.isDigit)
      else if text.takeWhile Char.isDigit = [] then none
      else some (text.dropWhile Char.isDigit) := by
  unfold rest?
  rw [read?_number, read?_fractionNumber]
  split
  · rfl
  · rw [Option.none_or]
    split <;> rfl

theorem reach?_fractionNumber (text : List Char) :
    fractionNumber.reach? text =
      if (text.dropWhile Char.isDigit).head? = some '.' then
        if (text.dropWhile Char.isDigit).tail.takeWhile Char.isDigit = [] then
          some (text.dropWhile Char.isDigit).tail.length
        else none
      else some text.length := by
  have hpoint : ".".toList = ['.'] := rfl
  have hmark := fun text => @after?_mark '.' (by decide) text
  have hintegral : (Grammar.token Rule.integral (.run Char.isDigit) some).rest? text =
      some (text.dropWhile Char.isDigit) := by
    rw [rest?_token, Lexeme.rest_run]
    rfl
  have hquiet : (Grammar.token Rule.integral (.run Char.isDigit) some).reach? text = none := by
    rw [reach?_token]
    rfl
  have hrest := rest?_row .fractional Char.isDigit
  have hreach := reach?_row .fractional Char.isDigit
  simp only [fractionNumber, digits, reach?_rule, rest?_map, reach?_map, rest?_join, reach?_join,
    hintegral, hquiet, rest?_literal, reach?_literal, hpoint, hmark, Option.bind_some,
    Option.merge_none_left]
  by_cases hhead : (text.dropWhile Char.isDigit).head? = some '.'
  · by_cases hrow : (text.dropWhile Char.isDigit).tail.takeWhile Char.isDigit = []
    · simp only [hhead, hrest, hreach, hrow, if_true, Option.bind_some, Option.getD_some,
        Option.isSome_none, ite_self, List.length_tail]
    · simp only [hhead, hrest, hreach, hrow, if_true, if_false, Option.bind_some,
        Option.isSome_some]
  · simp [hhead]

theorem reach?_number (text : List Char) :
    number.reach? text =
      if (text.dropWhile Char.isDigit).head? = some '.' then
        if (text.dropWhile Char.isDigit).tail.takeWhile Char.isDigit = [] then
          some (text.dropWhile Char.isDigit).tail.length
        else none
      else some text.length := by
  have hfraction : (fractionNumber.rest? text).isSome =
      decide ((text.dropWhile Char.isDigit).head? = some '.' ∧
          (text.dropWhile Char.isDigit).tail.takeWhile Char.isDigit ≠ []) := by
    unfold rest?
    rw [read?_fractionNumber]
    split <;> simp_all
  have hdrop := (List.dropWhile_sublist Char.isDigit (l := text)).length_le
  have hchoice : (Grammar.choice fractionNumber wholeNumber).reach? text =
      fractionNumber.reach? text := by
    rw [reach?_choice, hfraction, reach?_fractionNumber, wholeNumber, reach?_map, digits,
      reach?_row]
    by_cases hhead : (text.dropWhile Char.isDigit).head? = some '.'
    · by_cases hrow : (text.dropWhile Char.isDigit).tail.takeWhile Char.isDigit = []
      · by_cases hdigits : text.takeWhile Char.isDigit = []
        · have hmin : min ((text.dropWhile Char.isDigit).length - 1) text.length =
              (text.dropWhile Char.isDigit).length - 1 := by omega
          simp [hhead, hrow, hdigits, hmin]
        · simp [hhead, hrow, hdigits]
      · simp [hhead, hrow]
    · by_cases hdigits : text.takeWhile Char.isDigit = [] <;> simp [hhead, hdigits]
  rw [number, orElse_eq_choice, reach?_rule, hchoice, reach?_fractionNumber]
  by_cases hhead : (text.dropWhile Char.isDigit).head? = some '.'
  · by_cases hrow : (text.dropWhile Char.isDigit).tail.takeWhile Char.isDigit = []
    · simp [hhead, hrow]
    · have hsome : ((Grammar.choice fractionNumber wholeNumber).rest? text).isSome := by
        rw [rest?_choice]
        simp [hfraction, hhead, hrow]
      rw [if_pos hsome]
  · simp [hhead]

section Split

variable {integral fractional behind : List Char}

theorem number_whole (hintegral : ∀ c ∈ integral, c.isDigit = true)
    (hbehind : ∀ c ∈ behind.head?, c.isDigit = false ∧ c ≠ '.') :
    number.rest? (integral ++ behind) = (if integral = [] then none else some behind) ∧
      number.reach? (integral ++ behind) = some (integral ++ behind).length := by
  have hstop : ∀ c ∈ behind.head?, c.isDigit = false := fun c hc => (hbehind c hc).1
  have hhead : behind.head? ≠ some '.' := fun heq => (hbehind '.' heq).2 rfl
  rw [rest?_number, reach?_number, Text.takeWhile_append_of_stop hintegral hstop,
    Text.dropWhile_append_of_stop hintegral hstop]
  simp [hhead]

theorem number_point (hintegral : ∀ c ∈ integral, c.isDigit = true)
    (hbehind : ∀ c ∈ behind.head?, c.isDigit = false) :
    number.rest? (integral ++ '.' :: behind) =
        (if integral = [] then none else some ('.' :: behind)) ∧
      number.reach? (integral ++ '.' :: behind) = some behind.length := by
  have hstop : ∀ c ∈ ('.' :: behind).head?, c.isDigit = false := by simp
  have hnil : behind.takeWhile Char.isDigit = [] := by
    cases behind with
    | nil => rfl
    | cons c behind => simp [hbehind c rfl]
  rw [rest?_number, reach?_number, Text.takeWhile_append_of_stop hintegral hstop,
    Text.dropWhile_append_of_stop hintegral hstop]
  simp [hnil]

theorem number_fraction (hintegral : ∀ c ∈ integral, c.isDigit = true)
    (hfractional : IsRow Char.isDigit fractional)
    (hbehind : ∀ c ∈ behind.head?, c.isDigit = false) :
    number.rest? (integral ++ '.' :: (fractional ++ behind)) = some behind ∧
      number.reach? (integral ++ '.' :: (fractional ++ behind)) = none := by
  have hstop : ∀ c ∈ ('.' :: (fractional ++ behind)).head?, c.isDigit = false := by simp
  rw [rest?_number, reach?_number, Text.takeWhile_append_of_stop hintegral hstop,
    Text.dropWhile_append_of_stop hintegral hstop, List.tail_cons,
    Text.takeWhile_append_of_stop hfractional.2 hbehind,
    Text.dropWhile_append_of_stop hfractional.2 hbehind]
  simp [hfractional.1]

end Split

/-- A number that begins with some digits takes up all of them. -/
theorem exists_rest?_digits_append {integral : List Char}
    (hintegral : ∀ c ∈ integral, c.isDigit = true) (hne : integral ≠ []) (more : List Char) :
    ∃ rest, number.rest? (integral ++ more) = some rest ∧ rest.length ≤ more.length := by
  have hall {digits : List Char} (hdigits : ∀ c ∈ digits, c.isDigit = true) :
      ∀ c ∈ integral ++ digits, c.isDigit = true := List.forall_mem_append.mpr ⟨hintegral, hdigits⟩
  cases numeralSplit more with
  | @whole digits behind hdigits hbehind =>
      rw [← List.append_assoc, (number_whole (hall hdigits) hbehind).1, if_neg (by simp [hne])]
      exact ⟨behind, rfl, by simp⟩
  | @point digits behind hdigits hbehind =>
      rw [← List.append_assoc, (number_point (hall hdigits) hbehind).1, if_neg (by simp [hne])]
      exact ⟨_, rfl, by simp⟩
  | @fraction digits fractional behind hdigits hfractional hbehind =>
      rw [← List.append_assoc, (number_fraction (hall hdigits) hfractional hbehind).1]
      refine ⟨behind, rfl, ?_⟩
      simp only [List.length_append, List.length_cons]
      omega

/-! ## Numbers before an end -/

/-- The texts that may be the front of a longer number. -/
inductive NumeralOpen : List Char → Prop where
  | digits {integral : List Char} (hintegral : ∀ c ∈ integral, c.isDigit = true) :
      NumeralOpen integral
  | point {integral : List Char} (hintegral : ∀ c ∈ integral, c.isDigit = true) :
      NumeralOpen (integral ++ ['.'])
  | fraction {integral fractional : List Char} (hintegral : ∀ c ∈ integral, c.isDigit = true)
      (hfractional : IsRow Char.isDigit fractional) :
      NumeralOpen (integral ++ '.' :: fractional)

/-- A text in which all about a number is decided, whatever stands behind it. -/
def NumeralDecided (text : List Char) : Prop :=
  ∃ (left : Option (List Char)) (reached : Option Nat), (∀ rest ∈ left, rest ≠ []) ∧
    (∀ n ∈ reached, n ≠ 0) ∧ ∀ more, number.rest? (text ++ more) = left.map (· ++ more) ∧
      number.reach? (text ++ more) = reached.map (· + more.length)

theorem numeralDecided_or_open (text : List Char) : NumeralDecided text ∨ NumeralOpen text := by
  cases numeralSplit text with
  | @whole integral behind hintegral hbehind =>
      cases behind with
      | nil => exact .inr (by simpa using .digits hintegral)
      | cons c behind =>
          refine .inl ⟨if integral = [] then none else some (c :: behind),
            some (integral ++ c :: behind).length, ?_, by simp, fun more => ?_⟩
          · split <;> simp
          · rw [List.append_assoc, (number_whole hintegral (by simpa using hbehind)).1,
              (number_whole hintegral (by simpa using hbehind)).2]
            refine ⟨by split <;> rfl, by simp; omega⟩
  | @point integral behind hintegral hbehind =>
      cases behind with
      | nil => exact .inr (.point hintegral)
      | cons c behind =>
          refine .inl ⟨if integral = [] then none else some ('.' :: c :: behind),
            some (c :: behind).length, ?_, by simp, fun more => ?_⟩
          · split <;> simp
          · rw [List.append_assoc, List.cons_append,
              (number_point hintegral (by simpa using hbehind)).1,
              (number_point hintegral (by simpa using hbehind)).2]
            refine ⟨by split <;> rfl, by simp; omega⟩
  | @fraction integral fractional behind hintegral hfractional hbehind =>
      cases behind with
      | nil => exact .inr (by simpa using .fraction hintegral hfractional)
      | cons c behind =>
          refine .inl ⟨some (c :: behind), none, by simp, by simp, fun more => ?_⟩
          rw [List.append_assoc, List.cons_append, List.append_assoc]
          exact number_fraction hintegral hfractional (by simpa using hbehind)

namespace NumeralDecided

theorem rest?_append (h : NumeralDecided text) (more : List Char) :
    number.rest? (text ++ more) = (number.rest? text).map (· ++ more) := by
  obtain ⟨left, reached, -, -, hall⟩ := h
  have hnil := (hall []).1
  rw [List.append_nil] at hnil
  rw [(hall more).1, hnil, Option.map_map]
  congr 1
  funext last
  simp

/-- Something is left, since the number could go on otherwise. -/
theorem ne_nil (h : NumeralDecided text) (hrest : number.rest? text = some rest) : rest ≠ [] := by
  obtain ⟨left, reached, hne, -, hall⟩ := h
  have hnil := (hall []).1
  rw [List.append_nil, hrest] at hnil
  obtain ⟨last, hlast, heq⟩ := Option.map_eq_some_iff.mp hnil.symm
  rw [List.append_nil] at heq
  exact heq ▸ hne last hlast

/-- Nothing is tried at the end of the text. -/
theorem reach?_ne (h : NumeralDecided text) (more : List Char) :
    number.reach? (text ++ more) ≠ some more.length := by
  obtain ⟨left, reached, -, hpos, hall⟩ := h
  intro hreach
  rw [(hall more).2] at hreach
  obtain ⟨n, hn, heq⟩ := Option.map_eq_some_iff.mp hreach
  exact hpos n hn (by omega)

end NumeralDecided

theorem reports_number : number.Reports := .rule _ _

/-- A number with more of its fraction. -/
theorem number_fraction_append {integral fractional : List Char}
    (hintegral : ∀ c ∈ integral, c.isDigit = true)
    (hfractional : ∀ c ∈ fractional, c.isDigit = true)
    (h : fractional ≠ [] ∨ ∃ c ∈ more.head?, c.isDigit = true) :
    number.rest? (integral ++ '.' :: (fractional ++ more)) = some (more.dropWhile Char.isDigit) ∧
      number.reach? (integral ++ '.' :: (fractional ++ more)) = none := by
  have hsplit := List.takeWhile_append_dropWhile (p := Char.isDigit) (l := more)
  have hrow : IsRow Char.isDigit (fractional ++ more.takeWhile Char.isDigit) := by
    refine ⟨?_, fun c hc => ?_⟩
    · rcases h with h | ⟨c, hc, hdigit⟩
      · simp [h]
      · obtain ⟨behind, rfl⟩ := List.head?_eq_some_iff.mp hc
        simp [hdigit]
    · exact (List.mem_append.mp hc).elim (hfractional c) List.mem_takeWhile_imp
  have hfraction := number_fraction hintegral hrow (head?_dropWhile more)
  rwa [List.append_assoc, hsplit] at hfraction

/-- Where the digits end at the end of a text, a number takes up the whole text unless it is
cut off behind its point. -/
theorem NumeralOpen.rest?_append (h : NumeralOpen text)
    (hrest : number.rest? (text ++ more) = some (rest ++ more)) :
    number.rest? text = some rest ∧
      (rest = [] ∨ number.reach? (text ++ more) = some more.length) := by
  cases h with
  | digits hintegral =>
      -- the number takes up these digits and maybe more, so it does not end before the end of them
      have hne : text ≠ [] := by
        rintro rfl
        have hlt := productive_number.length_lt hrest
        simp only [List.nil_append, List.length_append] at hlt
        omega
      obtain ⟨last, hlast, hle⟩ := exists_rest?_digits_append hintegral hne more
      rw [hrest, Option.some.injEq] at hlast
      have hnil : rest = [] := by
        refine List.length_eq_zero_iff.mp ?_
        rw [← hlast, List.length_append] at hle
        omega
      have hwhole := (@number_whole text [] hintegral (by simp)).1
      rw [List.append_nil, if_neg hne] at hwhole
      exact ⟨hnil ▸ hwhole, .inl hnil⟩
  | @point integral hintegral =>
      rw [List.append_assoc, List.singleton_append] at hrest ⊢
      by_cases hdigit : ∃ c ∈ more.head?, c.isDigit = true
      · -- the digits behind the point would be read as well
        have hfraction :=
          @number_fraction_append more integral [] hintegral (by simp) (.inr hdigit)
        rw [List.nil_append, hrest, Option.some.injEq] at hfraction
        have hlength := congrArg List.length hfraction.1
        obtain ⟨c, hc, hdigit⟩ := hdigit
        obtain ⟨behind, rfl⟩ := List.head?_eq_some_iff.mp hc
        have hle := (List.dropWhile_sublist Char.isDigit (l := behind)).length_le
        rw [List.dropWhile_cons_of_pos hdigit] at hlength
        simp only [List.length_append, List.length_cons] at hlength
        omega
      · have hbehind : ∀ c ∈ more.head?, c.isDigit = false := by simpa using hdigit
        have hpoint := number_point hintegral hbehind
        have hpoint' := (@number_point integral [] hintegral (by simp)).1
        rw [hpoint.1] at hrest
        split at hrest
        · cases hrest
        · next hne =>
            rw [if_neg hne] at hpoint'
            rw [Option.some.injEq, ← List.singleton_append] at hrest
            exact ⟨List.append_cancel_right hrest ▸ hpoint', .inr hpoint.2⟩
  | @fraction integral fractional hintegral hfractional =>
      have hcut := (@number_fraction integral fractional [] hintegral hfractional (by simp)).1
      have hfraction :=
        @number_fraction_append more _ _ hintegral hfractional.2 (.inl hfractional.1)
      rw [List.append_nil] at hcut
      rw [List.append_assoc, List.cons_append, hfraction.1, Option.some.injEq] at hrest
      have hle := (List.dropWhile_sublist Char.isDigit (l := more)).length_le
      have hnil : rest = [] := by
        refine List.length_eq_zero_iff.mp ?_
        rw [hrest, List.length_append] at hle
        omega
      exact ⟨hnil ▸ hcut, .inl hnil⟩

theorem NumeralOpen.grows (h : NumeralOpen text) (hread : number.rest? text ≠ none) :
    number.rest? (text ++ more) ≠ none := by
  have hdigits {integral : List Char} (hintegral : ∀ c ∈ integral, c.isDigit = true)
      (hne : integral ≠ []) (more : List Char) : number.rest? (integral ++ more) ≠ none := by
    obtain ⟨last, hlast, -⟩ := exists_rest?_digits_append hintegral hne more
    rw [hlast]
    simp
  cases h with
  | digits hintegral =>
      refine hdigits hintegral ?_ more
      rintro rfl
      exact hread (rest?_eq_none_iff.mpr productive_number.read?_nil)
  | @point integral hintegral =>
      rw [List.append_assoc]
      refine hdigits hintegral ?_ _
      rintro rfl
      exact hread (@number_point [] [] (by simp) (by simp)).1
  | @fraction integral fractional hintegral hfractional =>
      have hfraction :=
        @number_fraction_append more _ _ hintegral hfractional.2 (.inl hfractional.1)
      rw [List.append_assoc, List.cons_append, hfraction.1]
      simp

theorem cuts_number : number.Cuts := by
  intro text more rest h
  rcases numeralDecided_or_open text with hdecided | hopen
  · rw [hdecided.rest?_append] at h
    obtain ⟨last, hread, hlast⟩ := Option.map_eq_some_iff.mp h
    rwa [List.append_cancel_right hlast] at hread
  · exact (hopen.rest?_append h).1

theorem grows_number : number.Grows := by
  intro text rest h more
  rcases numeralDecided_or_open text with hdecided | hopen
  · rw [hdecided.rest?_append, h]
    exact Option.some_ne_none _
  · exact hopen.grows (by simp [h])

theorem foresees_number : number.Foresees where
  read text more rest h hne hquiet other := by
    rcases numeralDecided_or_open text with hdecided | hopen
    · rw [hdecided.rest?_append] at h
      obtain ⟨last, hread, hlast⟩ := Option.map_eq_some_iff.mp h
      rw [hdecided.rest?_append, hread, Option.map_some, List.append_cancel_right hlast]
    · rcases (hopen.rest?_append h).2 with hnil | hreach
      · exact absurd hnil hne
      · exact absurd (hquiet _ hreach) (Nat.lt_irrefl _)
  refuse text more h hquiet other := by
    rcases numeralDecided_or_open text with hdecided | hopen
    · rw [hdecided.rest?_append, Option.map_eq_none_iff] at h
      rw [hdecided.rest?_append, h, Option.map_none]
    · have hlt := reports_number.lt_length h hquiet
      cases hopen with
      | digits hintegral =>
          have hne : text ≠ [] := by
            rintro rfl
            exact absurd hlt (Nat.lt_irrefl _)
          obtain ⟨last, hlast, -⟩ := exists_rest?_digits_append hintegral hne more
          rw [h] at hlast
          cases hlast
      | @point integral hintegral =>
          -- nothing that follows the point can be its digits, and that has been tried
          rw [List.append_assoc, List.singleton_append] at h hquiet
          by_cases hdigit : ∃ c ∈ more.head?, c.isDigit = true
          · have hfraction :=
              (@number_fraction_append more integral [] hintegral (by simp) (.inr hdigit)).1
            rw [List.nil_append, h] at hfraction
            cases hfraction
          · have hpoint := (number_point hintegral (by simpa using hdigit)).2
            exact absurd (hquiet _ hpoint) (Nat.lt_irrefl _)
      | @fraction integral fractional hintegral hfractional =>
          have hfraction :=
            (@number_fraction_append more _ _ hintegral hfractional.2 (.inl hfractional.1)).1
          rw [List.append_assoc, List.cons_append, hfraction] at h
          cases h

/-- **A zero completes a number.** -/
theorem rest?_number_zero (h : number.reach? (text ++ more) = some more.length)
    (hrest : ∀ c ∈ rest.head?, c.isDigit = false ∧ c ≠ '.') :
    number.rest? (text ++ '0' :: rest) = some rest := by
  have hzero : ∀ c ∈ ['0'], c.isDigit = true := List.forall_mem_singleton.mpr rfl
  rcases numeralDecided_or_open text with hdecided | hopen
  · exact absurd h (hdecided.reach?_ne more)
  · cases hopen with
    | digits hintegral =>
        -- behind digits the number fails where it begins, and that is not at the end of the text
        have hnil : text = [] := by
          by_contra hne
          have hpos := List.length_pos_iff.mpr hne
          have hall {digits : List Char} (hdigits : ∀ c ∈ digits, c.isDigit = true) :
              ∀ c ∈ text ++ digits, c.isDigit = true :=
            List.forall_mem_append.mpr ⟨hintegral, hdigits⟩
          cases numeralSplit more with
          | whole hdigits hbehind =>
              rw [← List.append_assoc, (number_whole (hall hdigits) hbehind).2] at h
              simp only [List.length_append, Option.some.injEq] at h
              omega
          | point hdigits hbehind =>
              rw [← List.append_assoc, (number_point (hall hdigits) hbehind).2] at h
              simp only [List.length_append, List.length_cons, Option.some.injEq] at h
              omega
          | fraction hdigits hfractional hbehind =>
              rw [← List.append_assoc,
                (number_fraction (hall hdigits) hfractional hbehind).2] at h
              cases h
        have hwhole := (number_whole hzero hrest).1
        rwa [hnil, List.nil_append]
    | point hintegral =>
        have hbehind : ∀ c ∈ rest.head?, c.isDigit = false := fun c hc => (hrest c hc).1
        have hfraction := (number_fraction hintegral ⟨by simp, hzero⟩ hbehind).1
        rwa [List.append_assoc]
    | fraction hintegral hfractional =>
        have hfraction :=
          (@number_fraction_append more _ _ hintegral hfractional.2 (.inl hfractional.1)).2
        rw [List.append_assoc, List.cons_append, hfraction] at h
        cases h

/-- A whole number stays a number if what follows cannot be part of it. -/
theorem rest?_number_append (h : number.rest? text = some [])
    (hrest : ∀ c ∈ rest.head?, c.isDigit = false ∧ c ≠ '.') :
    number.rest? (text ++ rest) = some rest := by
  rcases numeralDecided_or_open text with hdecided | hopen
  · exact absurd rfl (hdecided.ne_nil h)
  · cases hopen with
    | digits hintegral =>
        have hne : text ≠ [] := productive_number.ne_nil h
        rw [(number_whole hintegral hrest).1, if_neg hne]
    | @point integral hintegral =>
        rw [(@number_point integral [] hintegral (by simp)).1] at h
        split at h <;> cases h
    | fraction hintegral hfractional =>
        rw [List.append_assoc]
        exact (number_fraction hintegral hfractional fun c hc => (hrest c hc).1).1

/-- A number that stops before anything but a point stops there whatever follows. -/
theorem rest?_number_cons {c : Char} (h : number.rest? text = some (c :: rest)) (hc : c ≠ '.')
    (more : List Char) : number.rest? (text ++ more) = some (c :: (rest ++ more)) := by
  rcases numeralDecided_or_open text with hdecided | hopen
  · rw [hdecided.rest?_append, h]
    rfl
  · cases hopen with
    | digits hintegral =>
        have hwhole := (@number_whole text [] hintegral (by simp)).1
        rw [List.append_nil, h] at hwhole
        split at hwhole <;> cases hwhole
    | @point integral hintegral =>
        rw [(@number_point integral [] hintegral (by simp)).1] at h
        split at h
        · cases h
        · cases h
          exact absurd rfl hc
    | @fraction integral fractional hintegral hfractional =>
        have hfraction :=
          (@number_fraction integral fractional [] hintegral hfractional (by simp)).1
        rw [List.append_nil, h] at hfraction
        cases hfraction

/-- A whole number can always have one more digit. -/
theorem rest?_number_digit (h : number.rest? text = some []) :
    number.rest? (text ++ ['0']) = some [] := by
  have hzero : ∀ c ∈ ['0'], c.isDigit = true := List.forall_mem_singleton.mpr rfl
  have hall {digits : List Char} (hdigits : ∀ c ∈ digits, c.isDigit = true) :
      ∀ c ∈ digits ++ ['0'], c.isDigit = true := List.forall_mem_append.mpr ⟨hdigits, hzero⟩
  rcases numeralDecided_or_open text with hdecided | hopen
  · exact absurd rfl (hdecided.ne_nil h)
  · cases hopen with
    | digits hintegral =>
        have hwhole := (@number_whole _ [] (hall hintegral) (by simp)).1
        rwa [List.append_nil, if_neg (by simp)] at hwhole
    | @point integral hintegral =>
        rw [(@number_point integral [] hintegral (by simp)).1] at h
        split at h <;> cases h
    | @fraction integral fractional hintegral hfractional =>
        have hrow : IsRow Char.isDigit (fractional ++ ['0']) := ⟨by simp, hall hfractional.2⟩
        have hfraction := (@number_fraction integral _ [] hintegral hrow (by simp)).1
        rw [List.append_assoc, List.cons_append]
        rwa [List.append_nil] at hfraction

end ObjectActions.Script
