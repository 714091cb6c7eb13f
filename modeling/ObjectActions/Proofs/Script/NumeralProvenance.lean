import ObjectActions.Proofs.Grammar.Provenance
import ObjectActions.Proofs.Script.NumeralReach

/-!
# Where numbers come from

Whatever is read as a number has been written as one: the converse of `IsNumber.read?` and its
siblings.  A number takes all that can be part of it, with one exception.  A point behind its
digits is left alone if no digit stands behind the point, and then no number begins with that
point either (`exists_isNumber_of_read?`); so the numbers of a list are told apart in the only
way in which the list can be written.
-/

namespace ObjectActions.Script

open Grammar

variable {text rest : List Char} {x : Binary64}

/-! ## Rows -/

theorem shows_row {T : List Char → Prop} {rule : Rule} (member : Char → Bool) :
    Shows T (.token rule (.run member) nonempty?) fun text w =>
      IsRow member text ∧ w = String.ofList text := by
  refine (Shows.run rule member nonempty?).mono ?_
  rintro text w ⟨hmember, hw⟩
  rw [nonempty?_ofList] at hw
  split at hw
  · cases hw
  · next hne =>
      cases hw
      exact ⟨⟨hne, hmember⟩, rfl⟩

/-! ## Numbers -/

/-- A point without a digit behind it does not begin a number. -/
theorem read?_signedNumber_point (h : text.takeWhile Char.isDigit = []) :
    signedNumber.read? ('.' :: text) = none := by
  rw [read?_signedNumber, read?_sign, if_neg (by simp), if_neg (by simp)]
  simp [read?_number, read?_fractionNumber, h]

/-- What is read as a number is written as one, and what is left cannot be part of it or begins
with a point that is part of no number. -/
theorem exists_isNumber_of_read? (h : number.read? text = some (x, rest)) :
    ∃ front, text = front ++ rest ∧ IsNumber front x ∧
      (NumberEnds front rest ∨ rest.head? = some '.' ∧ signedNumber.read? rest = none) := by
  have hintegral : ∀ c ∈ text.takeWhile Char.isDigit, c.isDigit = true :=
    fun _ hc => List.mem_takeWhile_imp hc
  have hsplit := List.takeWhile_append_dropWhile (p := Char.isDigit) (l := text)
  rw [read?_number, read?_fractionNumber] at h
  by_cases hfraction : (text.dropWhile Char.isDigit).head? = some '.' ∧
      (text.dropWhile Char.isDigit).tail.takeWhile Char.isDigit ≠ []
  · rw [if_pos hfraction] at h
    cases h
    obtain ⟨behind, hbehind⟩ := List.head?_eq_some_iff.mp hfraction.1
    rw [hbehind, List.tail_cons] at hfraction
    have hends : NumberEnds (text.takeWhile Char.isDigit ++ '.' :: behind.takeWhile Char.isDigit)
        (behind.dropWhile Char.isDigit) :=
      fun c hc => ⟨head?_dropWhile behind c hc, fun _ => by simp⟩
    have hfront := calc
      text = text.takeWhile Char.isDigit ++ '.' :: behind := by rw [← hbehind, hsplit]
      _ = (text.takeWhile Char.isDigit ++ '.' :: behind.takeWhile Char.isDigit) ++
          behind.dropWhile Char.isDigit := by simp
    rw [hbehind, List.tail_cons]
    exact ⟨_, hfront, .fraction hintegral (isRow_takeWhile hfraction.2), .inl hends⟩
  · rw [if_neg hfraction, Option.none_or] at h
    split at h
    · cases h
    · next hrow =>
        cases h
        refine ⟨_, hsplit.symm, .whole (isRow_takeWhile hrow), ?_⟩
        by_cases hpoint : (text.dropWhile Char.isDigit).head? = some '.'
        · obtain ⟨behind, hbehind⟩ := List.head?_eq_some_iff.mp hpoint
          rw [hbehind, List.tail_cons] at hfraction
          have hnone : behind.takeWhile Char.isDigit = [] := by simpa using hfraction
          rw [hbehind]
          exact .inr ⟨rfl, read?_signedNumber_point hnone⟩
        · refine .inl fun c hc => ⟨head?_dropWhile text c hc, ?_⟩
          rintro rfl
          exact absurd hc hpoint

theorem shows_number (T : List Char → Prop) : Shows T number IsNumber := by
  intro text x rest _ hread
  obtain ⟨front, hfront, hnumber, -⟩ := exists_isNumber_of_read? hread
  exact ⟨front, hfront, hnumber⟩

/-! ## Numbers with a sign -/

/-- How a sign and the number behind it are written. -/
inductive IsForcedNumber : List Char → Binary64 → Prop where
  | plus {text : List Char} {x : Binary64} (h : IsNumber text x) : IsForcedNumber ('+' :: text) x
  | minus {text : List Char} {x : Binary64} (h : IsNumber text x) :
      IsForcedNumber ('-' :: text) (-x)

theorem shows_sign (T : List Char → Prop) :
    Shows T sign fun text negative => text = [if negative then '-' else '+'] := by
  intro text negative rest _ hread
  rw [read?_sign] at hread
  split at hread
  · next hplus =>
      obtain ⟨behind, rfl⟩ := List.head?_eq_some_iff.mp hplus
      cases hread
      exact ⟨_, rfl, rfl⟩
  · split at hread
    · next hminus =>
        obtain ⟨behind, rfl⟩ := List.head?_eq_some_iff.mp hminus
        cases hread
        exact ⟨_, rfl, rfl⟩
    · cases hread

theorem isForcedNumber_turn (negative : Bool) (h : IsNumber text x) :
    IsForcedNumber ((if negative then '-' else '+') :: text) (turn negative x) := by
  cases negative with
  | false => exact .plus h
  | true => exact .minus h

theorem shows_forcedNumber {T : List Char → Prop} (hT : PassesOn T) :
    Shows T forcedNumber IsForcedNumber := by
  refine (((Shows.join hT (shows_sign T) (shows_number T)).mono ?_).map).rule _
  rintro text ⟨negative, x⟩ ⟨front, behind, rfl, rfl, hnumber⟩
  exact isForcedNumber_turn negative hnumber

theorem IsForcedNumber.isSignedNumber (h : IsForcedNumber text x) : IsSignedNumber text x := by
  cases h with
  | plus h => exact .plus h
  | minus h => exact .minus h

theorem exists_isSignedNumber_of_read? (h : signedNumber.read? text = some (x, rest)) :
    ∃ front, text = front ++ rest ∧ IsSignedNumber front x ∧
      (NumberEnds front rest ∨ rest.head? = some '.' ∧ signedNumber.read? rest = none) := by
  rw [read?_signedNumber] at h
  cases hsign : sign.read? text with
  | none =>
      rw [hsign] at h
      obtain ⟨front, hfront, hnumber, hends⟩ := exists_isNumber_of_read? h
      exact ⟨front, hfront, .unsigned hnumber, hends⟩
  | some result =>
      obtain ⟨negative, behind⟩ := result
      rw [hsign] at h
      obtain ⟨⟨y, last⟩, hread, heq⟩ := Option.map_eq_some_iff.mp h
      cases heq
      obtain ⟨front, rfl, hnumber, hends⟩ := exists_isNumber_of_read? hread
      obtain ⟨_, rfl, rfl⟩ := shows_sign (fun _ => True) trivial hsign
      refine ⟨_, rfl, (isForcedNumber_turn negative hnumber).isSignedNumber, hends.imp_left ?_⟩
      exact fun hends c hc => ⟨(hends c hc).1, fun hpoint =>
        List.mem_cons_of_mem _ ((hends c hc).2 hpoint)⟩

theorem shows_signedNumber (T : List Char → Prop) : Shows T signedNumber IsSignedNumber := by
  intro text x rest _ hread
  obtain ⟨front, hfront, hnumber, -⟩ := exists_isSignedNumber_of_read? hread
  exact ⟨front, hfront, hnumber⟩

/-! ## Lists of numbers -/

/-- Whether the numbers that are read from a text, if there are any, are written there as a list
of numbers behind blanks. -/
def ShowsItems (text : List Char) : Prop :=
  items signedNumber text = ([], text) ∨
    ∃ blanks core, text = blanks ++ (core ++ (items signedNumber text).2) ∧
      blanks.all Text.isBlank ∧ IsNumberList core (items signedNumber text).1

/-- A number in front of a list of numbers makes a longer list. -/
theorem ShowsItems.exists_cons (h : ShowsItems rest)
    (hread : signedNumber.read? text = some (x, rest)) :
    ∃ core, text = core ++ (items signedNumber rest).2 ∧
      IsNumberList core (x :: (items signedNumber rest).1) := by
  obtain ⟨front, hfront, hnumber, hends⟩ := exists_isSignedNumber_of_read? hread
  rcases h with hstop | ⟨blanks, core, hrest, hblanks, hcore⟩
  · rw [hstop]
    exact ⟨front, hfront, .last hnumber⟩
  · have hends' : NumberEnds front rest := by
      refine hends.resolve_right fun ⟨hpoint, hnone⟩ => ?_
      -- no number begins here, so there would be no further number
      have hskip : Text.skipBlanks rest = rest := by
        refine Text.skipBlanks_eq_self fun c hc => ?_
        rw [hpoint, Option.mem_some] at hc
        exact hc ▸ by decide
      rw [items_of_none (by rwa [hskip])] at hcore
      cases hcore
    refine ⟨front ++ (blanks ++ core), ?_, .more hnumber hblanks ?_ hcore⟩
    · rw [List.append_assoc, List.append_assoc, ← hrest, ← hfront]
    · obtain ⟨c, tail, rfl, -⟩ := hcore.exists_cons
      intro d hd
      rw [hrest] at hends'
      exact hends' d (by cases blanks <;> simpa using hd)

theorem showsItems (text : List Char) : ShowsItems text := by
  have hprod := productive_signedNumber
  induction text using hprod.items_induction with
  | stop text hstop => exact .inl (items_of_none hstop)
  | step text x rest hread ih =>
      right
      obtain ⟨blanks, hblanks, hsplit⟩ := Text.exists_blanks_append text
      obtain ⟨core, hcore, hlist⟩ := ih.exists_cons hread
      rw [items_of_some hprod hread]
      exact ⟨blanks, core, hcore ▸ hsplit, Text.skipBlanks_eq_nil_iff.mp hblanks, hlist⟩

/-- Behind a single number the blanks are taken away too. -/
theorem shows_numberList (T : List Char → Prop) :
    Shows T numberList (Padded IsNumberList) := by
  intro text xs rest _ hread
  rw [numberList, read?, oneOrMore, read?_map, read?_seq] at hread
  obtain ⟨⟨⟨x, further⟩, last⟩, hparts, heq⟩ := Option.map_eq_some_iff.mp hread
  cases heq
  obtain ⟨⟨y, middle⟩, hfirst, hmany⟩ := Option.bind_eq_some_iff.mp hparts
  rw [read?_many, Option.map_some, Option.some.injEq] at hmany
  cases hmany
  cases hnext : signedNumber.read? (Text.skipBlanks middle) with
  | none =>
      rw [items_of_none (by rwa [Text.skipBlanks_skipBlanks])]
      obtain ⟨front, rfl, hnumber⟩ := shows_signedNumber T ‹_› hfirst
      obtain ⟨blanks, hblanks, hsplit⟩ := Text.exists_blanks_append middle
      refine ⟨front ++ blanks, ?_, front, blanks, rfl, Text.skipBlanks_eq_nil_iff.mp hblanks,
        .last hnumber⟩
      rw [List.append_assoc, ← hsplit]
  | some result =>
      have hprod := productive_signedNumber
      have hitems : items signedNumber (Text.skipBlanks middle) = items signedNumber middle := by
        rw [items_of_some hprod hnext, items_of_some hprod (by rwa [Text.skipBlanks_skipBlanks])]
      obtain ⟨core, hcore, hlist⟩ := (showsItems middle).exists_cons hfirst
      rw [hitems]
      exact ⟨core, hcore, .of_written hlist⟩

end ObjectActions.Script
