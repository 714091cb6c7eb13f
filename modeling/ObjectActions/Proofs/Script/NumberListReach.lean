import ObjectActions.Proofs.Script.NumeralReach

/-!
# Signed numbers that are cut off

A sign is read at once, so a signed number that is cut off is a number that is cut off, or a sign
alone.  A zero completes either, and it completes the last of some numbers behind each other
(`rest?_numberList_zero`).

What is read as numbers consists of the characters that numbers can begin with, and blanks.
-/

namespace ObjectActions.Script

open Grammar

variable {text more rest : List Char}

/-! ## Signs -/

theorem grows_sign : sign.Grows := by
  intro text rest h more
  rw [sign, rest?_letter_append .sign rfl h more]
  simp

theorem rest?_signedNumber (text : List Char) :
    signedNumber.rest? text = number.rest? ((sign.rest? text).getD text) := by
  rw [signedNumber, rest?_rule, rest?_map, rest?_join, rest?_optional, Option.bind_some]

theorem reach?_signedNumber (text : List Char) :
    signedNumber.reach? text =
      match sign.rest? text with
      | some tail => number.reach? tail
      | none => some ((number.reach? text).getD text.length) := by
  have hsignReach : sign.reach? text =
      if (sign.rest? text).isSome then none else some text.length :=
    reach?_token_of_rest? _ _ _
  rw [signedNumber, reach?_rule, rest?_map, rest?_join, reach?_map, reach?_join, rest?_optional,
    reach?_optional, Option.bind_some, Option.bind_some, hsignReach]
  cases hsign : sign.rest? text with
  | none =>
      rw [Option.getD_none]
      cases hnumber : number.reach? text with
      | none => simp
      | some k =>
          have hle := number.reach?_le_length hnumber
          simp [Nat.min_eq_right hle]
  | some tail =>
      rw [Option.getD_some]
      cases hnumber : number.reach? tail with
      | some k => simp [hnumber]
      | none =>
          have hsome : number.rest? tail ≠ none := fun hnone => reports_number hnone hnumber
          simp [Option.isSome_iff_ne_none.mpr hsome, hnumber]

theorem cuts_signedNumber : signedNumber.Cuts :=
  ((((cuts_letter .sign rfl).optional grows_sign).join cuts_number).map _).rule _

theorem foresees_signedNumber : signedNumber.Foresees :=
  ((((foresees_letter .sign rfl).optional).join foresees_number reports_number).map _).rule _

theorem reports_signedNumber : signedNumber.Reports := .rule _ _

/-- A sign is read at once, and so is the fact that there is none. -/
theorem rest?_sign_append (hne : text ≠ []) (more : List Char) :
    sign.rest? (text ++ more) = (sign.rest? text).map (· ++ more) :=
  rest?_letter_append_of_ne_nil .sign _ hne more

theorem getD_sign_append (hne : text ≠ []) (more : List Char) :
    (sign.rest? (text ++ more)).getD (text ++ more) = (sign.rest? text).getD text ++ more := by
  rw [rest?_sign_append hne]
  cases sign.rest? text <;> rfl

theorem grows_signedNumber : signedNumber.Grows := by
  intro text rest h more
  rw [rest?_signedNumber] at h ⊢
  rw [getD_sign_append (productive_signedNumber.ne_nil (rest?_signedNumber text ▸ h))]
  exact grows_number h more

/-- A zero completes a number with or without a sign. -/
theorem rest?_signedNumber_zero (h : signedNumber.reach? (text ++ more) = some more.length)
    (hrest : ∀ c ∈ rest.head?, c.isDigit = false ∧ c ≠ '.') :
    signedNumber.rest? (text ++ '0' :: rest) = some rest := by
  have hscratch : number.rest? ('0' :: rest) = some rest :=
    (@number_whole ['0'] rest (List.forall_mem_singleton.mpr rfl) hrest).1
  rw [rest?_signedNumber]
  rw [reach?_signedNumber] at h
  cases text with
  | nil => exact hscratch
  | cons c text =>
      have hne : c :: text ≠ [] := by simp
      rw [rest?_sign_append hne] at h
      rw [getD_sign_append hne]
      cases hsign : sign.rest? (c :: text) with
      | some tail =>
          rw [hsign] at h
          exact rest?_number_zero h hrest
      | none =>
          rw [hsign] at h
          refine @rest?_number_zero _ more _ ?_ hrest
          simp only [Option.map_none, Option.some.injEq] at h
          cases hnumber : number.reach? (c :: text ++ more) with
          | some k =>
              rw [hnumber, Option.getD_some] at h
              rw [← h]
              exact hnumber
          | none =>
              rw [hnumber, Option.getD_none, List.length_append, List.length_cons] at h
              omega

theorem rest?_signedNumber_digit (h : signedNumber.rest? text = some []) :
    signedNumber.rest? (text ++ ['0']) = some [] := by
  have hne := productive_signedNumber.ne_nil h
  rw [rest?_signedNumber] at h ⊢
  rw [getD_sign_append hne]
  exact rest?_number_digit h

/-! ## Lists of numbers -/

theorem rest?_numberList (text : List Char) :
    numberList.rest? text =
      (signedNumber.rest? text).map fun rest => (items signedNumber (Text.skipBlanks rest)).2 := by
  rw [numberList, rest?_rule, oneOrMore, rest?_map, rest?_seq]
  cases signedNumber.rest? text with
  | none => rfl
  | some rest => rw [Option.bind_some, rest?_many, Option.map_some]

theorem cuts_numberList : numberList.Cuts :=
  ((cuts_signedNumber.seq
    (cuts_signedNumber.many grows_signedNumber productive_signedNumber)).map _).rule _

theorem foresees_numberList : numberList.Foresees :=
  ((foresees_signedNumber.seq
    (foresees_signedNumber.many reports_signedNumber productive_signedNumber)
    (reports_many _)).map _).rule _

theorem grows_numberList : numberList.Grows := by
  intro text rest h more
  rw [rest?_numberList] at h ⊢
  obtain ⟨last, hlast, -⟩ := Option.map_eq_some_iff.mp h
  rw [Ne, Option.map_eq_none_iff]
  exact grows_signedNumber hlast more

/-- A zero is read behind the last attempt, and nothing is left. -/
theorem items_signedNumber_zero_of_reach?
    (h : signedNumber.reach? (Text.skipBlanks (text ++ more)) = some more.length) :
    (items signedNumber (text ++ ['0'])).2 = [] := by
  have hread : signedNumber.rest? (Text.skipBlanks (text ++ ['0'])) = some [] := by
    by_cases hblank : Text.skipBlanks text = []
    · rw [Text.skipBlanks_append_of_eq_nil hblank]
      exact @rest?_signedNumber_zero [] [] [] (by decide) (by simp)
    · rw [Text.skipBlanks_append_of_ne_nil hblank] at h ⊢
      exact rest?_signedNumber_zero h (by simp)
  rw [items_snd_of_some productive_signedNumber hread]
  exact List.suffix_nil.mp (items_isSuffix _ _)

/-- A zero completes the last of some numbers. -/
theorem items_signedNumber_zero (h : (many signedNumber).reach? (text ++ more) = some more.length) :
    (items signedNumber (text ++ ['0'])).2 = [] := by
  have hprod := productive_signedNumber
  generalize hwhole : text ++ more = whole at h
  induction whole using hprod.items_induction generalizing text with
  | stop whole hstop =>
      subst hwhole
      rw [reach?_many_of_none (rest?_eq_none_iff.mpr hstop)] at h
      exact items_signedNumber_zero_of_reach? h
  | step whole value last hread ih =>
      subst hwhole
      have hsome := rest?_of_read? hread
      rw [reach?_many_of_some hprod hsome] at h
      by_cases hfirst : signedNumber.reach? (Text.skipBlanks (text ++ more)) = some more.length
      · exact items_signedNumber_zero_of_reach? hfirst
      · have hreach := (eq_or_eq_of_merge h).resolve_left hfirst
        have hle := (many signedNumber).reach?_le_length hreach
        have hlt := hprod hread
        have hblank : Text.skipBlanks text ≠ [] := skipBlanks_ne_nil_of_length_lt more (by omega)
        have hquiet : signedNumber.Quiet more (Text.skipBlanks (text ++ more)) :=
          quiet_of_merge h hfirst
        rw [Text.skipBlanks_append_of_ne_nil hblank] at hsome hquiet
        obtain ⟨front, rfl, -⟩ := exists_append_of_rest? hsome hle
        -- the zero stands behind this number, or is one more of its digits
        have hread' : signedNumber.rest? (Text.skipBlanks (text ++ ['0'])) =
            some (if front = [] then [] else front ++ ['0']) := by
          rw [Text.skipBlanks_append_of_ne_nil hblank]
          split
          · next hfront =>
              subst hfront
              exact rest?_signedNumber_digit (cuts_signedNumber hsome)
          · next hfront => exact foresees_signedNumber.read hsome hfront hquiet ['0']
        rw [items_snd_of_some hprod hread']
        split
        · exact List.suffix_nil.mp (items_isSuffix _ _)
        · exact ih rfl hreach

theorem reach?_numberList (h : Text.skipBlanks text = text) :
    numberList.reach? text = (many signedNumber).reach? text := by
  have hprod := productive_signedNumber
  rw [numberList, reach?_rule, oneOrMore, rest?_map, rest?_seq, reach?_map, reach?_seq]
  cases hread : signedNumber.rest? text with
  | none =>
      obtain ⟨n, hn⟩ := Option.ne_none_iff_exists'.mp (reports_signedNumber hread)
      rw [reach?_many_of_none (by rwa [h]), h, hn]
      rfl
  | some rest =>
      rw [reach?_many_of_some hprod (by rwa [h]), h]
      simp [reach?_many_skipBlanks hprod]

/-- **A zero completes a list of numbers.** -/
theorem rest?_numberList_zero (hskip : Text.skipBlanks (text ++ more) = text ++ more)
    (h : numberList.reach? (text ++ more) = some more.length) :
    numberList.rest? (text ++ ['0']) = some [] := by
  have hprod := productive_signedNumber
  rw [reach?_numberList hskip] at h
  have hitems := items_signedNumber_zero h
  have hskip' : Text.skipBlanks (text ++ ['0']) = text ++ ['0'] := by
    by_cases hnil : text = []
    · rw [hnil]
      rfl
    · exact skipBlanks_append_of_self hnil hskip ['0']
  rw [rest?_numberList]
  cases hread : signedNumber.rest? (text ++ ['0']) with
  | none =>
      rw [items_snd_of_none (by rwa [hskip'])] at hitems
      simp at hitems
  | some rest =>
      rw [items_snd_of_some hprod (by rwa [hskip'])] at hitems
      rw [Option.map_some, items_snd_skipBlanks_of_nil hprod hitems]

/-! ## What numbers are made of -/

theorem exists_number_front (h : number.rest? text = some rest) :
    ∃ front, text = front ++ rest ∧ ∀ c ∈ front, beginsNumber c = true := by
  have hdigit (c : Char) (hc : c.isDigit = true) : beginsNumber c = true := by
    simp [beginsNumber, hc]
  cases numeralSplit text with
  | @whole integral behind hintegral hbehind =>
      rw [(number_whole hintegral hbehind).1] at h
      split at h
      · cases h
      · cases h
        exact ⟨integral, rfl, fun c hc => hdigit c (hintegral c hc)⟩
  | @point integral behind hintegral hbehind =>
      rw [(number_point hintegral hbehind).1] at h
      split at h
      · cases h
      · cases h
        exact ⟨integral, rfl, fun c hc => hdigit c (hintegral c hc)⟩
  | @fraction integral fractional behind hintegral hfractional hbehind =>
      rw [(number_fraction hintegral hfractional hbehind).1] at h
      cases h
      refine ⟨integral ++ '.' :: fractional, by simp, fun c hc => ?_⟩
      rcases List.mem_append.mp hc with hc | hc
      · exact hdigit c (hintegral c hc)
      · rcases List.mem_cons.mp hc with rfl | hc
        · rfl
        · exact hdigit c (hfractional.2 c hc)

theorem exists_signedNumber_front (h : signedNumber.rest? text = some rest) :
    ∃ front, text = front ++ rest ∧ ∀ c ∈ front, beginsNumber c = true := by
  rw [rest?_signedNumber] at h
  cases hsign : sign.rest? text with
  | none =>
      rw [hsign] at h
      exact exists_number_front h
  | some tail =>
      rw [hsign, Option.getD_some] at h
      obtain ⟨front, rfl, hfront⟩ := exists_number_front h
      obtain ⟨value, hread⟩ := exists_read?_of_rest? hsign
      rw [read?_sign] at hread
      have hhead : ∃ c, text = c :: (front ++ rest) ∧ beginsNumber c = true := by
        split at hread
        · next hplus =>
            obtain ⟨behind, rfl⟩ := List.head?_eq_some_iff.mp hplus
            cases hread
            exact ⟨'+', rfl, rfl⟩
        · split at hread
          · next hminus =>
              obtain ⟨behind, rfl⟩ := List.head?_eq_some_iff.mp hminus
              cases hread
              exact ⟨'-', rfl, rfl⟩
          · cases hread
      obtain ⟨c, rfl, hc⟩ := hhead
      exact ⟨c :: front, rfl, by simpa using ⟨hc, hfront⟩⟩

theorem exists_items_signedNumber_front (text : List Char) :
    ∃ front, text = front ++ (items signedNumber text).2 ∧
      ∀ c ∈ front, beginsNumber c = true ∨ Text.isBlank c = true := by
  have hprod := productive_signedNumber
  induction text using hprod.items_induction with
  | stop text hstop =>
      rw [items_of_none hstop]
      exact ⟨[], rfl, by simp⟩
  | step text value rest hread ih =>
      rw [items_of_some hprod hread]
      obtain ⟨number, hnumber, hbegins⟩ := exists_signedNumber_front (rest?_of_read? hread)
      obtain ⟨front, hfront, hmem⟩ := ih
      have hsplit := List.takeWhile_append_dropWhile (p := Text.isBlank) (l := text)
      refine ⟨text.takeWhile Text.isBlank ++ (number ++ front), ?_, fun c hc => ?_⟩
      · rw [List.append_assoc, List.append_assoc, ← hfront, ← hnumber]
        exact hsplit.symm
      · rcases List.mem_append.mp hc with hc | hc
        · exact .inr (List.mem_takeWhile_imp hc)
        · exact (List.mem_append.mp hc).elim (fun hc => .inl (hbegins c hc)) (hmem c)

theorem mem_of_rest?_numberList (h : numberList.rest? text = some []) :
    ∀ c ∈ text, beginsNumber c = true ∨ Text.isBlank c = true := by
  rw [rest?_numberList] at h
  obtain ⟨rest, hrest, hnil⟩ := Option.map_eq_some_iff.mp h
  obtain ⟨number, rfl, hnumber⟩ := exists_signedNumber_front hrest
  obtain ⟨front, hfront, hmem⟩ := exists_items_signedNumber_front (Text.skipBlanks rest)
  have hsplit := List.takeWhile_append_dropWhile (p := Text.isBlank) (l := rest)
  rw [hnil, List.append_nil] at hfront
  intro c hc
  rcases List.mem_append.mp hc with hc | hc
  · exact .inl (hnumber c hc)
  · rw [← hsplit] at hc
    rcases List.mem_append.mp hc with hc | hc
    · exact .inr (List.mem_takeWhile_imp hc)
    · exact hmem c (hfront ▸ hc)

end ObjectActions.Script
