import ObjectActions.Proofs.Script.ValueReach

/-!
# Arguments that are cut off

The arguments of a verb are tried one after the other.  Neither the end of a text nor what follows
it lets an earlier argument in (`Form.Before.cut`, `Form.Before.extend`), as long as nothing has
been tried at the end.

An argument that fails behind its first character is a parameter with its equals sign, or a
list of numbers.  Either can be completed (`Form.exists_completion`), and up to where it
fails nothing but addresses, blanks and the like have been seen.
-/

namespace ObjectActions.Script

open Grammar

variable {text more rest : List Char} {p : Parameter}

/-! ## Arguments -/

/-- Whether the characters of a form are of the sorts that the grammar has: values that
belong to their keys, words of letters, and rows of what can stand in an address. -/
def Form.Regular : Form → Prop
  | .parameter p value => value = p.form
  | .word words => ∀ word ∈ words, IsRow Char.isAlpha word.toList
  | .row member =>
      (∀ c, c.isAlpha = true → member c = true) ∧ ∀ c, member c = true → Text.isAddressChar c = true
  | _ => True

/-- Whether an argument can be tried before another one. -/
def Form.Before : Form → Form → Prop
  | .parameter p _, .parameter q _ => p ≠ q
  | .parameter p _, .word words => ∀ word ∈ words, Text.lower word.toList ≠ p.key.toList
  | .parameter _ value, .row _ => value.Steady
  | .parameter _ _, _ => True
  | .word _, .parameter _ _ => False
  | .word _, _ => True
  | _, _ => False

theorem exists_keyFront_of_rest?
    (h : (parameter p p.form.grammar).rest? (text ++ more) = some (rest ++ more)) :
    ∃ front value, text = front ++ value ∧ KeyFront p front ∧
      Text.skipBlanks (value ++ more) = value ++ more ∧ value ≠ [] ∧
      p.form.grammar.rest? (value ++ more) = some (rest ++ more) := by
  rw [rest?_parameter] at h
  obtain ⟨last, hkey, hrest⟩ := Option.bind_eq_some_iff.mp h
  obtain ⟨front, hfront, hsplit, hskip⟩ := exists_keyFront hkey
  have hlt := (productive_value p).length_lt hrest
  rw [List.length_append] at hlt
  have hsuffix : last <:+ text ++ more := ⟨front, hsplit.symm⟩
  obtain ⟨value, rfl, -⟩ := exists_append_of_isSuffix hsuffix (by omega)
  rw [← List.append_assoc] at hsplit
  refine ⟨front, value, List.append_cancel_right hsplit, hfront, hskip, ?_, hrest⟩
  rintro rfl
  rw [List.nil_append] at hlt
  omega

theorem Form.cuts {form : Form} (h : form.Regular) : form.grammar.Cuts := by
  intro text more rest hrest
  cases form with
  | parameter p value =>
      obtain rfl : value = p.form := h
      obtain ⟨front, value, rfl, hfront, hskip, hne, hvalue⟩ := exists_keyFront_of_rest? hrest
      have hself := skipBlanks_append_of_self hne hskip []
      rw [List.append_nil] at hself
      rw [grammar, rest?_parameter, hfront.afterKey?, hself, Option.bind_some]
      exact p.form.cuts hvalue
  | word words => exact cuts_run _ _ _ hrest
  | row member => exact ((cuts_run _ _ _).map _) hrest
  | numbers => exact (cuts_numberList.map _) hrest
  | quotation => exact (cuts_quotedText.map _) hrest

/-- An argument that ends before the end of the text, and where nothing else is tried there,
ends there whatever follows. -/
theorem Form.rest?_append {form : Form} (h : form.Regular)
    (hrest : form.grammar.rest? (text ++ more) = some (rest ++ more)) (hne : rest ≠ [])
    (hquiet : form.grammar.Quiet more (text ++ more)) (other : List Char) :
    form.grammar.rest? (text ++ other) = some (rest ++ other) := by
  cases form with
  | parameter p value =>
      obtain rfl : value = p.form := h
      obtain ⟨front, value, rfl, hfront, hskip, hvalueNe, hvalue⟩ :=
        exists_keyFront_of_rest? hrest
      have hquiet' : p.form.grammar.Quiet more (value ++ more) := by
        unfold Quiet at hquiet ⊢
        rw [grammar, reach?_parameter, List.append_assoc, hfront.afterKey?, hskip,
          Option.bind_some, hvalue, Option.bind_some] at hquiet
        exact hquiet
      rw [grammar, rest?_parameter, List.append_assoc, hfront.afterKey?,
        skipBlanks_append_of_self hvalueNe hskip, Option.bind_some]
      exact p.form.rest?_append hvalue hne hquiet' other
  | word words => exact rest?_run_append _ _ _ hrest hne other
  | row member => exact ((foresees_row _ _).map _).read hrest hne hquiet other
  | numbers => exact (foresees_numberList.map _).read hrest hne hquiet other
  | quotation =>
      rw [grammar, rest?_map] at hrest ⊢
      exact rest?_quotedText_append (cuts_quotedText hrest) other

/-- Whether an argument of this form never begins with a letter. -/
def Form.Late : Form → Prop
  | .numbers | .quotation => True
  | _ => False

theorem Form.Late.not_isAlpha {form : Form} (h : form.Late)
    (hrest : form.grammar.rest? text = some rest) : ∃ c ∈ text.head?, c.isAlpha = false := by
  cases form with
  | numbers =>
      rw [grammar, rest?_map, rest?_numberList] at hrest
      obtain ⟨last, hlast, -⟩ := Option.map_eq_some_iff.mp hrest
      by_contra hall
      have hnone : signedNumber.rest? text = none := by
        refine rest?_eq_none_iff.mpr (read?_signedNumber_of_head fun c hc => ?_)
        cases hbegins : beginsNumber c with
        | false => rfl
        | true => exact absurd ⟨c, hc, not_isAlpha_of_beginsNumber hbegins⟩ hall
      rw [hnone] at hlast
      cases hlast
  | quotation =>
      rw [grammar, rest?_map] at hrest
      obtain ⟨body, rfl⟩ := exists_cons_of_rest?_quotedText hrest
      exact ⟨'"', rfl, by decide⟩
  | parameter | word | row => exact h.elim

theorem rest?_words (words : List String) (text : List Char) :
    (Form.word words).grammar.rest? text =
      if String.ofList (text.takeWhile Text.isNameChar) ∈ words then
        some (text.dropWhile Text.isNameChar)
      else none := by
  rw [Form.grammar, rest?_word]
  by_cases h : String.ofList (text.takeWhile Text.isNameChar) ∈ words <;> simp [h]

/-- Parameters and words begin with a letter. -/
theorem Form.rest?_of_not_isAlpha {form other : Form} (h : form.Regular)
    (hbefore : form.Before other) (hhead : ∀ c ∈ text.head?, c.isAlpha = false) :
    form.grammar.rest? text = none := by
  cases form with
  | parameter p value =>
      rw [grammar, rest?_parameter]
      cases hkey : afterKey? p.key text with
      | none => rfl
      | some last =>
          obtain ⟨front, hfront, rfl, -⟩ := exists_keyFront hkey
          obtain ⟨c, hc, halpha⟩ := hfront.head
          obtain ⟨behind, rfl⟩ := List.head?_eq_some_iff.mp hc
          exact absurd halpha (by simp [hhead c rfl])
  | word words =>
      rw [rest?_words]
      exact if_neg (refuses_word_of_head h hhead)
  | row | numbers | quotation => cases other <;> exact hbefore.elim

theorem exists_word_of_rest? {words : List String}
    (h : (Form.word words).grammar.rest? text = some rest) :
    ∃ word ∈ words, text = word.toList ++ rest ∧ ∀ c ∈ rest.head?, Text.isNameChar c = false := by
  rw [rest?_words] at h
  have hsplit := List.takeWhile_append_dropWhile (p := Text.isNameChar) (l := text)
  split at h
  · next hmem =>
      cases h
      refine ⟨_, hmem, ?_, head?_dropWhile text⟩
      rw [String.toList_ofList, hsplit]
  · cases h

theorem dropWhile_of_rest?_row {member : Char → Bool}
    (h : (Form.row member).grammar.rest? text = some rest) : text.dropWhile member = rest := by
  rw [Form.grammar, rest?_map, rest?_row] at h
  split at h
  · cases h
  · exact Option.some.inj h

/-- A text that begins with a word that is no key is not a parameter of that key. -/
theorem rest?_parameter_of_word {word : List Char} {value : ValueForm}
    (hletters : ∀ c ∈ word, c.isAlpha = true) (hstop : ∀ c ∈ rest.head?, Text.isNameChar c = false)
    (hne : Text.lower word ≠ p.key.toList) :
    (Form.parameter p value).grammar.rest? (word ++ rest) = none := by
  rw [Form.grammar, rest?_parameter]
  cases hkey : afterKey? p.key (word ++ rest) with
  | none => rfl
  | some last =>
      have hstop' : ∀ c ∈ rest.head?, c.isAlpha = false := fun c hc =>
        not_isAlpha_of_not_isNameChar (hstop c hc)
      have hkey' := (takeWhile_isAlpha_of_afterKey? hkey).1
      rw [Text.takeWhile_append_of_stop hletters hstop'] at hkey'
      exact absurd hkey' hne

/-- A parameter whose value is no word stays one with more text behind it. -/
theorem grows_parameter (hsteady : p.form.Steady) : (Form.parameter p p.form).grammar.Grows := by
  intro text rest h more
  rw [Form.grammar] at h ⊢
  obtain ⟨front, value, rfl, hfront, hskip, hne, hvalue⟩ :=
    @exists_keyFront_of_rest? text [] rest p (by simpa using h)
  rw [rest?_parameter, List.append_assoc, hfront.afterKey?, skipBlanks_append_of_self hne hskip,
    Option.bind_some]
  rw [List.append_nil, List.append_nil] at hvalue
  exact ValueForm.grows hsteady hvalue more

/-- A word at the end of a text is made of letters. -/
theorem exists_letter_of_rest?_oneOfWords {rule : Rule} {words : List String}
    (hwords : ∀ word ∈ words, IsRow Char.isAlpha word.toList)
    (h : (oneOfWords rule words).rest? text = some []) :
    ∃ c ∈ text.getLast?, c.isAlpha = true := by
  rw [oneOfWords, rest?_word] at h
  by_cases hany : words.any (Text.alike (String.ofList (text.takeWhile Text.isNameChar))) = true
  · rw [if_pos hany, Option.isSome_some, if_pos rfl, Option.some.injEq,
      List.dropWhile_eq_nil_iff] at h
    rw [List.takeWhile_eq_self_iff.mpr h] at hany
    obtain ⟨word, hmem, halike⟩ := List.any_eq_true.mp hany
    rw [Text.alike, beq_iff_eq, String.toList_ofList] at halike
    have hletters : ∀ c ∈ Text.lower word.toList, c.isAlpha = true := by
      intro c hc
      obtain ⟨d, hd, rfl⟩ := List.mem_map.mp hc
      rw [Text.isAlpha_toLower]
      exact (hwords word hmem).2 d hd
    have hne : text ≠ [] := by
      rintro rfl
      exact (hwords word hmem).1 (List.map_eq_nil_iff.mp halike.symm)
    exact ⟨text.getLast hne, List.getLast?_eq_some_getLast hne,
      isAlpha_of_lower_eq halike hletters _ (List.getLast_mem hne)⟩
  · rw [if_neg hany] at h
    cases h

theorem isRow_of_form {words : List String} (h : p.form = .word words) :
    ∀ word ∈ words, IsRow Char.isAlpha word.toList := by
  cases p <;> simp only [Parameter.form, reduceCtorEq, ValueForm.word.injEq] at h <;>
    subst h <;> decide

/-- A value that does not end with a letter stays a value with more text behind it. -/
theorem rest?_value_ne_none (hlast : ∀ c ∈ text.getLast?, c.isAlpha = false)
    (h : p.form.grammar.rest? text = some rest) (more : List Char) :
    p.form.grammar.rest? (text ++ more) ≠ none := by
  by_cases hsteady : p.form.Steady
  · exact ValueForm.grows hsteady h more
  · cases hform : p.form with
    | word words =>
        rw [hform, ValueForm.grammar, rest?_map] at h
        rw [ValueForm.grammar, rest?_map]
        have hne : rest ≠ [] := by
          rintro rfl
          obtain ⟨c, hc, halpha⟩ := exists_letter_of_rest?_oneOfWords (isRow_of_form hform) h
          exact absurd halpha (by simp [hlast c hc])
        have h' : (oneOfWords .lightType words).rest? (text ++ []) = some (rest ++ []) := by
          simpa using h
        rw [oneOfWords] at h' ⊢
        rw [word, rest?_run_append _ _ _ h' hne more]
        simp
    | row | number | signedNumber => exact absurd (hform ▸ trivial) hsteady

/-- An argument that does not end with a letter stays one with more text behind it. -/
theorem Form.rest?_ne_none {form : Form} (h : form.Regular)
    (hlast : ∀ c ∈ text.getLast?, c.isAlpha = false)
    (hrest : form.grammar.rest? text = some rest) (more : List Char) :
    form.grammar.rest? (text ++ more) ≠ none := by
  have hnil : form.grammar.rest? (text ++ []) = some (rest ++ []) := by simpa using hrest
  cases form with
  | parameter p value =>
      obtain rfl : value = p.form := h
      obtain ⟨front, value, rfl, hfront, hskip, hne, hvalue⟩ := exists_keyFront_of_rest? hnil
      rw [List.append_nil, List.append_nil] at hvalue
      rw [grammar, rest?_parameter, List.append_assoc, hfront.afterKey?,
        skipBlanks_append_of_self hne hskip, Option.bind_some]
      refine rest?_value_ne_none (fun c hc => hlast c ?_) hvalue more
      rw [List.getLast?_append, hc]
      rfl
  | word words =>
      obtain ⟨w, hmem, rfl, -⟩ := exists_word_of_rest? hrest
      have hne : rest ≠ [] := by
        rintro rfl
        obtain ⟨hwordNe, hletters⟩ := h w hmem
        have hlast' := hlast (w.toList.getLast hwordNe)
          (by rw [List.append_nil]; exact List.getLast?_eq_some_getLast hwordNe)
        exact absurd (hletters _ (List.getLast_mem hwordNe)) (by simp [hlast'])
      rw [grammar, Script.word, rest?_run_append _ _ _ hnil hne more]
      simp
  | row member =>
      rw [grammar, rest?_map] at hrest ⊢
      exact grows_row _ _ hrest more
  | numbers =>
      rw [grammar, rest?_map] at hrest ⊢
      exact grows_numberList hrest more
  | quotation =>
      rw [grammar, rest?_map] at hrest ⊢
      rw [rest?_quotedText_append hrest more]
      simp

/-! ## One argument before another -/

/-- Cutting off the end of a text does not let an earlier argument in. -/
theorem Form.Before.cut {form other : Form} (hbefore : form.Before other) (hform : form.Regular)
    (hother : other.Regular) (hnone : form.grammar.rest? (text ++ more) = none)
    (hrest : other.grammar.rest? (text ++ more) = some (rest ++ more)) :
    form.grammar.rest? text = none ∨ form.grammar.rest? text = some rest := by
  have hcut := other.cuts hother hrest
  -- what begins with no letter is neither a key nor a word
  by_cases hlate : other.Late
  · obtain ⟨c, hc, halpha⟩ := hlate.not_isAlpha hcut
    obtain ⟨behind, rfl⟩ := List.head?_eq_some_iff.mp hc
    exact .inl (Form.rest?_of_not_isAlpha hform hbefore (by simpa using halpha))
  cases form with
  | parameter p value =>
      obtain rfl : value = p.form := hform
      cases other with
      | parameter q value =>
          obtain rfl : value = q.form := hother
          obtain ⟨front, value, rfl, hfront, -⟩ := exists_keyFront_of_rest? hrest
          rw [grammar, rest?_parameter, hfront.afterKey?_of_ne (Ne.symm hbefore)]
          exact .inl rfl
      | word words =>
          obtain ⟨word, hmem, rfl, hstop⟩ := exists_word_of_rest? hcut
          exact .inl (rest?_parameter_of_word (hother word hmem).2 hstop (hbefore word hmem))
      | row member =>
          cases hread : (Form.parameter p p.form).grammar.rest? text with
          | none => exact .inl rfl
          | some last => exact absurd hnone (grows_parameter hbefore hread more)
      | numbers | quotation => exact absurd trivial hlate
  | word words =>
      cases other with
      | parameter => exact hbefore.elim
      | word words' =>
          rw [rest?_words] at hnone hrest
          split at hrest
          · rw [Option.some.injEq] at hrest
            rw [rest?_words, takeWhile_of_dropWhile_append hrest]
            split at hnone
            · cases hnone
            · next hrefused => exact .inl (if_neg hrefused)
          · cases hrest
      | row member =>
          cases hread : (Form.word words).grammar.rest? text with
          | none => exact .inl rfl
          | some last =>
              obtain ⟨word, hmem, rfl, hstop⟩ := exists_word_of_rest? hread
              have hletters := (hform word hmem).2
              by_cases hlast : last = []
              · -- the row takes up the whole word as well
                subst hlast
                have hdrop := dropWhile_of_rest?_row hcut
                rw [List.append_nil, List.dropWhile_eq_nil_iff.mpr
                  fun c hc => hother.1 c (hletters c hc)] at hdrop
                exact .inr (congrArg some hdrop)
              · have hread' : (Form.word words).grammar.rest? (word.toList ++ last ++ []) =
                    some (last ++ []) := by simpa using hread
                have hsome : (Form.word words).grammar.rest? (word.toList ++ last ++ more) =
                    some (last ++ more) := rest?_run_append _ _ _ hread' hlast more
                rw [hsome] at hnone
                cases hnone
      | numbers | quotation => exact absurd trivial hlate
  | row | numbers | quotation => cases other <;> exact hbefore.elim

theorem afterKey?_of_skipBlanks {key tail : List Char} (hkey : Text.lower key = p.key.toList)
    (h : Text.skipBlanks rest = '=' :: tail) (further : List Char) :
    afterKey? p.key (key ++ rest ++ further) = some (Text.skipBlanks (tail ++ further)) := by
  have hne : Text.skipBlanks rest ≠ [] := by simp [h]
  rw [List.append_assoc, afterKey?, after?_of_lower_eq (hkey.trans (lower_key p).symm),
    Option.bind_some, Text.skipBlanks_append_of_ne_nil hne, h, List.cons_append, List.head?_cons,
    if_pos rfl, List.tail_cons]

/-- A row of characters of names ends before blanks and the equals sign behind them. -/
theorem not_member_of_blanks_equals {member : Char → Bool} {blanks : List Char}
    (hnarrow : ∀ c, member c = true → Text.isNameChar c = true)
    (hblanks : blanks.all Text.isBlank = true) (rest : List Char) :
    ∀ c ∈ (blanks ++ '=' :: rest).head?, member c = false := by
  cases blanks with
  | nil =>
      intro c hc
      obtain rfl : '=' = c := by simpa using hc
      cases hmember : member '=' with
      | false => rfl
      | true => exact absurd (hnarrow _ hmember) (by decide)
  | cons d blanks =>
      simp only [List.all_cons, Bool.and_eq_true] at hblanks
      have hstops : Stops (d :: blanks ++ '=' :: rest) := by
        intro c hc
        obtain rfl : d = c := by simpa using hc
        exact hblanks.1
      exact hstops.not_member fun c hc => isAddressChar_of_isNameChar (hnarrow c hc)

/-- A parameter is looked for behind a row that ends where its equals sign would stand. -/
theorem exists_tail_of_row {member : Char → Bool} {last further : List Char}
    (hletters : ∀ c, c.isAlpha = true → member c = true)
    (hnarrow : ∀ c, member c = true → Text.isNameChar c = true)
    (hdrop : text.dropWhile member = rest) (hne : Text.skipBlanks rest ≠ [])
    (hkey : afterKey? p.key (text ++ further) = some last) :
    ∃ key tail, text = key ++ rest ∧ Text.lower key = p.key.toList ∧
      Text.skipBlanks rest = '=' :: tail := by
  obtain ⟨front, hfront, hsplit, -⟩ := exists_keyFront hkey
  have hrest : rest ≠ [] := by
    rintro rfl
    exact hne rfl
  cases hfront with
  | @intro key before after hlower hbefore hafter =>
      have hkeyMember : ∀ c ∈ key, member c = true :=
        fun c hc => hletters c (isAlpha_of_lower_eq hlower (isAlpha_of_mem_key p) c hc)
      have hstop := not_member_of_blanks_equals hnarrow hbefore (after ++ last)
      -- the row ends behind the key, so its rest and what follows begin with the blanks
      have hsplit' : text ++ further = key ++ (before ++ '=' :: (after ++ last)) := by
        simpa using hsplit
      have hdrop' : rest ++ further = before ++ '=' :: (after ++ last) := by
        rw [← hdrop, ← Text.dropWhile_append_of_ne_nil (hdrop ▸ hrest), hsplit',
          Text.dropWhile_append_of_stop hkeyMember hstop]
      have hskip : Text.skipBlanks rest ++ further = '=' :: (after ++ last) := by
        rw [← Text.skipBlanks_append_of_ne_nil hne, hdrop',
          Text.skipBlanks_append_of_eq_nil (Text.skipBlanks_eq_nil_iff.mpr hbefore)]
        exact Text.skipBlanks_cons_of_not (by decide) _
      obtain ⟨c, tail, htail⟩ := List.exists_cons_of_ne_nil hne
      rw [htail, List.cons_append, List.cons.injEq] at hskip
      refine ⟨key, tail, ?_, hlower, by rw [htail, hskip.1]⟩
      rw [← hdrop', ← List.append_assoc] at hsplit'
      exact List.append_cancel_right hsplit'

/-- A row stays no parameter, as long as no value has been tried at the end of the text. -/
theorem rest?_parameter_of_row {member : Char → Bool} (hsteady : p.form.Steady)
    (hletters : ∀ c, c.isAlpha = true → member c = true)
    (hnarrow : ∀ c, member c = true → Text.isNameChar c = true)
    (hnone : (Form.parameter p p.form).grammar.rest? (text ++ more) = none)
    (hquiet : (Form.parameter p p.form).grammar.Quiet more (text ++ more))
    (hrow : (Form.row member).grammar.rest? text = some rest) (hne : Text.skipBlanks rest ≠ [])
    (further : List Char) :
    (Form.parameter p p.form).grammar.rest? (text ++ further) = none := by
  have hdrop := dropWhile_of_rest?_row hrow
  unfold Quiet at hquiet
  rw [Form.grammar, rest?_parameter] at hnone ⊢
  rw [Form.grammar, reach?_parameter] at hquiet
  cases hkey : afterKey? p.key (text ++ further) with
  | none => rfl
  | some last =>
      -- the row is the key, and what follows it was tried as a value and refused
      obtain ⟨key, tail, rfl, hlower, htail⟩ := exists_tail_of_row hletters hnarrow hdrop hne hkey
      have hafter := afterKey?_of_skipBlanks hlower htail
      rw [hafter, Option.bind_some] at hnone
      rw [hafter, Option.bind_some, hnone] at hquiet
      rw [hafter] at hkey
      have hquiet' : p.form.grammar.Quiet more (Text.skipBlanks (tail ++ more)) := by
        intro n hn
        refine hquiet n ?_
        rw [Option.bind_some, Option.mem_def.mp hn]
        rfl
      have hlt := p.form.reports.lt_length hnone hquiet'
      have htailNe : Text.skipBlanks tail ≠ [] := skipBlanks_ne_nil_of_length_lt more hlt
      rw [Text.skipBlanks_append_of_ne_nil htailNe] at hnone hquiet' hkey
      cases hkey
      exact (ValueForm.foresees hsteady).refuse hnone hquiet' further

/-- A word that ends before the end of the text stays no other word. -/
theorem rest?_words_of_words {words other : List String}
    (hnone : (Form.word words).grammar.rest? (text ++ more) = none)
    (hword : (Form.word other).grammar.rest? text = some rest) (hne : rest ≠ [])
    (further : List Char) : (Form.word words).grammar.rest? (text ++ further) = none := by
  rw [rest?_words] at hword hnone ⊢
  split at hword
  · rw [Option.some.injEq] at hword
    have hdrop : text.dropWhile Text.isNameChar ≠ [] := hword ▸ hne
    rw [Text.takeWhile_append_of_dropWhile_ne_nil hdrop] at hnone ⊢
    split at hnone
    · cases hnone
    · next hrefused => exact if_neg hrefused
  · cases hword

/-- A row that ends before the end of the text stays no word, or is a word as a whole. -/
theorem rest?_words_of_row {words : List String} {member : Char → Bool}
    (hwords : (Form.word words).Regular) (hletters : ∀ c, c.isAlpha = true → member c = true)
    (hnarrow : ∀ c, member c = true → Text.isNameChar c = true)
    (hrow : (Form.row member).grammar.rest? text = some rest) (hne : rest ≠ [])
    (further : List Char) :
    (Form.word words).grammar.rest? (text ++ further) = none ∨
      (Form.word words).grammar.rest? (text ++ further) = some (rest ++ further) := by
  have hdrop := dropWhile_of_rest?_row hrow
  obtain ⟨c, tail, rfl⟩ := List.exists_cons_of_ne_nil hne
  have hmember : member c = false := @head?_dropWhile member text c (by rw [hdrop]; rfl)
  have hname : ∀ d ∈ text.takeWhile member, Text.isNameChar d = true :=
    fun d hd => hnarrow d (List.mem_takeWhile_imp hd)
  have hsplit := List.takeWhile_append_dropWhile (p := member) (l := text)
  rw [hdrop] at hsplit
  rw [rest?_words, ← hsplit, List.append_assoc, List.takeWhile_append_of_pos hname,
    List.dropWhile_append_of_pos hname]
  split
  · next hmem =>
      -- the word has no character that the row has not
      have hstop : Text.isNameChar c = false := by
        by_contra hc
        have halpha := (hwords _ hmem).2 c (by simp [hc])
        rw [hletters c halpha] at hmember
        cases hmember
      rw [List.cons_append, List.dropWhile_cons_of_neg (by simp [hstop])]
      exact .inr rfl
  · exact .inl rfl

/-- What follows an argument does not let an earlier one in, as long as nothing has been tried
at the end of the text. -/
theorem Form.Before.extend {form other : Form} (hbefore : form.Before other)
    (hform : form.Regular) (hother : other.Regular)
    (hnarrow : ∀ member, other = .row member → ∀ c, member c = true → Text.isNameChar c = true)
    (hnone : form.grammar.rest? (text ++ more) = none)
    (hquiet : form.grammar.Quiet more (text ++ more))
    (hrest : other.grammar.rest? (text ++ more) = some (rest ++ more))
    (hne : Text.skipBlanks rest ≠ []) (further : List Char) :
    form.grammar.rest? (text ++ further) = none ∨
      form.grammar.rest? (text ++ further) = some (rest ++ further) := by
  have hcut := other.cuts hother hrest
  have hrestNe : rest ≠ [] := by
    rintro rfl
    exact hne rfl
  by_cases hlate : other.Late
  · obtain ⟨c, hc, halpha⟩ := hlate.not_isAlpha hcut
    obtain ⟨behind, rfl⟩ := List.head?_eq_some_iff.mp hc
    exact .inl (Form.rest?_of_not_isAlpha hform hbefore (by simpa using halpha))
  cases form with
  | parameter p value =>
      obtain rfl : value = p.form := hform
      cases other with
      | parameter q value =>
          obtain rfl : value = q.form := hother
          obtain ⟨front, value, rfl, hfront, -⟩ := exists_keyFront_of_rest? hrest
          rw [grammar, rest?_parameter, List.append_assoc,
            hfront.afterKey?_of_ne (Ne.symm hbefore)]
          exact .inl rfl
      | word words =>
          obtain ⟨word, hmem, rfl, hstop⟩ := exists_word_of_rest? hcut
          obtain ⟨c, rest, rfl⟩ := List.exists_cons_of_ne_nil hrestNe
          rw [List.append_assoc]
          exact .inl (rest?_parameter_of_word (hother word hmem).2 hstop (hbefore word hmem))
      | row member =>
          exact .inl (rest?_parameter_of_row hbefore hother.1 (hnarrow member rfl) hnone hquiet
            hcut hne further)
      | numbers | quotation => exact absurd trivial hlate
  | word words =>
      cases other with
      | parameter => exact hbefore.elim
      | word words' =>
          exact .inl (rest?_words_of_words hnone hcut hrestNe further)
      | row member =>
          exact rest?_words_of_row hform hother.1 (hnarrow member rfl) hcut hrestNe further
      | numbers | quotation => exact absurd trivial hlate
  | row | numbers | quotation => cases other <;> exact hbefore.elim

/-! ## Arguments that are completed -/

theorem exists_value_of_reach?
    (h : (Form.parameter p p.form).grammar.reach? (text ++ more) = some more.length)
    (hne : text ≠ []) :
    ∃ front value, text = front ++ value ∧ KeyFront p front ∧
      p.form.grammar.reach? (value ++ more) = some more.length := by
  have hpos := List.length_pos_iff.mpr hne
  rw [Form.grammar, reach?_parameter] at h
  cases hkey : afterKey? p.key (text ++ more) with
  | none =>
      rw [hkey] at h
      simp only [Option.bind_none, Option.isSome_none, Bool.false_eq_true, if_false,
        Option.getD_none, Option.some.injEq, List.length_append] at h
      omega
  | some last =>
      rw [hkey, Option.bind_some, Option.bind_some] at h
      have hreach : p.form.grammar.reach? last = some more.length := by
        split at h
        · exact h
        · next hnone =>
            obtain ⟨n, hn⟩ := Option.ne_none_iff_exists'.mp (p.form.reports (by simpa using hnone))
            rw [hn, Option.getD_some] at h
            rw [hn, h]
      obtain ⟨front, hfront, hsplit, -⟩ := exists_keyFront hkey
      have hle := p.form.grammar.reach?_le_length hreach
      have hsuffix : last <:+ text ++ more := ⟨front, hsplit.symm⟩
      obtain ⟨value, rfl, -⟩ := exists_append_of_isSuffix hsuffix hle
      rw [← List.append_assoc] at hsplit
      exact ⟨front, value, List.append_cancel_right hsplit, hfront, hreach⟩

/-- A parameter that fails behind its first character has a value that fails behind its first
character, so the value can be completed. -/
theorem exists_parameter_completion (hne : text ≠ [])
    (hreach : (Form.parameter p p.form).grammar.reach? (text ++ more) = some more.length) :
    (∀ c ∈ text, Text.isAddressChar c = true ∨ Text.isBlank c = true) ∧
      (∀ c ∈ text.getLast?, c.isAlpha = false) ∧
      ∃ further, IsSolid further ∧
        (Form.parameter p p.form).grammar.rest? (text ++ further) = some [] ∧
        ∀ earlier : Form, earlier.Regular → earlier.Before (.parameter p p.form) →
          earlier.grammar.rest? (text ++ further) = none := by
  obtain ⟨front, value, rfl, hfront, hvalue⟩ := exists_value_of_reach? hreach hne
  obtain ⟨hnumeric, further, hsolid, hrest⟩ := exists_value_completion p hvalue
  have hsolid' : IsSolid (value ++ further) := by
    refine ⟨by simp [hsolid.1], fun c hc => ?_⟩
    rcases List.mem_append.mp hc with hc | hc
    · exact isAddressChar_of_beginsNumber (hnumeric c hc)
    · exact hsolid.2 c hc
  refine ⟨fun c hc => ?_, fun c hc => ?_, further, hsolid, ?_, ?_⟩
  · rcases List.mem_append.mp hc with hc | hc
    · exact hfront.mem c hc
    · exact .inl (isAddressChar_of_beginsNumber (hnumeric c hc))
  · rw [List.getLast?_append] at hc
    cases hlast : value.getLast? with
    | none =>
        rw [hlast, Option.none_or] at hc
        exact hfront.getLast c hc
    | some d =>
        rw [hlast, Option.some_or, Option.mem_some] at hc
        subst hc
        exact not_isAlpha_of_beginsNumber (hnumeric d (List.mem_of_getLast? hlast))
  · have hself := hsolid'.skipBlanks_append []
    rw [List.append_nil] at hself
    rw [Form.grammar, rest?_parameter, List.append_assoc, hfront.afterKey?, hself,
      Option.bind_some, hrest]
  · intro earlier hearlier hbefore
    cases earlier with
    | parameter q value =>
        rw [Form.grammar, rest?_parameter, List.append_assoc,
          hfront.afterKey?_of_ne (Ne.symm hbefore)]
        rfl
    | word | row | numbers | quotation => exact hbefore.elim

/-- **Arguments.**  An argument that fails behind its first character can be completed so that
no earlier argument is read instead.  It has read nothing but characters of addresses and
blanks, and does not stop behind a letter. -/
theorem Form.exists_completion {form : Form} (h : form.Regular)
    (hskip : Text.skipBlanks (text ++ more) = text ++ more) (hne : text ≠ [])
    (hreach : form.grammar.reach? (text ++ more) = some more.length) :
    (∀ c ∈ text, Text.isAddressChar c = true ∨ Text.isBlank c = true) ∧
      (∀ c ∈ text.getLast?, c.isAlpha = false) ∧
      ∃ further, IsSolid further ∧ form.grammar.rest? (text ++ further) = some [] ∧
        ∀ earlier : Form, earlier.Regular → earlier.Before form →
          earlier.grammar.rest? (text ++ further) = none := by
  cases form with
  | parameter p value =>
      obtain rfl : value = p.form := h
      exact exists_parameter_completion hne hreach
  | word words => exact absurd (eq_nil_of_reach?_token hreach) hne
  | row member => exact absurd (eq_nil_of_reach?_token hreach) hne
  | numbers =>
      have hrest := rest?_numberList_zero hskip hreach
      have hmem := mem_of_rest?_numberList hrest
      have hmem' : ∀ c ∈ text, beginsNumber c = true ∨ Text.isBlank c = true :=
        fun c hc => hmem c (List.mem_append_left _ hc)
      have halpha : ∀ c ∈ text, c.isAlpha = false := by
        intro c hc
        exact (hmem' c hc).elim not_isAlpha_of_beginsNumber not_isAlpha_of_isBlank
      refine ⟨fun c hc => (hmem' c hc).imp_left isAddressChar_of_beginsNumber,
        fun c hc => halpha c (List.mem_of_getLast? hc), ['0'], by decide, ?_, ?_⟩
      · rw [grammar, rest?_map, hrest]
      · intro earlier hearlier hbefore
        refine Form.rest?_of_not_isAlpha hearlier hbefore fun c hc => ?_
        obtain ⟨d, text, rfl⟩ := List.exists_cons_of_ne_nil hne
        rw [List.cons_append, List.head?_cons, Option.mem_some] at hc
        subst hc
        exact halpha d List.mem_cons_self
  | quotation =>
      have hreach' : quotedText.reach? (text ++ more) = some more.length := hreach
      unfold reach? at hreach'
      rw [failures_quotedText] at hreach'
      split at hreach'
      · cases hreach'
      · simp only [Option.map_some, Option.some.injEq, List.length_append] at hreach'
        have hpos := List.length_pos_iff.mpr hne
        omega

end ObjectActions.Script
