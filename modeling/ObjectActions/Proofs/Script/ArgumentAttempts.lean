import ObjectActions.Proofs.Script.ArgumentReach
import ObjectActions.Proofs.Script.NumeralAttempts

/-!
# Arguments that lack a number

Only a parameter with a number for its value and a list of numbers report that a number is missing
(`Form.Lacks`).  Behind the arguments that have been read, blanks aside, stands what is left of the
text, and it decides which name is reported:

* if a parameter lacks its value, then what is left begins with the key of this parameter, so it is
  the only parameter that is reported, and its value has one form;
* if a list of numbers lacks one behind a sign, then what is left begins with the sign, so a number
  without a sign is reported behind the place where the arguments end;
* if a list of numbers lacks one without a sign, then a number that may have one is reported
  where the arguments end, or before.

So the two names for a number are never reported together (`not_listsAt_both_numbers`), unless the
arguments have both lists of numbers and parameters with signed values, or rows of characters in
which a key could be hidden.
-/

namespace ObjectActions.Script

open Grammar

variable {α : Type} {argument : Grammar Rule α} {forms : List Form} {name : Rule} {n : Nat}
  {text rest tail : List Char} {p q : Parameter}

/-! ## Which arguments lack a number -/

/-- Whether a value of a form reports that a number is missing. -/
def ValueForm.Lacks (name : Rule) (n : Nat) (text : List Char) : ValueForm → Prop
  | .number => ListsAt name n (Script.number.failures text)
  | .signedNumber => ListsAt name n (Script.signedNumber.failures text)
  | _ => False

/-- Whether an argument of a form reports that a number is missing. -/
def Form.Lacks (name : Rule) (n : Nat) (text : List Char) : Form → Prop
  | .parameter p value => ∃ rest, afterKey? p.key text = some rest ∧ value.Lacks name n rest
  | .numbers => ListsAt name n (numberList.failures text)
  | _ => False

theorem HasValueForm.lacks {value : Grammar Rule α} {form : ValueForm} (h : HasValueForm value form)
    (htokens : name ∉ value.tokens) (hlists : ListsAt name n (value.failures text)) :
    form.Lacks name n text := by
  induction h with
  | row rule member => exact absurd (listsAt_token hlists).1 (by simpa [tokens] using htokens)
  | word rule words =>
      refine absurd (listsAt_token hlists).1 ?_
      simpa [oneOfWords, Script.word, tokens] using htokens
  | number | signedNumber => exact hlists
  | map f h ih => exact ih htokens hlists

/-- What a parameter reports is reported by its value. -/
theorem exists_of_listsAt_parameter {value : Grammar Rule α} (hne : name ≠ .parameter p)
    (h : ListsAt name n ((parameter p value).failures text)) :
    ∃ rest, afterKey? p.key text = some rest ∧ ListsAt name n (value.failures rest) := by
  have hmark : "=".toList = ['='] := rfl
  have hbody := h.of_rule_of_ne hne
  change ListsAt name n ((seq (.literal p.key *> .literal "=") value).failures text) at hbody
  rcases hbody.of_seq with hkey | ⟨last, hlast, hvalue⟩
  · change ListsAt name n ((seq (.literal p.key) (.literal "=")).failures text) at hkey
    rcases hkey.of_seq with hkey | ⟨behind, -, hequals⟩
    · exact absurd hkey not_listsAt_none
    · exact absurd hequals not_listsAt_none
  · refine ⟨_, ?_, hvalue⟩
    rw [seqRight_eq_map, rest?_map, rest?_seq, rest?_literal] at hlast
    obtain ⟨behind, hbehind, hequals⟩ := Option.bind_eq_some_iff.mp hlast
    rw [rest?_literal, hmark, after?_mark (by decide)] at hequals
    rw [afterKey?, hbehind, Option.bind_some]
    split at hequals
    · cases hequals
      rw [if_pos ‹_›]
    · cases hequals

theorem HasForm.lacks {form : Form} (h : HasForm argument form) (hname : IsNumberName name)
    (htokens : name ∉ argument.tokens) (hlists : ListsAt name n (argument.failures text)) :
    form.Lacks name n text := by
  induction h with
  | parameter p h =>
      obtain ⟨rest, hkey, hvalue⟩ :=
        exists_of_listsAt_parameter (hname.ne (by simp) (by simp)) hlists
      exact ⟨rest, hkey, h.lacks (by simpa [Script.parameter, tokens] using htokens) hvalue⟩
  | word rule h =>
      exact absurd (listsAt_token hlists).1 (by simpa [Script.word, tokens] using htokens)
  | row rule member => exact absurd (listsAt_token hlists).1 (by simpa [tokens] using htokens)
  | numbers => exact hlists
  | quotation =>
      refine absurd hlists (Avoids.not_listsAt ?_)
      rcases hname with rfl | rfl <;> decide
  | map f h ih => exact ih htokens hlists

/-- The argument that lacks a number, behind arguments that are not read. -/
theorem Choices.exists_lacks (h : Choices argument forms) (hname : IsNumberName name)
    (htokens : name ∉ argument.tokens) (hlists : ListsAt name n (argument.failures text)) :
    ∃ earlier form later, forms = earlier ++ form :: later ∧
      (∀ other ∈ earlier, other.grammar.rest? text = none) ∧ form.Lacks name n text := by
  induction h with
  | last h => exact ⟨[], _, [], rfl, by simp, h.lacks hname htokens hlists⟩
  | more h hrest ih =>
      rw [orElse_eq_choice] at htokens hlists
      rw [tokens, List.mem_append, not_or] at htokens
      rcases hlists.of_choice with hfirst | ⟨hnone, hsecond⟩
      · exact ⟨[], _, _, rfl, by simp, h.lacks hname htokens.1 hfirst⟩
      · obtain ⟨earlier, form, later, rfl, hearlier, hform⟩ := ih htokens.2 hsecond
        refine ⟨_ :: earlier, form, later, rfl, ?_, hform⟩
        intro other hother
        rcases List.mem_cons.mp hother with rfl | hother
        · rwa [← h.rest?_eq]
        · exact hearlier other hother

theorem ValueForm.Lacks.rest?_eq_none {form : ValueForm} (hname : IsNumberName name)
    (h : form.Lacks name n text) : form.grammar.rest? text = none := by
  cases form with
  | number =>
      rcases hname with rfl | rfl
      · rw [grammar, rest?_map]
        exact (listsAt_float h).2
      · exact absurd h not_listsAt_signedFloat_number
  | signedNumber =>
      rw [grammar, rest?_map]
      exact rest?_signedNumber_of_listsAt hname h
  | row | word => exact h.elim

theorem ValueForm.Lacks.le_length {form : ValueForm} (h : form.Lacks name n text) :
    n ≤ text.length := by
  cases form with
  | number | signedNumber => exact ListsAt.le_length h
  | row | word => exact h.elim

/-! ## What else is refused -/

theorem exists_cons_of_rest?_sign (h : sign.rest? text = some tail) :
    ∃ c, text = c :: tail ∧ (c = '+' ∨ c = '-') := by
  rw [rest?, read?_sign] at h
  split at h
  · next hplus =>
      obtain ⟨behind, rfl⟩ := List.head?_eq_some_iff.mp hplus
      cases h
      exact ⟨'+', rfl, .inl rfl⟩
  · split at h
    · next hminus =>
        obtain ⟨behind, rfl⟩ := List.head?_eq_some_iff.mp hminus
        cases h
        exact ⟨'-', rfl, .inr rfl⟩
    · cases h

theorem length_lt_of_afterKey? (h : afterKey? p.key text = some rest) :
    rest.length < text.length := by
  obtain ⟨front, hfront, rfl, -⟩ := exists_keyFront h
  obtain ⟨c, hc, -⟩ := hfront.head
  have hpos := List.length_pos_of_mem (List.mem_of_mem_head? hc)
  rw [List.length_append]
  omega

/-- Behind the key of a parameter nothing is read that could be tried behind the parameter, unless
it is a row of characters. -/
theorem Form.Before.rest?_of_key {other : Form} (h : (Form.parameter p p.form).Before other)
    (hregular : other.Regular) (hrow : ∀ member, other ≠ .row member)
    (hkey : afterKey? p.key text = some rest) :
    other.grammar.rest? text = none := by
  obtain ⟨front, hfront, rfl, -⟩ := exists_keyFront hkey
  cases other with
  | parameter q value =>
      rw [grammar, rest?_parameter, hfront.afterKey?_of_ne h]
      rfl
  | word words =>
      by_contra hsome
      obtain ⟨last, hlast⟩ := Option.ne_none_iff_exists'.mp hsome
      obtain ⟨word, hmem, hsplit, hstop⟩ := exists_word_of_rest? hlast
      have hletters := hfront.letters rest
      have hstop' : ∀ c ∈ last.head?, c.isAlpha = false := fun c hc =>
        not_isAlpha_of_not_isNameChar (hstop c hc)
      rw [hsplit, Text.takeWhile_append_of_stop (hregular word hmem).2 hstop'] at hletters
      exact h word hmem hletters
  | row member => exact absurd rfl (hrow member)
  | numbers | quotation =>
      by_contra hsome
      obtain ⟨last, hlast⟩ := Option.ne_none_iff_exists'.mp hsome
      obtain ⟨c, hc, halpha⟩ := Form.Late.not_isAlpha (by trivial) hlast
      obtain ⟨d, hd, hletter⟩ := hfront.head
      obtain ⟨behind, rfl⟩ := List.head?_eq_some_iff.mp hd
      obtain rfl : d = c := by simpa using hc
      rw [hletter] at halpha
      cases halpha

section Argument

variable (h : Choices argument forms) (horderly : Orderly forms)
include h horderly

/-- A parameter without a value leaves nothing to be read. -/
theorem rest?_argument_of_key (hrows : ∀ member, Form.row member ∉ forms)
    (hmem : Form.parameter p p.form ∈ forms) (hkey : afterKey? p.key text = some rest)
    (hvalue : p.form.grammar.rest? rest = none) : argument.rest? text = none := by
  rw [h.rest?_eq, List.findSome?_eq_none_iff]
  intro form hform
  obtain ⟨earlier, later, rfl⟩ := List.append_of_mem hmem
  obtain ⟨-, hlater, hearlier⟩ := List.pairwise_append.mp horderly.before
  rcases List.mem_append.mp hform with hform' | hform'
  · have hbefore := hearlier form hform' _ List.mem_cons_self
    cases form with
    | parameter q value =>
        obtain ⟨front, hfront, rfl, -⟩ := exists_keyFront hkey
        rw [Form.grammar, rest?_parameter, hfront.afterKey?_of_ne (Ne.symm hbefore)]
        rfl
    | word | row | numbers | quotation => exact hbefore.elim
  · rcases List.mem_cons.mp hform' with rfl | hform'
    · rw [Form.grammar, rest?_parameter, hkey, Option.bind_some, hvalue]
    · refine Form.Before.rest?_of_key ((List.pairwise_cons.mp hlater).1 form hform') ?_ ?_ hkey
      · exact horderly.regular form hform
      · rintro member rfl
        exact hrows member hform

/-- A sign without a number leaves nothing to be read. -/
theorem rest?_argument_of_sign (hmem : Form.numbers ∈ forms) (hsign : sign.rest? text = some tail)
    (hnone : signedNumber.rest? text = none) : argument.rest? text = none := by
  obtain ⟨c, rfl, hc⟩ := exists_cons_of_rest?_sign hsign
  have hhead : ∀ d ∈ (c :: tail).head?, d.isAlpha = false := by
    rintro d hd
    obtain rfl : c = d := by simpa using hd
    rcases hc with rfl | rfl <;> decide
  rw [h.rest?_eq, List.findSome?_eq_none_iff]
  intro form hform
  obtain ⟨earlier, later, rfl⟩ := List.append_of_mem hmem
  obtain ⟨-, hlater, hearlier⟩ := List.pairwise_append.mp horderly.before
  rcases List.mem_append.mp hform with hform' | hform'
  · exact Form.rest?_of_not_isAlpha (horderly.regular form hform)
      (hearlier form hform' _ List.mem_cons_self) hhead
  · rcases List.mem_cons.mp hform' with rfl | hform'
    · rw [Form.grammar, rest?_map, rest?_numberList, hnone, Option.map_none]
    · exact ((List.pairwise_cons.mp hlater).1 form hform').elim

end Argument

/-- A value does not lack a number under both names. -/
theorem ValueForm.Lacks.not_both {form : ValueForm} (hfloat : form.Lacks .float n text)
    (hsignedFloat : form.Lacks .signedFloat n text) : False := by
  cases form with
  | number => exact not_listsAt_signedFloat_number hsignedFloat
  | signedNumber =>
      obtain ⟨tail, htail, hbehind, -⟩ := exists_sign_of_listsAt_float hfloat
      obtain ⟨hplace, -⟩ := listsAt_signedFloat hsignedFloat
      obtain ⟨c, rfl, -⟩ := exists_cons_of_rest?_sign htail
      rw [List.length_cons] at hplace
      omega
  | row | word => exact hfloat.elim

/-! ## Arguments behind each other -/

section Arguments

variable (h : Choices argument forms) (horderly : Orderly forms) (hprod : argument.Productive)
  (hrows : ∀ member, Form.row member ∉ forms)
include h horderly hprod hrows

/-- Where arguments lack a number, what is left begins with the key of a parameter without a value,
or a list of numbers lacks one at its end. -/
theorem exists_of_listsAt_many (hname : IsNumberName name) (htokens : name ∉ argument.tokens)
    (hlists : ListsAt name n ((many argument).failures text)) :
    (∃ p rest, Form.parameter p p.form ∈ forms ∧
        afterKey? p.key (Text.skipBlanks (items argument text).2) = some rest ∧
        p.form.Lacks name n rest) ∨
      Form.numbers ∈ forms ∧ ∃ place, ListsAt name n (signedNumber.failures place) ∧
        Text.skipBlanks place = place ∧
        Text.skipBlanks (items argument place).2 = Text.skipBlanks (items argument text).2 := by
  obtain ⟨start, -, hstart, hskip, hend⟩ := hlists.of_many hprod
  obtain ⟨earlier, form, later, rfl, hearlier, hform⟩ := h.exists_lacks hname htokens hstart
  have hregular := horderly.regular form (by simp)
  cases form with
  | parameter p value =>
      obtain rfl : value = p.form := hregular
      obtain ⟨rest, hkey, hvalue⟩ := hform
      have hnone := rest?_argument_of_key h horderly hrows (by simp) hkey
        (hvalue.rest?_eq_none hname)
      rw [items_snd_of_none (by rwa [hskip]), hskip] at hend
      exact .inl ⟨p, rest, by simp, hend ▸ hkey, hvalue⟩
  | numbers =>
      obtain ⟨place, hplace, hwhere⟩ := exists_of_listsAt_numberList hname hform
      refine .inr ⟨by simp, place, hplace, ?_⟩
      rcases hwhere with ⟨rfl, -⟩ | ⟨rest, hrest, rfl⟩
      · exact ⟨hskip, hend⟩
      · have hread : argument.rest? start = some rest := by
          rw [h.rest?_eq]
          refine findSome?_of_agree (fun other hother => .inl (hearlier other hother)) ?_
          rw [Form.grammar, rest?_map, hrest]
        refine ⟨Text.skipBlanks_skipBlanks rest, ?_⟩
        rw [(items_skipBlanks hprod rest).2, ← hend]
        rw [← hskip] at hread
        rw [items_snd_of_some hprod hread]
  | word | row | quotation => exact hform.elim

/-- **One name for a number.**  Arguments do not report the two names for a number together. -/
theorem not_listsAt_both_numbers
    (hsigned : Form.numbers ∈ forms → ∀ p, Form.parameter p .signedNumber ∉ forms)
    (hfloatToken : Rule.float ∉ argument.tokens) (hsignedToken : Rule.signedFloat ∉ argument.tokens)
    (hfloat : ListsAt .float n ((many argument).failures text))
    (hsignedFloat : ListsAt .signedFloat n ((many argument).failures text)) : False := by
  have hnumbers {place : List Char} (hplace : ListsAt .signedFloat n (signedNumber.failures place))
      (hend : Text.skipBlanks (items argument place).2 = Text.skipBlanks (items argument text).2) :
      (Text.skipBlanks (items argument text).2).length ≤ n := by
    rw [(listsAt_signedFloat hplace).1, ← hend]
    exact (Text.length_skipBlanks_le _).trans (items_isSuffix argument place).length_le
  rcases exists_of_listsAt_many h horderly hprod hrows (.inl rfl) hfloatToken hfloat with
    ⟨p, rest, -, hkey, hvalue⟩ | ⟨hlist, place, hplace, hskip, hend⟩
  · have hlt := length_lt_of_afterKey? hkey
    have hle := hvalue.le_length
    rcases exists_of_listsAt_many h horderly hprod hrows (.inr rfl) hsignedToken hsignedFloat with
      ⟨q, rest', -, hkey', hvalue'⟩ | ⟨-, place', hplace', -, hend'⟩
    · -- only one parameter has its key in front of what is left
      obtain ⟨front, hfront, hsplit, -⟩ := exists_keyFront hkey
      by_cases heq : p = q
      · subst heq
        obtain rfl : rest = rest' := Option.some.inj (hkey.symm.trans hkey')
        exact hvalue.not_both hvalue'
      · rw [hsplit, hfront.afterKey?_of_ne heq] at hkey'
        cases hkey'
    · have hge := hnumbers hplace' hend'
      omega
  · obtain ⟨tail, hsign, hbehind, hnone⟩ := exists_sign_of_listsAt_float hplace
    have hrefused := rest?_argument_of_sign h horderly hlist hsign hnone
    obtain ⟨c, rfl, -⟩ := exists_cons_of_rest?_sign hsign
    rw [items_snd_of_none (by rwa [hskip]), hskip] at hend
    rcases exists_of_listsAt_many h horderly hprod hrows (.inr rfl) hsignedToken hsignedFloat with
      ⟨q, rest', hmem, -, hvalue'⟩ | ⟨-, place', hplace', -, hend'⟩
    · cases hform : q.form with
      | signedNumber => exact hsigned hlist q (hform ▸ hmem)
      | number =>
          rw [hform] at hvalue'
          exact not_listsAt_signedFloat_number hvalue'
      | row | word =>
          rw [hform] at hvalue'
          exact hvalue'.elim
    · have hge := hnumbers hplace' hend'
      rw [← hend, List.length_cons] at hge
      omega

end Arguments

end ObjectActions.Script
