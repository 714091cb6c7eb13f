import ObjectActions.Proofs.Script.FormReach

/-!
# Arguments behind each other

The arguments of a verb are tried in the order of their forms.  Which of them is read can change
when the text is cut off or continued, but never in a way that matters:

* `cuts_argument`: an argument that is read before the end of a text is read without that end;
* `rest?_argument_append`: as long as nothing is tried at the end, it is read with any other end;
* `exists_argument_completion`: an argument that fails at the end can be completed.

From these it follows that arguments behind each other can be completed when something was tried
behind the place where they end (`exists_items_completion`).
-/

namespace ObjectActions.Script

open Grammar

variable {text more rest : List Char} {α : Type} {argument : Grammar Rule α} {forms : List Form}

/-! ## The first form that can be read -/

theorem findSome?_of_agree {β γ : Type} {f : β → Option γ} {earlier later : List β} {a : β} {b : γ}
    (hearlier : ∀ x ∈ earlier, f x = none ∨ f x = some b) (h : f a = some b) :
    (earlier ++ a :: later).findSome? f = some b := by
  induction earlier with
  | nil => simp [h]
  | cons x earlier ih =>
      have hrest := ih fun y hy => hearlier y (List.mem_cons_of_mem _ hy)
      rw [List.cons_append, List.findSome?_cons]
      rcases hearlier x List.mem_cons_self with hx | hx
      · rw [hx]
        exact hrest
      · rw [hx]

theorem Choices.rest?_eq (h : Choices argument forms) (text : List Char) :
    argument.rest? text = forms.findSome? fun form => form.grammar.rest? text := by
  induction h with
  | last h =>
      rw [h.rest?_eq]
      simp
  | more h hrest ih =>
      rw [orElse_eq_choice, rest?_choice, h.rest?_eq, ih, List.findSome?_cons]
      split
      · next hread => rw [hread, Option.some_or]
      · next hread => rw [hread, Option.none_or]

/-- The form that is read, behind forms that are not. -/
theorem Choices.exists_of_rest? (h : Choices argument forms)
    (hrest : argument.rest? text = some rest) :
    ∃ earlier form later, forms = earlier ++ form :: later ∧
      (∀ other ∈ earlier, other.grammar.rest? text = none) ∧
      form.grammar.rest? text = some rest := by
  rw [h.rest?_eq] at hrest
  obtain ⟨earlier, form, later, hforms, hform, hearlier⟩ := List.findSome?_eq_some_iff.mp hrest
  exact ⟨earlier, form, later, hforms, hearlier, hform⟩

/-- The form with the furthest attempt, behind forms that are not read. -/
theorem Choices.exists_of_reach? (h : Choices argument forms) {n : Nat}
    (hreach : argument.reach? text = some n) :
    ∃ earlier form later, forms = earlier ++ form :: later ∧
      (∀ other ∈ earlier, other.grammar.rest? text = none) ∧
      form.grammar.reach? text = some n := by
  induction h with
  | last h => exact ⟨[], _, [], rfl, by simp, h.reach?_eq text ▸ hreach⟩
  | more h hrest ih =>
      rcases exists_of_reach?_choice hreach with hfirst | ⟨hnone, hsecond⟩
      · exact ⟨[], _, _, rfl, by simp, h.reach?_eq text ▸ hfirst⟩
      · obtain ⟨earlier, form, later, rfl, hearlier, hform⟩ := ih hsecond
        refine ⟨_ :: earlier, form, later, rfl, ?_, hform⟩
        intro other hother
        rcases List.mem_cons.mp hother with rfl | hother
        · rwa [← h.rest?_eq]
        · exact hearlier other hother

/-- Where no attempt fails, none of the forms that are tried fails. -/
theorem Choices.quiet {earlier later : List Form} {form : Form}
    (h : Choices argument (earlier ++ form :: later)) (hquiet : argument.Quiet more text)
    (hearlier : ∀ other ∈ earlier, other.grammar.rest? text = none) :
    form.grammar.Quiet more text := by
  have hform {β : Type} {argument : Grammar Rule β} {form : Form} (h : HasForm argument form)
      (hquiet : argument.Quiet more text) : form.grammar.Quiet more text := by
    intro n hn
    exact hquiet n (h.reach?_eq text ▸ hn)
  generalize hforms : earlier ++ form :: later = forms at h
  induction h generalizing earlier with
  | last h =>
      cases earlier with
      | nil =>
          cases hforms
          exact hform h hquiet
      | cons other earlier => simp at hforms
  | more h hrest ih =>
      cases earlier with
      | nil =>
          cases hforms
          exact hform h hquiet.of_choice.1
      | cons other earlier =>
          rw [List.cons_append, List.cons.injEq] at hforms
          obtain ⟨rfl, rfl⟩ := hforms
          have hnone := hearlier other List.mem_cons_self
          refine ih (hquiet.of_choice.2 (h.rest?_eq text ▸ hnone)) ?_ rfl
          intro other hother
          exact hearlier other (List.mem_cons_of_mem _ hother)

/-! ## Forms in order -/

/-- Whether the forms of some arguments can be tried in their order. -/
structure Orderly (forms : List Form) : Prop where
  regular : ∀ form ∈ forms, form.Regular
  before : forms.Pairwise Form.Before

theorem orderly_forms (verb : Verb) : Orderly verb.forms := by
  have hparameter (p : Parameter) : p.argumentForm.Regular := rfl
  have hword (words : List String) :
      (Form.word words).Regular ↔ ∀ word ∈ words, IsRow Char.isAlpha word.toList := Iff.rfl
  have hname : (Form.row Text.isNameChar).Regular :=
    ⟨fun _ => isNameChar_of_isAlpha, fun _ => isAddressChar_of_isNameChar⟩
  have haddress : (Form.row Text.isAddressChar).Regular :=
    ⟨fun _ hc => isAddressChar_of_isNameChar (isNameChar_of_isAlpha hc), fun _ hc => hc⟩
  have halphanum : (Form.row Char.isAlphanum).Regular :=
    ⟨fun _ hc => by simp [Char.isAlphanum, hc], fun _ => isAddressChar_of_isAlphanum⟩
  have hnumbers : Form.numbers.Regular := trivial
  have hquotation : Form.quotation.Regular := trivial
  constructor
  · cases verb <;>
      simp [Verb.forms, Verb.usages, Usage.form, statusWords, IsRow, hparameter, hword, hname,
        haddress, halphanum, hnumbers, hquotation]
  · cases verb <;>
      simp [Verb.forms, Verb.usages, Usage.form, statusWords, Parameter.argumentForm,
        Form.Before, ValueForm.Steady, Parameter.form, Parameter.key, Text.lower]

/-- Whether rows hold nothing but the characters of names. -/
def Narrow (forms : List Form) : Prop :=
  ∀ member, .row member ∈ forms → ∀ c, member c = true → Text.isNameChar c = true

theorem narrow_or_address (verb : Verb) :
    Narrow verb.forms ∨ .row Text.isAddressChar ∈ verb.forms := by
  cases verb with
  | noise | picture | media => exact .inr (by simp [Verb.forms, Verb.usages, Usage.form])
  | texture | corona | solid | visible =>
      refine .inl fun member hmem c hc => ?_
      simp only [Verb.forms, Verb.usages, Usage.form, Parameter.argumentForm, List.map_cons,
        List.map_nil, List.mem_cons, List.not_mem_nil, reduceCtorEq, Form.row.injEq, false_or,
        or_false] at hmem
      exact hmem ▸ hc
  | color =>
      refine .inl fun member hmem c hc => ?_
      simp only [Verb.forms, Verb.usages, Usage.form, Parameter.argumentForm, List.map_cons,
        List.map_nil, List.mem_cons, List.not_mem_nil, reduceCtorEq, Form.row.injEq, false_or,
        or_false] at hmem
      exact isNameChar_of_isAlphanum (hmem ▸ hc)
  | _ =>
      refine .inl fun member hmem => ?_
      simp [Verb.forms, Verb.usages, Usage.form, Parameter.argumentForm] at hmem

/-! ## One argument -/

section Argument

variable (h : Choices argument forms) (horderly : Orderly forms)
include h horderly

/-- The forms before the one that is read come before it, and all are regular. -/
theorem cuts_argument : argument.Cuts := by
  intro text more rest hrest
  obtain ⟨earlier, form, later, rfl, hearlier, hform⟩ := h.exists_of_rest? hrest
  have hregular := horderly.regular
  have hbefore := (List.pairwise_append.mp horderly.before).2.2
  rw [h.rest?_eq]
  refine findSome?_of_agree (fun other hother => ?_)
    (form.cuts (hregular form (by simp)) hform)
  exact (hbefore other hother form (by simp)).cut (hregular other (by simp [hother]))
    (hregular form (by simp)) (hearlier other hother) hform

/-- **Going on.**  An argument that ends before the end of the text, and where nothing is tried
there, is read in the same way whatever follows. -/
theorem rest?_argument_append (hnarrow : Narrow forms)
    (hrest : argument.rest? (text ++ more) = some (rest ++ more))
    (hne : Text.skipBlanks rest ≠ []) (hquiet : argument.Quiet more (text ++ more))
    (further : List Char) : argument.rest? (text ++ further) = some (rest ++ further) := by
  obtain ⟨earlier, form, later, rfl, hearlier, hform⟩ := h.exists_of_rest? hrest
  have hregular := horderly.regular
  have hbefore := (List.pairwise_append.mp horderly.before).2.2
  have hmem : form ∈ earlier ++ form :: later := by simp
  have hrestNe : rest ≠ [] := by
    rintro rfl
    exact hne rfl
  rw [h.rest?_eq]
  refine findSome?_of_agree (fun other hother => ?_)
    (form.rest?_append (hregular form hmem) hform hrestNe (h.quiet hquiet hearlier) further)
  obtain ⟨front, behind, rfl⟩ := List.append_of_mem hother
  have hquiet' : other.grammar.Quiet more (text ++ more) := by
    rw [List.append_assoc, List.cons_append] at h
    exact h.quiet hquiet fun o ho => hearlier o (List.mem_append_left _ ho)
  refine (hbefore other hother form (by simp)).extend (hregular other (by simp))
    (hregular form hmem) ?_ (hearlier other hother) hquiet' hform hne further
  rintro member rfl
  exact hnarrow member hmem

/-- **Completing.**  An argument that fails behind its first character can be completed.  It has
read nothing but characters of addresses and blanks, and does not stop behind a letter. -/
theorem exists_argument_completion (hskip : Text.skipBlanks (text ++ more) = text ++ more)
    (hne : text ≠ []) (hreach : argument.reach? (text ++ more) = some more.length) :
    (∀ c ∈ text, Text.isAddressChar c = true ∨ Text.isBlank c = true) ∧
      (∀ c ∈ text.getLast?, c.isAlpha = false) ∧
      ∃ further, IsSolid further ∧ argument.rest? (text ++ further) = some [] := by
  obtain ⟨earlier, form, later, rfl, hearlier, hform⟩ := h.exists_of_reach? hreach
  have hregular := horderly.regular
  have hbefore := (List.pairwise_append.mp horderly.before).2.2
  obtain ⟨hmem, hlast, further, hsolid, hrest, hrefused⟩ :=
    Form.exists_completion (hregular form (by simp)) hskip hne hform
  refine ⟨hmem, hlast, further, hsolid, ?_⟩
  rw [h.rest?_eq]
  refine findSome?_of_agree (fun other hother => .inl ?_) hrest
  exact hrefused other (hregular other (by simp [hother])) (hbefore other hother form (by simp))

end Argument

/-! ## Arguments behind each other -/

/-- The item with an attempt behind the place where the items end. -/
theorem exists_item_of_reach?_many {item : Grammar Rule α} (hprod : item.Productive) {n : Nat}
    (hreach : (many item).reach? text = some n)
    (hlt : n < (Text.skipBlanks (items item text).2).length) :
    ∃ start, Text.skipBlanks start = start ∧ start <:+ text ∧ item.reach? start = some n ∧
      Text.skipBlanks (items item text).2 <:+ start := by
  have hskip := Text.skipBlanks_skipBlanks text
  induction text using hprod.items_induction with
  | stop text hread =>
      have hnone := rest?_eq_none_iff.mpr hread
      rw [reach?_many_of_none hnone] at hreach
      rw [items_snd_of_none hnone]
      exact ⟨Text.skipBlanks text, hskip, skipBlanks_isSuffix text, hreach, List.suffix_rfl⟩
  | step text value last hread ih =>
      have hsome := rest?_of_read? hread
      rw [reach?_many_of_some hprod hsome] at hreach
      rw [items_snd_of_some hprod hsome] at hlt ⊢
      have hlast := read?_isSuffix item hread
      rcases eq_or_eq_of_merge hreach with hitem | hmany
      · refine ⟨Text.skipBlanks text, hskip, skipBlanks_isSuffix text, hitem, ?_⟩
        exact ((skipBlanks_isSuffix _).trans (items_isSuffix item last)).trans hlast
      · obtain ⟨start, hstart, hsuffix, hitem, hend⟩ :=
          ih hmany hlt (Text.skipBlanks_skipBlanks last)
        exact ⟨start, hstart, (hsuffix.trans hlast).trans (skipBlanks_isSuffix text), hitem, hend⟩

section Arguments

variable (h : Choices argument forms) (horderly : Orderly forms) (hprod : argument.Productive)
include h horderly hprod

/-- If something was tried behind arguments, then what is left up to there begins with a character
of an address and does not end with a letter. -/
theorem leftover_of_reach?_many {front : List Char}
    (hreach : (many argument).reach? text = some more.length)
    (hleft : Text.skipBlanks (items argument text).2 = front ++ more) (hne : front ≠ []) :
    (∃ c ∈ front.head?, Text.isAddressChar c = true) ∧
      ∀ c ∈ front.getLast?, c.isAlpha = false := by
  obtain ⟨start, hstart, -, hitem, taken, rfl⟩ :=
    exists_item_of_reach?_many hprod hreach (length_lt_of_eq_append hleft hne)
  have hblank := Text.isBlank_head_skipBlanks (items argument text).2
  rw [hleft] at hstart hitem hblank
  rw [← List.append_assoc] at hstart hitem
  obtain ⟨c, front, rfl⟩ := List.exists_cons_of_ne_nil hne
  obtain ⟨hmem, hlast, -⟩ := exists_argument_completion h horderly hstart (by simp) hitem
  refine ⟨⟨c, rfl, (hmem c (by simp)).resolve_right (by simp [hblank c rfl])⟩, fun d hd => ?_⟩
  exact hlast d (by rw [List.getLast?_append, hd]; rfl)

/-- Behind an address nothing that could be part of one is left. -/
theorem eq_nil_of_address (haddress : .row Text.isAddressChar ∈ forms) {front : List Char}
    (hreach : (many argument).reach? text = some more.length)
    (hleft : Text.skipBlanks (items argument text).2 = front ++ more) : front = [] := by
  by_contra hne
  obtain ⟨⟨c, hc, hmember⟩, -⟩ := leftover_of_reach?_many h horderly hprod hreach hleft hne
  obtain ⟨behind, rfl⟩ := List.head?_eq_some_iff.mp hc
  have hnone := hprod.rest?_items text
  rw [hleft, h.rest?_eq, List.findSome?_eq_none_iff] at hnone
  have hrow := hnone _ haddress
  rw [Form.grammar, rest?_map, rest?_row] at hrow
  simp [hmember] at hrow

/-- An argument that is completed is the last one. -/
theorem exists_lastArgument_completion (hne : Text.skipBlanks text ≠ [])
    (hreach : argument.reach? (Text.skipBlanks (text ++ more)) = some more.length) :
    ∃ further, IsSolid further ∧ (items argument (text ++ further)).2 = [] := by
  have hskip := Text.skipBlanks_skipBlanks (text ++ more)
  rw [Text.skipBlanks_append_of_ne_nil hne] at hskip hreach
  obtain ⟨-, -, further, hsolid, hrest⟩ := exists_argument_completion h horderly hskip hne hreach
  have hnil : (items argument []).2 = [] := List.suffix_nil.mp (items_isSuffix _ _)
  refine ⟨further, hsolid, ?_⟩
  rw [← hsolid.skipBlanks_after] at hrest
  rw [items_snd_of_some hprod hrest, hnil]

/-- **Arguments.**  Arguments with an attempt behind the place where they end can be completed. -/
theorem exists_items_completion (hnarrow : Narrow forms) {front : List Char}
    (hreach : (many argument).reach? (text ++ more) = some more.length)
    (hleft : Text.skipBlanks (items argument (text ++ more)).2 = front ++ more) (hne : front ≠ []) :
    ∃ further, IsSolid further ∧ (items argument (text ++ further)).2 = [] := by
  have hlt := length_lt_of_eq_append hleft hne
  clear hleft
  generalize hwhole : text ++ more = whole at hreach hlt
  induction whole using hprod.items_induction generalizing text with
  | stop whole hread =>
      subst hwhole
      have hnone := rest?_eq_none_iff.mpr hread
      rw [reach?_many_of_none hnone] at hreach
      rw [items_snd_of_none hnone] at hlt
      have hblank := skipBlanks_ne_nil_of_length_lt more hlt
      exact exists_lastArgument_completion h horderly hprod hblank hreach
  | step whole value last hread ih =>
      subst hwhole
      have hsome := rest?_of_read? hread
      have hlength := hprod hread
      rw [items_snd_of_some hprod hsome] at hlt
      have hitems := (items_isSuffix argument last).length_le
      have hskip := Text.length_skipBlanks_le (items argument last).2
      have hblank : Text.skipBlanks text ≠ [] := skipBlanks_ne_nil_of_length_lt more (by omega)
      rw [reach?_many_of_some hprod hsome] at hreach
      by_cases hitem : argument.reach? (Text.skipBlanks (text ++ more)) = some more.length
      · exact exists_lastArgument_completion h horderly hprod hblank hitem
      · -- this argument is not the one to complete, so what completes a later one leaves it alone
        have hquiet : argument.Quiet more (Text.skipBlanks (text ++ more)) :=
          quiet_of_merge hreach hitem
        have hmany := (eq_or_eq_of_merge hreach).resolve_left hitem
        rw [Text.skipBlanks_append_of_ne_nil hblank] at hsome hquiet
        obtain ⟨rest, rfl, -⟩ := exists_append_of_rest? hsome (by omega)
        obtain ⟨further, hsolid, hrest⟩ := ih rfl hmany hlt
        have hend :=
          Text.length_skipBlanks_le_of_isSuffix (items_isSuffix argument (rest ++ more))
        have hne : Text.skipBlanks rest ≠ [] := skipBlanks_ne_nil_of_length_lt more (by omega)
        have hsome' := rest?_argument_append h horderly hnarrow hsome hne hquiet further
        rw [← hsolid.skipBlanks_after] at hsome'
        exact ⟨further, hsolid, by rw [items_snd_of_some hprod hsome', hrest]⟩

/-- **Cutting.**  What is left behind arguments is left behind them without the end of the text,
unless it ends with a letter: the end of the text could turn it into a word. -/
theorem skipBlanks_items_of_append {front : List Char}
    (hleft : Text.skipBlanks (items argument (text ++ more)).2 = front ++ more)
    (hlast : ∀ c ∈ front.getLast?, c.isAlpha = false) :
    Text.skipBlanks (items argument text).2 = front := by
  have hcuts := cuts_argument h horderly
  -- along the arguments of the whole text: the cut lies behind every argument that is read
  generalize hwhole : text ++ more = whole at hleft
  induction whole using hprod.items_induction generalizing text with
  | stop whole hread =>
      subst hwhole
      have hnone := rest?_eq_none_iff.mpr hread
      rw [items_snd_of_none hnone] at hleft
      have hfront : Text.skipBlanks text = front := by
        by_cases hblank : Text.skipBlanks text = []
        · rw [Text.skipBlanks_append_of_eq_nil hblank] at hleft
          have hle := Text.length_skipBlanks_le more
          rw [hleft, List.length_append] at hle
          rw [hblank, List.length_eq_zero_iff.mp (show front.length = 0 by omega)]
        · rw [Text.skipBlanks_append_of_ne_nil hblank] at hleft
          exact List.append_cancel_right hleft
      rw [hleft, h.rest?_eq, List.findSome?_eq_none_iff] at hnone
      -- a form that fits the front alone would fit it with what follows as well
      have hnone' : argument.rest? front = none := by
        rw [h.rest?_eq, List.findSome?_eq_none_iff]
        intro form hform
        by_contra hsome
        obtain ⟨rest, hrest⟩ := Option.ne_none_iff_exists'.mp hsome
        exact form.rest?_ne_none (horderly.regular form hform) hlast hrest more (hnone form hform)
      rw [items_snd_of_none (by rwa [hfront]), hfront]
  | step whole value last hread ih =>
      subst hwhole
      have hsome := rest?_of_read? hread
      have hlength := hprod hread
      rw [items_snd_of_some hprod hsome] at hleft
      have hitems := (items_isSuffix argument last).length_le
      have hskip := Text.length_skipBlanks_le (items argument last).2
      rw [hleft, List.length_append] at hskip
      have hblank : Text.skipBlanks text ≠ [] := skipBlanks_ne_nil_of_length_lt more (by omega)
      rw [Text.skipBlanks_append_of_ne_nil hblank] at hsome
      obtain ⟨rest, rfl, -⟩ := exists_append_of_rest? hsome (by omega)
      rw [items_snd_of_some hprod (hcuts hsome)]
      exact ih rfl hleft

end Arguments

end ObjectActions.Script
