import ObjectActions.Proofs.Script.NumberListReach
import ObjectActions.Proofs.Script.Refusal
import ObjectActions.Proofs.Script.Separators

/-!
# Values that are cut off

What can be read of an argument, and where an attempt fails, depends on its form only.  Each
form has a grammar of its own (`Form.grammar`), and every grammar of that form reads as far
and fails in the same places.

A value stands behind a key, an equals sign and blanks (`KeyFront`), which are the same whatever
the value is.  A value that is cut off behind its first character is a number, and can be
completed (`exists_value_completion`).
-/

namespace ObjectActions.Script

open Grammar

variable {text more rest : List Char}

/-! ## Words -/

theorem rest?_word {α : Type} (rule : Rule) (value? : String → Option α) (text : List Char) :
    (word rule value?).rest? text =
      if (value? (String.ofList (text.takeWhile Text.isNameChar))).isSome then
        some (text.dropWhile Text.isNameChar)
      else none :=
  rest?_run rule Text.isNameChar value? text

theorem reach?_word {α : Type} (rule : Rule) (value? : String → Option α) (text : List Char) :
    (word rule value?).reach? text =
      if (value? (String.ofList (text.takeWhile Text.isNameChar))).isSome then none
      else some text.length := by
  rw [word, reach?_token]
  rfl

/-! ## Forms and their grammars -/

/-- A grammar for the values of a form. -/
def ValueForm.grammar : ValueForm → Grammar Rule Unit
  | row member => .map (fun _ => ()) (.token .objectName (.run member) nonempty?)
  | word words => .map (fun _ => ()) (oneOfWords .lightType words)
  | number => .map (fun _ => ()) Script.number
  | signedNumber => .map (fun _ => ()) Script.signedNumber

/-- A grammar for the arguments of a form. -/
def Form.grammar : Form → Grammar Rule Unit
  | parameter p value => Script.parameter p value.grammar
  | word words =>
      Script.word .objectName fun w => if w ∈ words then some () else none
  | row member => .map (fun _ => ()) (.token .objectName (.run member) nonempty?)
  | numbers => .map (fun _ => ()) numberList
  | quotation => .map (fun _ => ()) quotedText

theorem HasValueForm.rest?_eq {α : Type} {value : Grammar Rule α} {form : ValueForm}
    (h : HasValueForm value form) (text : List Char) :
    value.rest? text = form.grammar.rest? text := by
  induction h with
  | row | word => simp only [ValueForm.grammar, oneOfWords, Script.word, rest?_map, rest?_token]
  | number | signedNumber => rw [ValueForm.grammar, rest?_map]
  | map f h ih => rw [rest?_map, ih]

theorem HasValueForm.reach?_eq {α : Type} {value : Grammar Rule α} {form : ValueForm}
    (h : HasValueForm value form) (text : List Char) :
    value.reach? text = form.grammar.reach? text := by
  induction h with
  | row | word =>
      simp only [ValueForm.grammar, oneOfWords, Script.word, reach?_map, reach?_token]
  | number | signedNumber => rfl
  | map f h ih => exact ih

theorem rest?_parameter {α : Type} (p : Parameter) (value : Grammar Rule α) (text : List Char) :
    (parameter p value).rest? text = (afterKey? p.key text).bind value.rest? := by
  unfold rest?
  rw [read?_parameter]
  cases afterKey? p.key text <;> rfl

theorem reach?_parameter {α : Type} (p : Parameter) (value : Grammar Rule α) (text : List Char) :
    (parameter p value).reach? text =
      if ((afterKey? p.key text).bind value.rest?).isSome then
        (afterKey? p.key text).bind value.reach?
      else some (((afterKey? p.key text).bind value.reach?).getD text.length) := by
  have hmark : "=".toList = ['='] := rfl
  have hequals := fun text => @after?_mark '=' (by decide) text
  rw [← rest?_parameter, parameter, reach?_rule, ← rest?_rule (.parameter p)]
  simp only [seqRight_eq_map, reach?_map, reach?_seq, rest?_map, rest?_seq, rest?_literal,
    reach?_literal, Option.merge_none_left, afterKey?, hmark, hequals]
  cases after? p.key.toList text with
  | none => rfl
  | some behind =>
      by_cases hhead : (Text.skipBlanks behind).head? = some '='
      · simp only [Option.bind_some, Option.merge_none_left, if_pos hhead]
      · simp only [Option.bind_some, Option.merge_none_left, if_neg hhead]
        rfl

theorem HasForm.rest?_eq {α : Type} {argument : Grammar Rule α} {form : Form}
    (h : HasForm argument form) (text : List Char) :
    argument.rest? text = form.grammar.rest? text := by
  induction h with
  | parameter p h =>
      rw [Form.grammar, rest?_parameter, rest?_parameter]
      cases afterKey? p.key text with
      | none => rfl
      | some rest => exact h.rest?_eq rest
  | @word _ rule value? words h =>
      rw [Form.grammar, rest?_word, rest?_word]
      have hw := h (String.ofList (text.takeWhile Text.isNameChar))
      by_cases hmem : String.ofList (text.takeWhile Text.isNameChar) ∈ words
      · rw [if_pos (hw.mpr hmem), if_pos (by simp [hmem])]
      · rw [if_neg (mt hw.mp hmem), if_neg (by simp [hmem])]
  | row => simp only [Form.grammar, rest?_map, rest?_token]
  | numbers | quotation => rw [Form.grammar, rest?_map]
  | map f h ih => rw [rest?_map, ih]

theorem HasForm.reach?_eq {α : Type} {argument : Grammar Rule α} {form : Form}
    (h : HasForm argument form) (text : List Char) :
    argument.reach? text = form.grammar.reach? text := by
  have hrest := h.rest?_eq text
  induction h with
  | parameter p h =>
      rw [Form.grammar, reach?_parameter, reach?_parameter]
      cases afterKey? p.key text with
      | none => rfl
      | some rest =>
          simp only [Option.bind_some, h.rest?_eq rest, h.reach?_eq rest]
  | word rule h =>
      rw [Form.grammar, rest?_word, rest?_word] at hrest
      rw [Form.grammar, reach?_word, reach?_word]
      split at hrest <;> split at hrest <;> simp_all
  | row => simp only [Form.grammar, reach?_map, reach?_token]
  | numbers | quotation => rfl
  | map f h ih => exact ih (h.rest?_eq text)

/-! ## Keys -/

/-- What a parameter has before its value: the key, the equals sign and blanks. -/
inductive KeyFront (p : Parameter) : List Char → Prop where
  | intro {key before after : List Char} (hkey : Text.lower key = p.key.toList)
      (hbefore : before.all Text.isBlank) (hafter : after.all Text.isBlank) :
      KeyFront p (key ++ (before ++ '=' :: after))

variable {p q : Parameter} {front : List Char}

theorem exists_keyFront (h : afterKey? p.key text = some rest) :
    ∃ front, KeyFront p front ∧ text = front ++ rest ∧ Text.skipBlanks rest = rest := by
  obtain ⟨key, behind, tail, rfl, hkey, hbehind, rfl⟩ := exists_of_afterKey? h
  have hsplit := List.takeWhile_append_dropWhile (p := Text.isBlank) (l := behind)
  have hsplit' := List.takeWhile_append_dropWhile (p := Text.isBlank) (l := tail)
  have hblank (text : List Char) : (text.takeWhile Text.isBlank).all Text.isBlank :=
    List.all_eq_true.mpr fun _ hc => List.mem_takeWhile_imp hc
  refine ⟨_, .intro hkey (hblank behind) (hblank tail), ?_, by simp⟩
  calc
    key ++ behind = key ++ (behind.takeWhile Text.isBlank ++ Text.skipBlanks behind) := by
      rw [Text.skipBlanks, hsplit]
    _ = key ++ (behind.takeWhile Text.isBlank ++
          '=' :: (tail.takeWhile Text.isBlank ++ Text.skipBlanks tail)) := by
      rw [hbehind, Text.skipBlanks, hsplit']
    _ = _ := by simp

theorem KeyFront.afterKey? (h : KeyFront p front) (rest : List Char) :
    afterKey? p.key (front ++ rest) = some (Text.skipBlanks rest) := by
  cases h with
  | @intro key before after hkey hbefore hafter =>
      have hbefore' := Text.skipBlanks_eq_nil_iff.mpr hbefore
      have hafter' := Text.skipBlanks_eq_nil_iff.mpr hafter
      have hequals : Text.isBlank '=' = false := by decide
      rw [List.append_assoc, Script.afterKey?, after?_of_lower_eq (hkey.trans (lower_key p).symm),
        Option.bind_some, List.append_assoc, List.cons_append,
        Text.skipBlanks_append_of_eq_nil hbefore', Text.skipBlanks_cons_of_not hequals,
        List.head?_cons, if_pos rfl, List.tail_cons, Text.skipBlanks_append_of_eq_nil hafter']

theorem KeyFront.letters (h : KeyFront p front) (rest : List Char) :
    Text.lower ((front ++ rest).takeWhile Char.isAlpha) = p.key.toList := by
  exact (takeWhile_isAlpha_of_afterKey? (h.afterKey? rest)).1

theorem KeyFront.afterKey?_of_ne (h : KeyFront p front) (hne : p ≠ q) (rest : List Char) :
    Script.afterKey? q.key (front ++ rest) = none := by
  cases hkey : Script.afterKey? q.key (front ++ rest) with
  | none => rfl
  | some behind =>
      have hletters := (takeWhile_isAlpha_of_afterKey? hkey).1
      rw [h.letters] at hletters
      exact absurd (key_injective (String.toList_inj.mp hletters)) hne

/-- What a parameter has before its value is made of letters, blanks and an equals sign. -/
theorem KeyFront.mem (h : KeyFront p front) :
    ∀ c ∈ front, Text.isAddressChar c = true ∨ Text.isBlank c = true := by
  intro c hc
  cases h with
  | intro hkey hbefore hafter =>
      simp only [List.mem_append, List.mem_cons] at hc
      rcases hc with hc | hc | rfl | hc
      · have halpha := isAlpha_of_lower_eq hkey (isAlpha_of_mem_key p) c hc
        exact .inl (isAddressChar_of_isNameChar (isNameChar_of_isAlpha halpha))
      · exact .inr (List.all_eq_true.mp hbefore c hc)
      · exact .inl (by decide)
      · exact .inr (List.all_eq_true.mp hafter c hc)

theorem KeyFront.head (h : KeyFront p front) : ∃ c ∈ front.head?, c.isAlpha = true := by
  cases h with
  | @intro key before after hkey hbefore hafter =>
      cases key with
      | nil => exact absurd hkey (by cases p <;> decide)
      | cons c key =>
          exact ⟨c, rfl, isAlpha_of_lower_eq hkey (isAlpha_of_mem_key p) c List.mem_cons_self⟩

/-- It does not end with a letter. -/
theorem KeyFront.getLast (h : KeyFront p front) : ∀ c ∈ front.getLast?, c.isAlpha = false := by
  intro c hc
  cases h with
  | @intro key before after hkey hbefore hafter =>
      rw [← List.append_assoc, List.getLast?_append] at hc
      cases hlast : after.getLast? with
      | none =>
          rw [List.getLast?_cons, hlast] at hc
          simp only [Option.getD_none, Option.some_or, Option.mem_some] at hc
          subst hc
          decide
      | some d =>
          rw [List.getLast?_cons, hlast] at hc
          simp only [Option.getD_some, Option.some_or, Option.mem_some] at hc
          subst hc
          exact not_isAlpha_of_isBlank (List.all_eq_true.mp hafter d (List.mem_of_getLast? hlast))

/-! ## Values -/

/-- Whether a value is not a whole word, so that more text behind it does not undo it. -/
def ValueForm.Steady : ValueForm → Prop
  | .word _ => False
  | _ => True

theorem ValueForm.cuts (form : ValueForm) : form.grammar.Cuts := by
  cases form with
  | row member => exact (cuts_run _ _ _).map _
  | word words => exact (cuts_run _ _ _).map _
  | number => exact cuts_number.map _
  | signedNumber => exact cuts_signedNumber.map _

theorem ValueForm.grows {form : ValueForm} (h : form.Steady) : form.grammar.Grows := by
  intro text rest hrest more
  cases form with
  | row member =>
      rw [grammar, rest?_map] at hrest ⊢
      exact grows_row _ _ hrest more
  | word words => exact h.elim
  | number =>
      rw [grammar, rest?_map] at hrest ⊢
      exact grows_number hrest more
  | signedNumber =>
      rw [grammar, rest?_map] at hrest ⊢
      exact grows_signedNumber hrest more

theorem ValueForm.foresees {form : ValueForm} (h : form.Steady) : form.grammar.Foresees := by
  cases form with
  | row member => exact (foresees_row _ _).map _
  | word words => exact h.elim
  | number => exact foresees_number.map _
  | signedNumber => exact foresees_signedNumber.map _

theorem ValueForm.reports (form : ValueForm) : form.grammar.Reports := by
  intro text hnone
  cases form with
  | row member =>
      rw [grammar, rest?_map] at hnone
      exact reports_token _ _ _ hnone
  | word words =>
      rw [grammar, rest?_map] at hnone
      exact reports_token _ _ _ hnone
  | number =>
      rw [grammar, rest?_map] at hnone
      exact reports_number hnone
  | signedNumber =>
      rw [grammar, rest?_map] at hnone
      exact reports_signedNumber hnone

/-- A value that ends before the end of the text, and where nothing else is tried there, ends
there whatever follows. -/
theorem ValueForm.rest?_append {form : ValueForm}
    (h : form.grammar.rest? (text ++ more) = some (rest ++ more)) (hne : rest ≠ [])
    (hquiet : form.grammar.Quiet more (text ++ more)) (other : List Char) :
    form.grammar.rest? (text ++ other) = some (rest ++ other) := by
  cases form with
  | word words =>
      rw [grammar, rest?_map] at h ⊢
      exact rest?_run_append _ _ _ h hne other
  | row | number | signedNumber =>
      exact (ValueForm.foresees (by trivial)).read h hne hquiet other

theorem productive_value (p : Parameter) : p.form.grammar.Productive := by
  cases p with
  | name | mask | tag | size | update | color | bcolor => exact (productive_row _ _).map _
  | time | wait | brightness | radius => exact productive_number.map _
  | angle | pitch => exact productive_signedNumber.map _
  | type | fx => exact (productive_token (by decide)).map _

/-- What fails at its first character has read nothing yet. -/
theorem eq_nil_of_reach?_token {α : Type} {rule : Rule} {lexeme : Lexeme}
    {value? : String → Option α}
    (h : (Grammar.token rule lexeme value?).reach? (text ++ more) = some more.length) :
    text = [] := by
  rw [reach?_token] at h
  split at h
  · cases h
  · rw [Option.some.injEq, List.length_append] at h
    exact List.length_eq_zero_iff.mp (by omega)

/-- A row can be begun with a zero if it can hold one. -/
theorem exists_row_completion {member : Char → Bool} (hmember : member '0' = true) :
    ∃ further, IsSolid further ∧ (ValueForm.row member).grammar.rest? further = some [] := by
  refine ⟨['0'], by decide, ?_⟩
  rw [ValueForm.grammar, rest?_map, rest?_row]
  simp [hmember]

/-- A word of a list can be written where one is missing. -/
theorem exists_word_completion {words : List String} {word : String} (hmem : word ∈ words)
    (hletters : IsRow Char.isAlpha word.toList) :
    ∃ further, IsSolid further ∧ (ValueForm.word words).grammar.rest? further = some [] := by
  have hname : ∀ c ∈ word.toList, Text.isNameChar c = true :=
    fun c hc => isNameChar_of_isAlpha (hletters.2 c hc)
  have hany : words.any (Text.alike word) = true :=
    List.any_eq_true.mpr ⟨word, hmem, by simp [Text.alike]⟩
  refine ⟨word.toList, isSolid_word hletters, ?_⟩
  rw [ValueForm.grammar, rest?_map, oneOfWords, rest?_word,
    List.takeWhile_eq_self_iff.mpr hname, List.dropWhile_eq_nil_iff.mpr hname]
  simp [hany]

/-- **Values.**  A value that fails at the end of a text can be completed, and only parts of
numbers stand before that end. -/
theorem exists_value_completion (p : Parameter)
    (h : p.form.grammar.reach? (text ++ more) = some more.length) :
    (∀ c ∈ text, beginsNumber c = true) ∧
      ∃ further, IsSolid further ∧ p.form.grammar.rest? (text ++ further) = some [] := by
  have hnumeric {value : Grammar Rule Binary64}
      (hfront : ∀ c ∈ text ++ ['0'], beginsNumber c = true)
      (hrest : value.rest? (text ++ ['0']) = some []) :
      (∀ c ∈ text, beginsNumber c = true) ∧ ∃ further, IsSolid further ∧
        value.rest? (text ++ further) = some [] :=
    ⟨fun c hc => hfront c (List.mem_append_left _ hc), ['0'], by decide, hrest⟩
  cases p with
  -- these are tried at one character only, so nothing has been read of them
  | name | mask | tag | size | update | color | bcolor =>
      obtain rfl := eq_nil_of_reach?_token h
      exact ⟨by simp, exists_row_completion (by decide)⟩
  | type =>
      obtain rfl := eq_nil_of_reach?_token h
      exact ⟨by simp, @exists_word_completion _ "point" (by decide) (by decide)⟩
  | fx =>
      obtain rfl := eq_nil_of_reach?_token h
      exact ⟨by simp, @exists_word_completion _ "blink" (by decide) (by decide)⟩
  | time | wait | brightness | radius =>
      have hrest := @rest?_number_zero text more [] h (by simp)
      obtain ⟨front, hsplit, hfront⟩ := exists_number_front hrest
      rw [List.append_nil] at hsplit
      simpa [Parameter.form, ValueForm.grammar] using hnumeric (hsplit ▸ hfront) hrest
  | angle | pitch =>
      have hrest := @rest?_signedNumber_zero text more [] h (by simp)
      obtain ⟨front, hsplit, hfront⟩ := exists_signedNumber_front hrest
      rw [List.append_nil] at hsplit
      simpa [Parameter.form, ValueForm.grammar] using hnumeric (hsplit ▸ hfront) hrest

/-! ## Quoted text -/

theorem rest?_quotedText (text : List Char) :
    quotedText.rest? ('"' :: text) =
      if '"' ∈ text then some (text.dropWhile Text.isQuotable).tail else none := by
  unfold rest?
  rw [read?_quotedText]
  split <;> rfl

theorem exists_cons_of_rest?_quotedText (h : quotedText.rest? text = some rest) :
    ∃ body, text = '"' :: body := by
  have hhead : text.head? = some '"' := by
    by_contra hne
    rw [rest?_eq_none_iff.mpr (read?_quotedText_of_head hne)] at h
    cases h
  exact List.head?_eq_some_iff.mp hhead

theorem productive_quotedText : quotedText.Productive :=
  (HasForm.quotation).productive trivial

theorem cuts_quotedText : quotedText.Cuts := by
  intro text more rest h
  cases text with
  | nil =>
      have hlt := productive_quotedText.length_lt h
      simp only [List.nil_append, List.length_append] at hlt
      omega
  | cons c body =>
      obtain ⟨body', hbody⟩ := exists_cons_of_rest?_quotedText h
      rw [List.cons_append, List.cons.injEq] at hbody
      obtain ⟨rfl, -⟩ := hbody
      rw [List.cons_append, rest?_quotedText] at h
      rw [rest?_quotedText]
      split at h
      · next hmem =>
          obtain ⟨tail, htail⟩ :=
            List.head?_eq_some_iff.mp ((head?_dropWhile_isQuotable _).mpr hmem)
          rw [htail, List.tail_cons, Option.some.injEq] at h
          rw [h, ← List.cons_append] at htail
          have hdrop := dropWhile_of_append htail
          have hmem' : '"' ∈ body := (head?_dropWhile_isQuotable body).mp (by rw [hdrop]; rfl)
          rw [if_pos hmem', hdrop, List.tail_cons]
      · cases h

theorem rest?_quotedText_append (h : quotedText.rest? text = some rest) (more : List Char) :
    quotedText.rest? (text ++ more) = some (rest ++ more) := by
  obtain ⟨body, rfl⟩ := exists_cons_of_rest?_quotedText h
  rw [rest?_quotedText] at h
  rw [List.cons_append, rest?_quotedText]
  split at h
  · next hmem =>
      have hdrop : body.dropWhile Text.isQuotable ≠ [] := by
        intro hnil
        have hhead := (head?_dropWhile_isQuotable body).mpr hmem
        rw [hnil] at hhead
        cases hhead
      cases h
      rw [if_pos (List.mem_append_left _ hmem), Text.dropWhile_append_of_ne_nil hdrop,
        List.tail_append_of_ne_nil hdrop]
  · cases h

end ObjectActions.Script
