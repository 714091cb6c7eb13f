import ObjectActions.Proofs.Script.Vocabulary
import ObjectActions.Script.Reading

/-!
# Separators in scripts

Commas and semicolons are part of nothing but quoted text.  So every part of a script
ignores them (`Grammar.Ignores`) unless quoted text can be a part of it, and what can hold
quoted text is settled before them (`Grammar.Settled`).  The main statements are
`settled_statement`, for both separators, and `settled_action`, for semicolons.
-/

namespace ObjectActions.Script

open Grammar

variable {mark : Char} {α : Type}

theorem isBlank_of_isSeparator (hmark : Text.isSeparator mark) : Text.isBlank mark = false := by
  rcases Text.isSeparator_iff.mp hmark with rfl | rfl <;> decide

/-! ## Numbers and places -/

theorem ignores_number (hmark : Text.isSeparator mark) : number.Ignores mark := by
  rcases Text.isSeparator_iff.mp hmark with rfl | rfl <;>
    simp [number, fractionNumber, wholeNumber, digits, Ignores, tokenIgnores]

theorem ignores_sign (hmark : Text.isSeparator mark) : sign.Ignores mark := by
  rcases Text.isSeparator_iff.mp hmark with rfl | rfl <;> simp [sign, Ignores, tokenIgnores]

theorem ignores_signedNumber (hmark : Text.isSeparator mark) : signedNumber.Ignores mark :=
  ⟨ignores_sign hmark, ignores_number hmark⟩

theorem ignores_numberList (hmark : Text.isSeparator mark) : numberList.Ignores mark :=
  ⟨ignores_signedNumber hmark, ignores_signedNumber hmark, productive_signedNumber⟩

theorem ignores_axisNumber (hmark : Text.isSeparator mark) (rule rule' : Rule)
    {positive negative : String}
    (hempty : ∀ word ∈ ["", ",", ";"], ¬ Text.alike word positive ∧ ¬ Text.alike word negative) :
    (axisNumber rule (axis rule' positive negative)).Ignores mark := by
  refine ⟨ignores_number hmark, ?_, ?_⟩
  · simp [hempty ""]
  · rcases Text.isSeparator_iff.mp hmark with rfl | rfl
    · have hcomma : String.singleton ',' = "," := rfl
      simp [hempty ",", hcomma]
    · have hsemicolon : String.singleton ';' = ";" := rfl
      simp [hempty ";", hsemicolon]

theorem ignores_place (hmark : Text.isSeparator mark) : place.Ignores mark := by
  have hletter : (Grammar.literal "a" : Grammar Rule Unit).Ignores mark := by
    rcases Text.isSeparator_iff.mp hmark with rfl | rfl <;> simp [Ignores]
  have hdirection : direction.Ignores mark := by
    rcases Text.isSeparator_iff.mp hmark with rfl | rfl <;>
      simp [direction, integer, digits, Ignores, tokenIgnores]
  refine ⟨⟨⟨?_, ?_⟩, ⟨?_, ?_⟩⟩, ⟨?_, ?_⟩⟩
  · exact ignores_axisNumber hmark _ _ (by decide)
  · exact ignores_axisNumber hmark _ _ (by decide)
  · exact ⟨ignores_sign hmark, ignores_number hmark⟩
  · exact ⟨ignores_sign hmark, ignores_number hmark⟩
  · exact ⟨ignores_sign hmark, ignores_number hmark, hletter⟩
  · exact hdirection

/-! ## Words -/

theorem isNameChar_of_isSeparator (hmark : Text.isSeparator mark) :
    Text.isNameChar mark = false := by
  rcases Text.isSeparator_iff.mp hmark with rfl | rfl <;> decide

theorem isAddressChar_of_isSeparator (hmark : Text.isSeparator mark) :
    Text.isAddressChar mark = false := by
  rcases Text.isSeparator_iff.mp hmark with rfl | rfl <;> decide

theorem isAlphanum_of_isSeparator (hmark : Text.isSeparator mark) : mark.isAlphanum = false := by
  rcases Text.isSeparator_iff.mp hmark with rfl | rfl <;> decide

theorem ignores_word (hmark : Text.isSeparator mark) (rule : Rule) (value? : String → Option α) :
    (word rule value?).Ignores mark :=
  isNameChar_of_isSeparator hmark

theorem ignores_keyword (hmark : Text.isSeparator mark) (k : Keyword) :
    (keyword k).Ignores mark :=
  ignores_word hmark _ _

theorem productive_keyword (k : Keyword) : (keyword k).Productive := by
  refine productive_token ?_
  have hempty : Text.alike "" k.word = false := by
    rcases k with v | _
    · cases v <;> decide
    · decide
  simp [hempty]

theorem ignores_parameter (hmark : Text.isSeparator mark) (p : Parameter)
    {value : Grammar Rule α} (h : value.Ignores mark) : (parameter p value).Ignores mark := by
  refine ⟨⟨?_, ?_⟩, h⟩
  · intro c hc heq
    have halpha : c.toLower.isAlpha = mark.toLower.isAlpha := by rw [heq]
    rw [Text.isAlpha_toLower, Text.isAlpha_toLower, isAlpha_of_mem_key p c hc] at halpha
    rcases Text.isSeparator_iff.mp hmark with rfl | rfl <;> exact absurd halpha (by decide)
  · rcases Text.isSeparator_iff.mp hmark with rfl | rfl <;> simp [Ignores]

theorem productive_parameter (p : Parameter) (value : Grammar Rule α) :
    (parameter p value).Productive := by
  refine Productive.rule (Productive.map (Productive.seq (Productive.map (Productive.seq
    (productive_literal ?_) _) _) _) _) _
  cases p <;> decide

/-! ## Arguments -/

/-- Whether nothing that is written in a form holds a character. -/
def ValueForm.Excludes (mark : Char) : ValueForm → Prop
  | .row member => member mark = false
  | _ => True

/-- Whether nothing that is written in a form holds a character. -/
def Form.Excludes (mark : Char) : Form → Prop
  | .parameter _ value => value.Excludes mark
  | .row member => member mark = false
  | .quotation => False
  | _ => True

theorem HasValueForm.ignores {value : Grammar Rule α} {form : ValueForm}
    (h : HasValueForm value form) (hform : form.Excludes mark) (hmark : Text.isSeparator mark) :
    value.Ignores mark := by
  induction h with
  | row rule member => exact hform
  | word rule words => exact ignores_word hmark _ _
  | number => exact ignores_number hmark
  | signedNumber => exact ignores_signedNumber hmark
  | map f h ih => exact ih hform

theorem HasForm.ignores {argument : Grammar Rule α} {form : Form} (h : HasForm argument form)
    (hform : form.Excludes mark) (hmark : Text.isSeparator mark) : argument.Ignores mark := by
  induction h with
  | parameter p h => exact ignores_parameter hmark p (h.ignores hform hmark)
  | word rule h => exact ignores_word hmark _ _
  | row rule member => exact hform
  | numbers => exact ignores_numberList hmark
  | quotation => exact hform.elim
  | map f h ih => exact ih hform

/-- Whether an argument of this form takes at least one character: the words must not be
empty. -/
def Form.Takes : Form → Prop
  | .word words => "" ∉ words
  | _ => True

theorem Choices.ne_nil {argument : Grammar Rule α} {forms : List Form}
    (h : Choices argument forms) : forms ≠ [] := by
  cases h <;> simp

theorem HasForm.productive {argument : Grammar Rule α} {form : Form} (h : HasForm argument form)
    (hform : form.Takes) : argument.Productive := by
  induction h with
  | parameter p h => exact productive_parameter p _
  | word rule h =>
      refine productive_token ?_
      have hempty := mt (h "").mp hform
      simpa using hempty
  | row rule member => exact productive_row rule member
  | numbers => exact productive_numberList
  | quotation =>
      exact ((productive_literal (by decide)).join _).map _ |>.rule _
  | map f h ih => exact (ih hform).map f

theorem Choices.productive {argument : Grammar Rule α} {forms : List Form}
    (h : Choices argument forms) (hforms : ∀ form ∈ forms, form.Takes) : argument.Productive := by
  induction h with
  | last h => exact h.productive (hforms _ List.mem_cons_self)
  | more h hrest ih =>
      exact (h.productive (hforms _ List.mem_cons_self)).choice
        (ih fun form hform => hforms form (List.mem_cons_of_mem _ hform))

/-- No argument of a verb is empty. -/
theorem takes_of_mem_forms (verb : Verb) : ∀ form ∈ verb.forms, form.Takes := by
  cases verb <;>
    simp [Verb.forms, Verb.usages, Usage.form, statusWords, Form.Takes, Parameter.argumentForm]

/-! ## Quoted text -/

theorem quoting_quotedText (hmark : Text.isSeparator mark) : quotedText.Quoting mark where
  read?_of_some text value rest hread more := by
    have hhead : text.head? = some '"' := by
      by_contra hne
      rw [read?_quotedText_of_head hne] at hread
      cases hread
    obtain ⟨body, rfl⟩ := List.head?_eq_some_iff.mp hhead
    rw [read?_quotedText] at hread
    split at hread
    · next hquote =>
        have hdrop : body.dropWhile Text.isQuotable ≠ [] := by
          intro hnil
          have hfound := (head?_dropWhile_isQuotable body).mpr hquote
          rw [hnil] at hfound
          cases hfound
        simp only [Option.some.injEq, Prod.mk.injEq] at hread
        rw [List.cons_append, read?_quotedText, if_pos (List.mem_append_left _ hquote),
          Text.takeWhile_append_of_dropWhile_ne_nil hdrop,
          Text.dropWhile_append_of_ne_nil hdrop, List.tail_append_of_ne_nil hdrop, hread.1, hread.2]
    · cases hread
  read?_of_none text hhead _ more := by
    refine read?_quotedText_of_head ?_
    cases text with
    | nil => rcases Text.isSeparator_iff.mp hmark with rfl | rfl <;> simp
    | cons c text => simpa using hhead

theorem HasForm.quoting {argument : Grammar Rule α} {form : Form} (h : HasForm argument form)
    (hform : form ≠ .quotation → form.Excludes mark) (hmark : Text.isSeparator mark) :
    argument.Quoting mark := by
  by_cases hquotation : form = .quotation
  · induction h with
    | quotation => exact quoting_quotedText hmark
    | map f h ih => exact (ih hform hquotation).map f
    | _ => cases hquotation
  · exact (h.ignores (hform hquotation) hmark).quoting (isBlank_of_isSeparator hmark)

/-- Quoted text is the last thing that is tried, so what is tried before it holds none. -/
theorem Choices.quoting {argument : Grammar Rule α} {forms : List Form}
    (h : Choices argument forms) (hforms : ∀ form ∈ forms, form ≠ .quotation → form.Excludes mark)
    (hlast : .quotation ∉ forms.dropLast) (hmark : Text.isSeparator mark) :
    argument.Quoting mark := by
  induction h with
  | last h => exact h.quoting (hforms _ List.mem_cons_self) hmark
  | more h hrest ih =>
      have hne := hrest.ne_nil
      rw [List.dropLast_cons_of_ne_nil hne, List.mem_cons, not_or] at hlast
      have hfirst := h.ignores (hforms _ List.mem_cons_self (Ne.symm hlast.1)) hmark
      refine Quoting.choice hfirst (ih ?_ hlast.2) (isBlank_of_isSeparator hmark)
      intro form hform
      exact hforms form (List.mem_cons_of_mem _ hform)

theorem quoting_argument (hmark : Text.isSeparator mark) {verb : Verb}
    {argument : Grammar Rule (Argument verb)} (h : Choices argument verb.forms) :
    argument.Quoting mark := by
  refine h.quoting ?_ ?_ hmark
  · rcases Text.isSeparator_iff.mp hmark with rfl | rfl <;> cases verb <;>
      simp [Verb.forms, Verb.usages, Usage.form, Form.Excludes, ValueForm.Excludes,
        Parameter.argumentForm, Parameter.form, Text.isNameChar, Text.isAddressChar,
        Text.addressMarks]
  · cases verb <;> simp [Verb.forms, Verb.usages, Usage.form, Parameter.argumentForm]

/-! ## Clauses -/

/-- The verbs with at most one argument of a sort hold no separator at all. -/
theorem ignores_verbArguments (hmark : Text.isSeparator mark) {verb : Verb}
    (h : verb.forms = []) : (verbArguments verb).Ignores mark := by
  have haddress : address.Ignores mark := isAddressChar_of_isSeparator hmark
  have hworld : worldName.Ignores mark := isAlphanum_of_isSeparator hmark
  cases verb with
  | sound | url => exact ⟨ignores_keyword hmark _, haddress⟩
  | examine => exact ignores_keyword hmark _
  | name => exact ⟨ignores_keyword hmark _, ignores_word hmark _ _⟩
  | teleport => exact ⟨ignores_keyword hmark _, hworld, ignores_place hmark⟩
  | _ => simp [Verb.forms, Verb.usages] at h

theorem settled_verbArguments (hmark : Text.isSeparator mark) (verb : Verb) :
    (verbArguments verb).Settled mark := by
  have hblank := isBlank_of_isSeparator hmark
  by_cases hforms : verb.forms = []
  · exact (ignores_verbArguments hmark hforms).settled hblank
  · obtain ⟨argument, harguments, hchoices⟩ := exists_choices_forms hforms
    have hprod := hchoices.productive (takes_of_mem_forms verb)
    have hmany := (quoting_argument hmark hchoices).many hprod hblank
    rw [harguments]
    exact (Settled.seq (ignores_keyword hmark _) hmany hblank).map _

theorem productive_verbArguments (verb : Verb) : (verbArguments verb).Productive := by
  have hkeyword := productive_keyword (.verb verb)
  by_cases hforms : verb.forms = []
  · cases verb with
    | sound | url | name => exact ((hkeyword.seq _).map _).map _
    | examine => exact hkeyword.map _
    | teleport => exact ((hkeyword.seq _).map _).map _
    | _ => simp [Verb.forms, Verb.usages] at hforms
  · obtain ⟨argument, harguments, -⟩ := exists_choices_forms hforms
    rw [harguments]
    exact (hkeyword.seq _).map _

theorem settled_namedClause (hmark : Text.isSeparator mark) (k : Keyword) :
    (namedClause k).Settled mark := by
  cases k with
  | verb verb => exact ((settled_verbArguments hmark verb).map _).rule _
  | warp =>
      have hwarp : (keyword .warp *> place).Ignores mark :=
        ⟨ignores_keyword hmark _, ignores_place hmark⟩
      exact ((hwarp.settled (isBlank_of_isSeparator hmark)).map _).rule _

theorem productive_namedClause (k : Keyword) : (namedClause k).Productive := by
  cases k with
  | verb verb => exact ((productive_verbArguments verb).map _).rule _
  | warp => exact ((((productive_keyword .warp).seq _).map _).map _).rule _

theorem settled_invalidClause (hmark : Text.isSeparator mark) : invalidClause.Settled mark := by
  have hphrase : invalidClause.Ignores mark := by simp [invalidClause, Ignores, tokenIgnores, hmark]
  exact hphrase.settled (isBlank_of_isSeparator hmark)

theorem productive_invalidClause : invalidClause.Productive :=
  (productive_token nonempty?_empty).map _

theorem settled_clause (hmark : Text.isSeparator mark) : clause.Settled mark := by
  unfold clause
  induction Keyword.all with
  | nil => exact settled_invalidClause hmark
  | cons k keywords ih => exact (settled_namedClause hmark k).choice ih

theorem productive_clause : clause.Productive := by
  unfold clause
  induction Keyword.all with
  | nil => exact productive_invalidClause
  | cons k keywords ih => exact (productive_namedClause k).choice ih

/-- **Statements before separators.** -/
theorem settled_statement (hmark : Text.isSeparator mark) : statement.Settled mark :=
  (settled_clause hmark).captured.map _

theorem productive_statement : statement.Productive := productive_clause.captured.map _

/-! ## Lists -/

/-- What begins with a separator does not begin with a quote. -/
theorem read?_separators_of_opensQuote {mark : String} (h : mark = "," ∨ mark = ";")
    (item : Grammar Rule α) {text : List Char} (hopen : OpensQuote text) :
    (separators mark *> item).read? (Text.skipBlanks text) = none := by
  obtain ⟨rest, hrest⟩ := List.head?_eq_some_iff.mp hopen
  rw [hrest]
  rcases h with rfl | rfl <;>
    simp [separators, oneOrMore, read?, after?]

theorem settled_separatedList {item : Grammar Rule α} (h : item.Settled ';') :
    (separatedList "," item).Settled ';' := by
  have hblank : Text.isBlank ';' = false := by decide
  have hcomma : (Grammar.literal "," : Grammar Rule Unit).Ignores ';' := by simp [Ignores]
  have hprod : (Grammar.literal "," : Grammar Rule Unit).Productive :=
    productive_literal (by decide)
  have hseparators : (separators ",").Ignores ';' := ⟨hcomma, hcomma, hprod⟩
  have hitem : (separators "," *> item).Settled ';' := (Settled.seq hseparators h hblank).map _
  have hitemProd : (separators "," *> item).Productive :=
    (((hprod.seq _).map _).seq _).map _
  have hquote := fun text => @read?_separators_of_opensQuote _ "," (.inl rfl) item text
  have hseparated : (separated "," item).Settled ';' :=
    (Settled.seq_many h (hitem.many hitemProd hquote hblank) hquote hblank).map _
  have hmarks : (Grammar.many (.literal ",") : Grammar Rule (List Unit)).Settled ';' :=
    Ignores.settled ⟨hcomma, hprod⟩ hblank
  refine (Settled.seq_many hseparated.optional hmarks ?_ hblank).map _
  intro text hopen
  obtain ⟨rest, hrest⟩ := List.head?_eq_some_iff.mp hopen
  simp [hrest, read?, after?]

/-- **Actions before semicolons.** -/
theorem settled_action : action.Settled ';' := by
  have hmark : Text.isSeparator ';' := by decide
  have hstatements := settled_separatedList (settled_statement hmark)
  exact ((Settled.seq (ignores_word hmark _ _) hstatements (by decide)).map _).rule _

theorem productive_action : action.Productive := by
  refine Productive.rule (Productive.map (Productive.seq (productive_token ?_) _) _) _
  decide


end ObjectActions.Script
