import ObjectActions.Proofs.Number.Counts
import ObjectActions.Proofs.Script.Spelling

/-!
# What the grammar makes of arguments

The grammar of a verb's arguments and the table of its usages agree: the grammar is a choice
between arguments that realize the usages, in their order (`exists_realized`).  To realize a
usage means to have its form and to read every text that spells it, up to where it ends, as
what it says.

Of the words and values that spell usages only one thing is needed beyond that: they
are made of characters that can stand in addresses, so they hold no blank and nothing that
is taken out when a script is cleaned.
-/

namespace ObjectActions.Script

open Grammar

variable {text rest : List Char}

/-! ## Characters -/

theorem isAddressChar_of_isNameChar {c : Char} (h : Text.isNameChar c = true) :
    Text.isAddressChar c = true := by
  simp [Text.isAddressChar, h]

theorem isNameChar_of_isAlphanum {c : Char} (h : c.isAlphanum = true) :
    Text.isNameChar c = true := by
  simp [Text.isNameChar, h]

theorem isNameChar_of_isAlpha {c : Char} (h : c.isAlpha = true) : Text.isNameChar c = true :=
  isNameChar_of_isAlphanum (by simp [Char.isAlphanum, h])

theorem not_isAlpha_of_not_isNameChar {c : Char} (h : Text.isNameChar c = false) :
    c.isAlpha = false := by
  cases halpha : c.isAlpha with
  | false => rfl
  | true => exact absurd (isNameChar_of_isAlpha halpha) (by simp [h])

theorem isNameChar_of_isDigit {c : Char} (h : c.isDigit = true) : Text.isNameChar c = true :=
  isNameChar_of_isAlphanum (by simp [Char.isAlphanum, h])

theorem isAddressChar_of_isBlank {c : Char} (h : Text.isBlank c = true) :
    Text.isAddressChar c = false := by
  simp only [Text.isBlank, Bool.or_eq_true, beq_iff_eq] at h
  rcases h with ((rfl | rfl) | rfl) | rfl <;> decide

theorem isBlank_of_isAddressChar {c : Char} (h : Text.isAddressChar c = true) :
    Text.isBlank c = false := by
  cases hblank : Text.isBlank c with
  | false => rfl
  | true => exact absurd h (by simp [isAddressChar_of_isBlank hblank])

theorem isNoise_of_isAddressChar {c : Char} (h : Text.isAddressChar c = true) :
    Text.isNoise c = false := by
  cases hnoise : Text.isNoise c with
  | false => rfl
  | true =>
      simp only [Text.isNoise, Bool.or_eq_true, beq_iff_eq] at hnoise
      rcases hnoise with rfl | rfl <;> exact absurd h (by decide)

theorem isAddressChar_of_beginsNumber {c : Char} (h : beginsNumber c = true) :
    Text.isAddressChar c = true := by
  simp only [beginsNumber, Bool.or_eq_true, beq_iff_eq] at h
  rcases h with ((h | rfl) | rfl) | rfl
  · exact isAddressChar_of_isNameChar (isNameChar_of_isDigit h)
  all_goals decide

/-- What is a word in lower case when folded is made of letters. -/
theorem isAlpha_of_lower_eq {word : List Char} (h : Text.lower text = word)
    (hword : ∀ c ∈ word, c.isAlpha = true) : ∀ c ∈ text, c.isAlpha = true := by
  intro c hc
  rw [← Text.isAlpha_toLower]
  exact hword _ (h ▸ List.mem_map_of_mem hc)

/-- A row of characters of a class that holds no blank ends before a blank. -/
theorem Stops.not_member {member : Char → Bool} (h : Stops rest)
    (hmember : ∀ c, member c = true → Text.isAddressChar c = true) :
    ∀ c ∈ rest.head?, member c = false := by
  intro c hc
  have haddress := isAddressChar_of_isBlank (h c hc)
  cases hc' : member c with
  | false => rfl
  | true => exact absurd (hmember c hc') (by simp [haddress])

/-! ## Values -/

/-- Texts of at least one character, all of which can stand in addresses. -/
abbrev IsSolid (text : List Char) : Prop := IsRow Text.isAddressChar text

theorem IsRow.mono {member other : Char → Bool} (h : IsRow member text)
    (hother : ∀ c, member c = true → other c = true) : IsRow other text :=
  ⟨h.1, fun c hc => hother c (h.2 c hc)⟩

theorem IsSolid.skipBlanks_append (h : IsSolid text) (rest : List Char) :
    Text.skipBlanks (text ++ rest) = text ++ rest := by
  obtain ⟨c, further, rfl⟩ := List.exists_cons_of_ne_nil h.1
  exact Text.skipBlanks_cons_of_not (isBlank_of_isAddressChar (h.2 c List.mem_cons_self)) _

theorem IsSolid.skipBlanks (h : IsSolid text) : Text.skipBlanks text = text := by
  have hskip := h.skipBlanks_append []
  rwa [List.append_nil] at hskip

theorem IsSolid.skipBlanks_after (h : IsSolid rest) (text : List Char) :
    Text.skipBlanks (text ++ rest) = Text.skipBlanks text ++ rest := by
  obtain ⟨c, further, rfl⟩ := List.exists_cons_of_ne_nil h.1
  exact Text.skipBlanks_append_cons (isBlank_of_isAddressChar (h.2 c List.mem_cons_self)) _ _

theorem IsSolid.append (h : IsSolid text) (hrest : IsSolid rest) : IsSolid (text ++ rest) := by
  refine ⟨by simp [h.1], fun c hc => ?_⟩
  exact (List.mem_append.mp hc).elim (h.2 c) (hrest.2 c)

theorem IsNumber.isSolid {x : Binary64} (h : IsNumber text x) : IsSolid text := by
  have hdigit (c : Char) (hc : c.isDigit = true) : Text.isAddressChar c = true :=
    isAddressChar_of_isNameChar (isNameChar_of_isDigit hc)
  cases h with
  | whole h => exact h.mono hdigit
  | fraction hintegral hfractional =>
      refine ⟨by simp, fun c hc => ?_⟩
      rcases List.mem_append.mp hc with hc | hc
      · exact hdigit c (hintegral c hc)
      · rcases List.mem_cons.mp hc with rfl | hc
        · decide
        · exact hdigit c (hfractional.2 c hc)

theorem IsSignedNumber.isSolid {x : Binary64} (h : IsSignedNumber text x) : IsSolid text := by
  cases h with
  | unsigned h => exact h.isSolid
  | plus h | minus h =>
      refine ⟨by simp, fun c hc => ?_⟩
      rcases List.mem_cons.mp hc with rfl | hc
      · decide
      · exact h.isSolid.2 c hc

theorem isSolid_of_spellsOneOf {words : List String} {value : Option String}
    (hwords : ∀ word ∈ words, IsRow Char.isAlpha word.toList)
    (h : SpellsOneOf words text value) : IsSolid text := by
  obtain ⟨⟨word, hmem, hlower⟩, -⟩ := h
  have hletters := isAlpha_of_lower_eq hlower (hwords word hmem).2
  refine ⟨?_, fun c hc => isAddressChar_of_isNameChar (isNameChar_of_isAlpha (hletters c hc))⟩
  rintro rfl
  exact (hwords word hmem).1 hlower.symm

/-- The value of a parameter holds no blanks. -/
theorem isSolid_of_spells {p : Parameter} {value : Option p.attribute.Value}
    (h : p.Spells text value) : IsSolid text := by
  have hname {value : Option String} (h : SpellsName text value) : IsSolid text :=
    h.1.mono fun _ => isAddressChar_of_isNameChar
  have hcount {value : Option UInt32} (h : SpellsCount text value) : IsSolid text :=
    h.1.mono fun _ hc => isAddressChar_of_isNameChar (isNameChar_of_isDigit hc)
  have hcolor {value : Option Color} (h : SpellsColor text value) : IsSolid text :=
    h.1.mono fun _ hc => isAddressChar_of_isNameChar (isNameChar_of_isAlphanum hc)
  have hnumber {value : Option Binary64} (h : SpellsNumber text value) : IsSolid text :=
    h.choose_spec.1.isSolid
  have hsigned {value : Option Binary64} (h : SpellsSignedNumber text value) : IsSolid text :=
    h.choose_spec.1.isSolid
  cases p with
  | name | mask | tag => exact hname h
  | size | update => exact hcount h
  | color | bcolor => exact hcolor h
  | time | wait | brightness | radius => exact hnumber h
  | angle | pitch => exact hsigned h
  | type | fx => exact isSolid_of_spellsOneOf (by decide) h

/-- A grammar whose values, put to use by a function, are the values of a parameter. -/
structure ReadsValue {β : Type} (p : Parameter) (value : Grammar Rule β)
    (use : β → Option p.attribute.Value) : Prop where
  form : HasValueForm value p.form
  read? : ∀ ⦃text v rest⦄, p.Spells text v → Stops rest →
    ∃ b, value.read? (text ++ rest) = some (b, rest) ∧ use b = v

section ReadsValue

variable {β γ : Type} {p : Parameter}

theorem ReadsValue.map {value : Grammar Rule β} {f : β → γ} {use : γ → Option p.attribute.Value}
    (h : ReadsValue p value (use ∘ f)) : ReadsValue p (.map f value) use where
  form := h.form.map f
  read? text v rest hspells hrest := by
    obtain ⟨b, hread, huse⟩ := h.read? hspells hrest
    exact ⟨f b, by rw [read?_map, hread]; rfl, huse⟩

theorem readsValue_row {member : Char → Bool} {use : String → Option p.attribute.Value}
    (rule : Rule) (hform : p.form = .row member)
    (hmember : ∀ c, member c = true → Text.isAddressChar c = true)
    (hspells : ∀ text v, p.Spells text v → IsRow member text ∧ v = use (String.ofList text)) :
    ReadsValue p (.token rule (.run member) nonempty?) use where
  form := hform ▸ .row rule member
  read? text v rest h hrest := by
    obtain ⟨hrow, rfl⟩ := hspells text v h
    exact ⟨_, read?_row_append rule hrow (hrest.not_member hmember), rfl⟩

theorem readsValue_oneOfWords {words : List String} {use : String → Option p.attribute.Value}
    (rule : Rule) (hform : p.form = .word words)
    (hwords : ∀ word ∈ words, IsRow Char.isAlpha word.toList)
    (hspells : ∀ text v, p.Spells text v →
      (∃ word ∈ words, Text.lower text = word.toList) ∧ v = use (String.ofList text)) :
    ReadsValue p (oneOfWords rule words) use where
  form := hform ▸ .word rule words
  read? text v rest h hrest := by
    obtain ⟨⟨word, hmem, hlower⟩, rfl⟩ := hspells text v h
    have hletters := isAlpha_of_lower_eq hlower (hwords word hmem).2
    have hname : ∀ c ∈ text, Text.isNameChar c = true :=
      fun c hc => isNameChar_of_isAlpha (hletters c hc)
    have hstop := hrest.not_member fun _ => isAddressChar_of_isNameChar
    have hany : words.any (Text.alike (String.ofList text)) = true := by
      refine List.any_eq_true.mpr ⟨word, hmem, ?_⟩
      rw [Text.alike, String.toList_ofList, ← hlower, Text.lower_lower]
      exact beq_self_eq_true _
    refine ⟨String.ofList text, ?_, rfl⟩
    rw [oneOfWords, read?_word, Text.takeWhile_append_of_stop hname hstop,
      Text.dropWhile_append_of_stop hname hstop, hany]
    rfl

theorem readsValue_number (hform : p.form = .number) {use : Binary64 → Option p.attribute.Value}
    (hspells : ∀ text v, p.Spells text v → ∃ x, IsNumber text x ∧ v = use x) :
    ReadsValue p number use where
  form := hform ▸ .number
  read? text v rest h hrest := by
    obtain ⟨x, hnumber, rfl⟩ := hspells text v h
    exact ⟨x, hnumber.read? (hrest.numberEnds text), rfl⟩

theorem readsValue_signedNumber (hform : p.form = .signedNumber)
    {use : Binary64 → Option p.attribute.Value}
    (hspells : ∀ text v, p.Spells text v → ∃ x, IsSignedNumber text x ∧ v = use x) :
    ReadsValue p signedNumber use where
  form := hform ▸ .signedNumber
  read? text v rest h hrest := by
    obtain ⟨x, hnumber, rfl⟩ := hspells text v h
    exact ⟨x, hnumber.read? (hrest.numberEnds text), rfl⟩

end ReadsValue

/-! ## Usages -/

variable {verb : Verb}

/-- Whether a text can follow what spells a usage and is no part of it. -/
def Usage.Ends (usage : Usage verb) (rest : List Char) : Prop :=
  Stops rest ∧
    match usage with
    | .numbers _ _ _ => ∀ c ∈ (Text.skipBlanks rest).head?, beginsNumber c = false
    | _ => True

/-- A grammar that reads what spells a usage, blanks behind it aside. -/
structure Realizes (argument : Grammar Rule (Argument verb)) (usage : Usage verb) : Prop where
  form : HasForm argument usage.form
  read? : ∀ ⦃text said rest⦄, usage.Spells text said → usage.Ends rest →
    ∃ last, argument.read? (text ++ rest) = some (said, last) ∧
      Text.skipBlanks last = Text.skipBlanks rest

/-- A choice between arguments that realize usages, in their order. -/
inductive Realized : Grammar Rule (Argument verb) → List (Usage verb) → Prop where
  | last {argument : Grammar Rule (Argument verb)} {usage : Usage verb}
      (h : Realizes argument usage) : Realized argument [usage]
  | more {first rest : Grammar Rule (Argument verb)} {usage : Usage verb}
      {usages : List (Usage verb)} (h : Realizes first usage) (hrest : Realized rest usages) :
      Realized (first <|> rest) (usage :: usages)

theorem after?_of_lower_eq {characters first : List Char}
    (h : Text.lower first = Text.lower characters) (more : List Char) :
    after? characters (first ++ more) = some more := by
  induction characters generalizing first with
  | nil =>
      have hnil : first = [] := by simpa [Text.lower] using h
      simp [hnil, after?]
  | cons c characters ih =>
      cases first with
      | nil => simp [Text.lower] at h
      | cons d first =>
          simp only [Text.lower, List.map_cons, List.cons.injEq] at h
          rw [List.cons_append, after?, if_pos h.1.symm]
          exact ih h.2

theorem lower_key (p : Parameter) : Text.lower p.key.toList = p.key.toList := by
  cases p <;> decide

/-- A parameter is read up to its value, with any blanks around the equals sign. -/
theorem afterKey?_append {p : Parameter} {key before after text : List Char}
    (hkey : Text.lower key = p.key.toList) (hbefore : before.all Text.isBlank)
    (hafter : after.all Text.isBlank) (htext : IsSolid text) (rest : List Char) :
    afterKey? p.key (key ++ (before ++ '=' :: (after ++ text)) ++ rest) = some (text ++ rest) := by
  have hbefore' := Text.skipBlanks_eq_nil_iff.mpr hbefore
  have hafter' := Text.skipBlanks_eq_nil_iff.mpr hafter
  have hequals : Text.isBlank '=' = false := by decide
  rw [List.append_assoc, afterKey?, after?_of_lower_eq (hkey.trans (lower_key p).symm),
    Option.bind_some, List.append_assoc, List.cons_append,
    Text.skipBlanks_append_of_eq_nil hbefore', Text.skipBlanks_cons_of_not hequals,
    List.head?_cons, if_pos rfl, List.tail_cons, List.append_assoc,
    Text.skipBlanks_append_of_eq_nil hafter', htext.skipBlanks_append]

theorem realizes_parameter {β : Type} {p : Parameter} {mem : p.attribute ∈ verb.attributes}
    {value : Grammar Rule β} {use : β → Option p.attribute.Value} (h : ReadsValue p value use) :
    Realizes (.map (fun b => (use b).map fun v => ⟨p.attribute, v, mem⟩) (parameter p value))
      (.parameter p mem) where
  form := .map _ (.parameter p h.form)
  read? text said rest hspells hrest := by
    cases hspells with
    | @parameter _ _ key before after text v hkey hbefore hafter hvalue =>
        obtain ⟨b, hread, rfl⟩ := h.read? hvalue hrest.1
        have hkeyed := afterKey?_append hkey hbefore hafter (isSolid_of_spells hvalue) rest
        refine ⟨rest, ?_, rfl⟩
        rw [read?_map, read?_parameter, hkeyed, Option.bind_some, hread]
        rfl

theorem realizes_word {β : Type} (a : Attribute) {mem : a ∈ verb.attributes}
    {table : List (String × Option a.Value)} {value? : String → Option β}
    (use : β → Option a.Value) (rule : Rule)
    (hwords : ∀ w, (value? w).isSome ↔ w ∈ table.map Prod.fst)
    (huse : ∀ entry ∈ table, (value? entry.1).map use = some entry.2)
    (hletters : ∀ entry ∈ table, IsRow Char.isAlpha entry.1.toList) :
    Realizes (.map (fun b => (use b).map fun v => ⟨a, v, mem⟩) (word rule value?))
      (.word a table mem) where
  form := .map _ (.word rule hwords)
  read? text said rest hspells hrest := by
    cases hspells with
    | @word _ _ _ w v hmem =>
        have hname : ∀ c ∈ w.toList, Text.isNameChar c = true :=
          fun c hc => isNameChar_of_isAlpha ((hletters _ hmem).2 c hc)
        have hstop := hrest.1.not_member fun _ => isAddressChar_of_isNameChar
        obtain ⟨b, hvalue, hb⟩ := Option.map_eq_some_iff.mp (huse _ hmem)
        refine ⟨rest, ?_, rfl⟩
        rw [read?_map, read?_word, Text.takeWhile_append_of_stop hname hstop,
          Text.dropWhile_append_of_stop hname hstop, String.ofList_toList, hvalue]
        simp [hb]

theorem realizes_row (a : Attribute) {mem : a ∈ verb.attributes} {member : Char → Bool}
    (value? : String → Option a.Value) (rule : Rule)
    (hmember : ∀ c, member c = true → Text.isAddressChar c = true) :
    Realizes (.map (fun w => (value? w).map fun v => ⟨a, v, mem⟩)
      (.token rule (.run member) nonempty?)) (.row a member value? mem) where
  form := .map _ (.row rule member)
  read? text said rest hspells hrest := by
    cases hspells with
    | row h =>
        refine ⟨rest, ?_, rfl⟩
        rw [read?_map, read?_row_append rule h (hrest.1.not_member hmember)]
        rfl

theorem realizes_numbers {a : Attribute} {mem : a ∈ verb.attributes}
    {value : List Binary64 → a.Value} :
    Realizes (.map (fun xs => some ⟨a, value xs, mem⟩) numberList) (.numbers a value mem) where
  form := .map _ .numbers
  read? text said rest hspells hrest := by
    cases hspells with
    | numbers h =>
        obtain ⟨last, hread, hlast⟩ := h.read? hrest.1 hrest.2
        refine ⟨last, ?_, hlast⟩
        rw [read?_map, hread]
        rfl

theorem realizes_quotation {a : Attribute} {mem : a ∈ verb.attributes}
    {value : String → a.Value} :
    Realizes (.map (fun w => some ⟨a, value w, mem⟩) quotedText) (.quotation a value mem) where
  form := .map _ .quotation
  read? text said rest hspells hrest := by
    cases hspells with
    | @quotation _ _ _ text hquote hnoise =>
        have hquotable : ∀ c ∈ text, Text.isQuotable c = true := by
          intro c hc
          simp only [Text.isQuotable, bne_iff_ne]
          rintro rfl
          exact hquote hc
        have hstop : ∀ c ∈ ('"' :: rest).head?, Text.isQuotable c = false := by
          simp [Text.isQuotable]
        refine ⟨rest, ?_, rfl⟩
        rw [List.cons_append, List.append_assoc, List.singleton_append, read?_map,
          read?_quotedText, if_pos (by simp), Text.takeWhile_append_of_stop hquotable hstop,
          Text.dropWhile_append_of_stop hquotable hstop]
        rfl

/-- Two maps in a row realize what their composition realizes. -/
theorem Realizes.map_map {β γ : Type} {usage : Usage verb} {body : Grammar Rule β} {f : β → γ}
    {g : γ → Argument verb} (hform : HasForm body usage.form)
    (h : Realizes (.map (fun b => g (f b)) body) usage) :
    Realizes (.map g (.map f body)) usage where
  form := .map _ (.map _ hform)
  read? text said rest hspells hrest := by
    obtain ⟨last, hread, hlast⟩ := h.read? hspells hrest
    refine ⟨last, ?_, hlast⟩
    rw [read?_map] at hread
    rw [read?_map, read?_map, Option.map_map]
    exact hread

/-! ## The grammar and the table -/

theorem readsValue_objectName : ReadsValue .name objectName some :=
  readsValue_row .objectName rfl (fun _ => isAddressChar_of_isNameChar) fun _ _ h => h

theorem realizes_target (mem : .targetName ∈ verb.attributes) :
    Realizes (target mem) (.parameter .name mem) :=
  realizes_parameter readsValue_objectName

theorem readsValue_mask : ReadsValue .mask basicResource some :=
  readsValue_row .basicResource rfl (fun _ => isAddressChar_of_isNameChar) fun _ _ h => h

theorem readsValue_tag : ReadsValue .tag basicResource some :=
  readsValue_row .basicResource rfl (fun _ => isAddressChar_of_isNameChar) fun _ _ h => h

theorem isAddressChar_of_isDigit {c : Char} (h : c.isDigit = true) :
    Text.isAddressChar c = true :=
  isAddressChar_of_isNameChar (isNameChar_of_isDigit h)

theorem isAddressChar_of_isAlphanum {c : Char} (h : c.isAlphanum = true) :
    Text.isAddressChar c = true :=
  isAddressChar_of_isNameChar (isNameChar_of_isAlphanum h)

theorem some_saturate_ofList (h : IsRow Char.isDigit text) :
    some (Digits.saturate (Digits.value text)) =
      some ((Digits.word? (String.ofList text).toList).getD Digits.largest) := by
  rw [String.toList_ofList, Digits.getD_word? h.2]

theorem readsValue_size : ReadsValue .size integer some :=
  .map <| readsValue_row .integer rfl (fun _ => isAddressChar_of_isDigit) fun _ _ h =>
    ⟨h.1, h.2.trans (some_saturate_ofList h.1)⟩

theorem readsValue_update : ReadsValue .update integer some :=
  .map <| readsValue_row .integer rfl (fun _ => isAddressChar_of_isDigit) fun _ _ h =>
    ⟨h.1, h.2.trans (some_saturate_ofList h.1)⟩

theorem readsValue_color : ReadsValue .color colorName id :=
  .map <| readsValue_row .colorName rfl (fun _ => isAddressChar_of_isAlphanum) fun _ _ h => h

theorem readsValue_bcolor : ReadsValue .bcolor colorName id :=
  .map <| readsValue_row .colorName rfl (fun _ => isAddressChar_of_isAlphanum) fun _ _ h => h

theorem readsValue_time : ReadsValue .time number some := readsValue_number rfl fun _ _ h => h

theorem readsValue_wait : ReadsValue .wait number some := readsValue_number rfl fun _ _ h => h

theorem readsValue_brightness : ReadsValue .brightness number some :=
  readsValue_number rfl fun _ _ h => h

theorem readsValue_radius : ReadsValue .radius number some :=
  readsValue_number rfl fun _ _ h => h

theorem readsValue_angle : ReadsValue .angle signedNumber some :=
  readsValue_signedNumber rfl fun _ _ h => h

theorem readsValue_pitch : ReadsValue .pitch signedNumber some :=
  readsValue_signedNumber rfl fun _ _ h => h

theorem readsValue_type : ReadsValue .type lightType some :=
  readsValue_oneOfWords .lightType rfl (by decide) fun _ _ h => h

theorem readsValue_fx : ReadsValue .fx lightFx some :=
  readsValue_oneOfWords .lightFx rfl (by decide) fun _ _ h => h

theorem realizes_flag (a : Attribute) {mem : a ∈ verb.attributes} (use : Bool → Option a.Value)
    (rule : Rule) (affirmative : String)
    (hletters : IsRow Char.isAlpha affirmative.toList) :
    Realizes (.map (fun b => (use b).map fun v => ⟨a, v, mem⟩) (flag rule affirmative))
      (.word a [(affirmative, use true)] mem) :=
  realizes_word a use rule (isSome_flag_iff affirmative) (by simp) (by simpa using hletters)

theorem realizes_status (a : Attribute) {mem : a ∈ verb.attributes}
    (use : Bool → Option a.Value) (rule : Rule) (affirmative : String)
    (hne : "no" ++ affirmative ≠ affirmative)
    (hletters : ∀ word ∈ [affirmative, "no" ++ affirmative], IsRow Char.isAlpha word.toList) :
    Realizes (.map (fun b => (use b).map fun v => ⟨a, v, mem⟩) (status rule affirmative))
      (.word a [(affirmative, use true), ("no" ++ affirmative, use false)] mem) := by
  refine realizes_word a use rule (isSome_status_iff affirmative ("no" ++ affirmative)) ?_ ?_
  · simp only [List.mem_cons, List.not_mem_nil, or_false]
    rintro entry (rfl | rfl)
    · simp
    · simp only [if_neg hne, if_true, Option.map_some]
  · intro entry hentry
    exact hletters entry.1 (List.mem_map_of_mem hentry)

theorem realizes_boolean {mem : .value ∈ verb.attributes} :
    Realizes (sets .value boolean mem)
      (.word .value [("on", some true), ("true", some true), ("yes", some true),
        ("off", some false), ("false", some false), ("no", some false)] mem) :=
  realizes_word .value some .boolean (isSome_lookup_iff truthWords) (by decide) (by decide)

theorem realizes_overlap {mem : .resource ∈ verb.attributes} :
    Realizes (ignored (flag .overlapFlag "overlap")) (.word .resource [("overlap", none)] mem) :=
  realizes_flag .resource (fun _ => none) _ "overlap" (by decide)

/-- **Arguments.**  A verb that has usages is a keyword followed by any number of arguments
that realize these usages, tried in their order. -/
theorem exists_realized {verb : Verb} (h : verb.usages ≠ []) :
    ∃ argument : Grammar Rule (Argument verb),
      verbArguments verb = manyArguments (.verb verb) argument ∧
        Realized argument verb.usages := by
  have hname : ∀ c, Text.isNameChar c = true → Text.isAddressChar c = true :=
    fun _ => isAddressChar_of_isNameChar
  cases verb with
  | sound | examine | name | teleport | url => exact absurd rfl h
  | texture =>
      exact ⟨_, rfl, .more (realizes_target _) <| .more (realizes_parameter readsValue_mask)
        <| .more (realizes_parameter readsValue_tag) <| .last (realizes_row .texture some _ hname)⟩
  | corona =>
      exact ⟨_, rfl, .more (realizes_target _) <| .more (realizes_parameter readsValue_mask)
        <| .more (realizes_parameter readsValue_size)
        <| .last (realizes_row .resource some _ hname)⟩
  | color =>
      exact ⟨_, rfl, .more (realizes_target _) <| .more (realizes_flag .tint some _ "tint" (by decide))
        <| .last (.map_map (.row _ _)
          (realizes_row .color Color.resolve? _ fun _ => isAddressChar_of_isAlphanum))⟩
  | solid | visible =>
      exact ⟨_, rfl, .more (realizes_target _) <| .more realizes_boolean
        <| .last (realizes_row .targetName some _ hname)⟩
  | move =>
      exact ⟨_, rfl, .more (realizes_target _) <| .more (realizes_parameter readsValue_time)
        <| .more (realizes_parameter readsValue_wait)
        <| .more (realizes_status .loop some _ "loop" (by decide) (by decide))
        <| .more (realizes_status .reset some _ "reset" (by decide) (by decide))
        <| .more (realizes_status .sync some _ "sync" (by decide) (by decide))
        <| .more (realizes_flag .smooth some _ "smooth" (by decide))
        <| .more (realizes_flag .global some _ "global" (by decide))
        <| .last (.map_map .numbers realizes_numbers)⟩
  | rotate =>
      exact ⟨_, rfl, .more (realizes_target _) <| .more (realizes_parameter readsValue_time)
        <| .more (realizes_parameter readsValue_wait)
        <| .more (realizes_status .loop some _ "loop" (by decide) (by decide))
        <| .more (realizes_status .reset some _ "reset" (by decide) (by decide))
        <| .more (realizes_status .sync some _ "sync" (by decide) (by decide))
        <| .last (.map_map .numbers realizes_numbers)⟩
  | scale =>
      exact ⟨_, rfl, .more (realizes_target _) <| .last (.map_map .numbers realizes_numbers)⟩
  | light =>
      exact ⟨_, rfl, .more (realizes_target _) <| .more (realizes_parameter readsValue_color)
        <| .more (realizes_parameter readsValue_brightness)
        <| .more (realizes_parameter readsValue_radius)
        <| .more (realizes_parameter readsValue_type) <| .more (realizes_parameter readsValue_fx)
        <| .more (realizes_parameter readsValue_time)
        <| .more (realizes_parameter readsValue_angle)
        <| .last (realizes_parameter readsValue_pitch)⟩
  | noise =>
      exact ⟨_, rfl, .more realizes_overlap
        <| .last (realizes_row .resource some _ fun _ h => h)⟩
  | picture =>
      exact ⟨_, rfl, .more (realizes_target _) <| .more (realizes_parameter readsValue_update)
        <| .last (realizes_row .resource some _ fun _ h => h)⟩
  | media =>
      exact ⟨_, rfl, .more (realizes_target _) <| .more (realizes_parameter readsValue_radius)
        <| .last (realizes_row .resource some _ fun _ h => h)⟩
  | sign =>
      exact ⟨_, rfl, .more (realizes_target _) <| .more (realizes_parameter readsValue_color)
        <| .more (realizes_parameter readsValue_bcolor) <| .last realizes_quotation⟩

theorem Realized.choices {argument : Grammar Rule (Argument verb)} {usages : List (Usage verb)}
    (h : Realized argument usages) : Choices argument (usages.map Usage.form) := by
  induction h with
  | last h => exact .last h.form
  | more h hrest ih => exact .more h.form ih

/-- The forms of the arguments of a verb are those of its usages. -/
theorem exists_choices_forms {verb : Verb} (h : verb.forms ≠ []) :
    ∃ argument : Grammar Rule (Argument verb),
      verbArguments verb = manyArguments (.verb verb) argument ∧ Choices argument verb.forms := by
  have husages : verb.usages ≠ [] := by
    intro hnil
    exact h (by rw [Verb.forms, hnil, List.map_nil])
  obtain ⟨argument, harguments, hrealized⟩ := exists_realized husages
  exact ⟨argument, harguments, hrealized.choices⟩

end ObjectActions.Script
