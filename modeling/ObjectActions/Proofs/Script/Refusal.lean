import ObjectActions.Proofs.Script.Vocabulary

/-!
# Arguments that keep out of each other's way

The arguments of a verb are tried in a fixed order, so what spells one usage must be refused
by all usages that are tried before.  Three things make sure of that:

* the table of usages is in order (`Usage.Precedes`): parameters come first and have
  different keys, words come next and are different, and whatever can be anything is last;
* a row of characters that can be anything is `Plain`: it is no word of the verb and no
  parameter is read at its front;
* what follows is set off by a blank and does not look like a continuation
  (`Usage.Admits`).

The main result is `read?_spelled`: behind a verb, what spells a usage is read as what it says.
-/

namespace ObjectActions.Script

open Grammar

variable {verb : Verb} {text rest : List Char}

/-! ## What is refused -/

/-- Whether a value of this form cannot be read at the front of a text. -/
def ValueForm.Refuses : ValueForm → List Char → Prop
  | row member, text => text.takeWhile member = []
  | word words, text =>
      ∀ word ∈ words, Text.lower (text.takeWhile Text.isNameChar) ≠ Text.lower word.toList
  | number, text => Script.number.read? text = none
  | signedNumber, text => Script.signedNumber.read? text = none

theorem HasValueForm.read?_of_refuses {α : Type} {value : Grammar Rule α} {form : ValueForm}
    (h : HasValueForm value form) (hrefuses : form.Refuses text) : value.read? text = none := by
  induction h with
  | row rule member =>
      have hnil : text.takeWhile member = [] := hrefuses
      rw [read?_row, if_pos hnil]
  | word rule words =>
      have hany : words.any (Text.alike (String.ofList (text.takeWhile Text.isNameChar))) =
          false := by
        rw [List.any_eq_false]
        intro word hword
        simpa [Text.alike] using hrefuses word hword
      rw [oneOfWords, read?_word, hany]
      rfl
  | number => exact hrefuses
  | signedNumber => exact hrefuses
  | map f h ih => rw [read?_map, ih hrefuses, Option.map_none]

/-- Whether a parameter or a word of this form cannot be read at the front of a text. -/
def Form.Refuses : Form → List Char → Prop
  | parameter p value, text => ∀ rest, afterKey? p.key text = some rest → value.Refuses rest
  | word words, text => String.ofList (text.takeWhile Text.isNameChar) ∉ words
  | _, _ => False

theorem HasForm.read?_of_refuses {α : Type} {argument : Grammar Rule α} {form : Form}
    (h : HasForm argument form) (hrefuses : form.Refuses text) : argument.read? text = none := by
  induction h with
  | parameter p h =>
      rw [read?_parameter]
      cases hkey : afterKey? p.key text with
      | none => rfl
      | some rest => exact h.read?_of_refuses (hrefuses rest hkey)
  | word rule h =>
      have hnone := mt (h _).mp hrefuses
      rw [Bool.not_eq_true, Option.isSome_eq_false_iff, Option.isNone_iff_eq_none] at hnone
      rw [read?_word, hnone, Option.map_none]
  | row | numbers | quotation => exact hrefuses.elim
  | map f h ih => rw [read?_map, ih hrefuses, Option.map_none]

/-- The first usage that does not refuse a text is the one that is read. -/
theorem Realized.read? {argument : Grammar Rule (Argument verb)} {earlier later : List (Usage verb)}
    {usage : Usage verb} (h : Realized argument (earlier ++ usage :: later))
    {said : Argument verb} (hearlier : ∀ other ∈ earlier, other.form.Refuses (text ++ rest))
    (hspells : usage.Spells text said) (hends : usage.Ends rest) :
    ∃ last, argument.read? (text ++ rest) = some (said, last) ∧
      Text.skipBlanks last = Text.skipBlanks rest := by
  induction earlier generalizing argument with
  | nil =>
      cases h with
      | last h => exact h.read? hspells hends
      | more h hrest =>
          obtain ⟨last, hread, hlast⟩ := h.read? hspells hends
          refine ⟨last, ?_, hlast⟩
          rw [orElse_eq_choice, Grammar.read?, hread]
  | cons other earlier ih =>
      rw [List.cons_append] at h
      generalize htail : earlier ++ usage :: later = tail at h
      cases h with
      | last h => simp at htail
      | more h hrest =>
          subst htail
          obtain ⟨last, hread, hlast⟩ := ih hrest fun o ho => hearlier o (List.mem_cons_of_mem _ ho)
          refine ⟨last, ?_, hlast⟩
          rw [orElse_eq_choice, Grammar.read?,
            h.form.read?_of_refuses (hearlier other List.mem_cons_self)]
          exact hread

/-! ## Keys -/

theorem after?_eq_some_iff {characters rest : List Char} :
    after? characters text = some rest ↔
      ∃ front, text = front ++ rest ∧ Text.lower front = Text.lower characters := by
  constructor
  · intro h
    induction characters generalizing text with
    | nil => exact ⟨[], by simpa [after?] using h, rfl⟩
    | cons c characters ih =>
        cases text with
        | nil => simp [after?] at h
        | cons d text =>
            rw [after?] at h
            split at h
            · next heq =>
                obtain ⟨front, rfl, hfront⟩ := ih h
                refine ⟨d :: front, rfl, ?_⟩
                simp only [Text.lower, List.map_cons, heq]
                exact congrArg _ hfront
            · cases h
  · rintro ⟨front, rfl, hfront⟩
    exact after?_of_lower_eq hfront rest

/-- Whatever stands before the equals sign of a parameter is its key and blanks. -/
theorem exists_of_afterKey? {p : Parameter} (h : afterKey? p.key text = some rest) :
    ∃ key behind tail, text = key ++ behind ∧ Text.lower key = p.key.toList ∧
      Text.skipBlanks behind = '=' :: tail ∧ rest = Text.skipBlanks tail := by
  unfold afterKey? at h
  obtain ⟨behind, hafter, hequals⟩ := Option.bind_eq_some_iff.mp h
  obtain ⟨key, htext, hkey⟩ := after?_eq_some_iff.mp hafter
  split at hequals
  · next hhead =>
      obtain ⟨tail, htail⟩ := List.head?_eq_some_iff.mp hhead
      rw [htail, List.tail_cons, Option.some.injEq] at hequals
      exact ⟨key, behind, tail, htext, hkey.trans (lower_key p), htail, hequals.symm⟩
  · cases hequals

/-- The letters at the front of a text are the key of a parameter that is read there. -/
theorem takeWhile_isAlpha_of_afterKey? {p : Parameter} (h : afterKey? p.key text = some rest) :
    Text.lower (text.takeWhile Char.isAlpha) = p.key.toList ∧
      ∃ tail, Text.skipBlanks (text.dropWhile Char.isAlpha) = '=' :: tail ∧
        rest = Text.skipBlanks tail := by
  obtain ⟨key, behind, tail, rfl, hkey, hbehind, hrest⟩ := exists_of_afterKey? h
  have hletters : ∀ c ∈ key, c.isAlpha = true := isAlpha_of_lower_eq hkey (isAlpha_of_mem_key p)
  have hstop : ∀ c ∈ behind.head?, c.isAlpha = false := by
    intro c hc
    cases behind with
    | nil => cases hc
    | cons d behind =>
        rw [List.head?_cons, Option.mem_some] at hc
        subst hc
        by_cases hblank : Text.isBlank d = true
        · have haddress := isAddressChar_of_isBlank hblank
          cases halpha : d.isAlpha with
          | false => rfl
          | true =>
              have hname := isAddressChar_of_isNameChar (isNameChar_of_isAlpha halpha)
              exact absurd hname (by simp [haddress])
        · rw [Text.skipBlanks_cons_of_not (by simpa using hblank)] at hbehind
          rw [(List.cons.inj hbehind).1]
          decide
  rw [Text.takeWhile_append_of_stop hletters hstop, Text.dropWhile_append_of_stop hletters hstop]
  exact ⟨hkey, tail, hbehind, hrest⟩

theorem refuses_parameter_of_head {p : Parameter} {value : ValueForm}
    (h : ∀ c ∈ text.head?, c.isAlpha = false) : (Form.parameter p value).Refuses text := by
  intro rest hkey
  have hletters := (takeWhile_isAlpha_of_afterKey? hkey).1
  have hnil : text.takeWhile Char.isAlpha = [] := by
    cases text with
    | nil => rfl
    | cons c text => simp [h c rfl]
  rw [hnil] at hletters
  exact absurd hletters (by cases p <;> decide)

/-! ## What may follow -/

/-- Whether what follows a usage, blanks aside, may begin with a character. -/
def Usage.Admits : Usage verb → Char → Prop
  | .word _ _ _, c => c ≠ '='
  | .row _ member _ _, c => c ≠ '=' ∧ (member '=' = true → c.isAlpha = true)
  | .numbers _ _ _, c => beginsNumber c = false
  | _, _ => True

/-- Whether a text may follow a usage. -/
def Usage.Follows (usage : Usage verb) (rest : List Char) : Prop :=
  Stops rest ∧ ∀ c ∈ (Text.skipBlanks rest).head?, usage.Admits c

theorem Usage.Follows.ends {usage : Usage verb} (h : usage.Follows rest) : usage.Ends rest := by
  refine ⟨h.1, ?_⟩
  cases usage with
  | numbers => exact h.2
  | _ => trivial

/-! ## The order of usages -/

/-- Whether a usage can be tried before another one without taking what is meant for it. -/
def Usage.Precedes : Usage verb → Usage verb → Prop
  | .parameter p _, .parameter q _ => p ≠ q
  | .parameter p _, .row _ member _ _ =>
      member '=' = true → p = .name ∨ p = .update ∨ p = .radius
  | .parameter _ _, _ => True
  | .word _ table _, .word _ table' _ =>
      (table'.map Prod.fst).all (· ∉ table.map Prod.fst)
  | .word _ _ _, .row _ member _ _ => ∀ c, member c = true → Text.isNameChar c = true
  | .word _ _ _, .numbers _ _ _ => True
  | .word _ _ _, .quotation _ _ _ => True
  | _, _ => False

/-- Whether words are made of letters and rows of characters that addresses may hold. -/
def Usage.Regular : Usage verb → Prop
  | .word _ table _ => ∀ word ∈ table.map Prod.fst, IsRow Char.isAlpha word.toList
  | .row _ member value? _ =>
      (∀ c, member c = true → Text.isAddressChar c = true) ∧
        (member '=' = true → ∀ word, (value? word).isSome)
  | _ => True

theorem precedes_of_sortable (h : verb.Sortable) : verb.usages.Pairwise Usage.Precedes := by
  have halphanum : ∀ c, c.isAlphanum = true → Text.isNameChar c = true :=
    fun _ => isNameChar_of_isAlphanum
  cases verb <;> simp only [Verb.Sortable, List.mem_cons, reduceCtorEq, List.not_mem_nil, or_self] at h
  all_goals
    simp only [Verb.usages, List.pairwise_cons, List.forall_mem_cons, List.not_mem_nil,
      IsEmpty.forall_iff, implies_true, List.Pairwise.nil, Usage.Precedes, and_true, ne_eq,
      reduceCtorEq, not_false_eq_true]
  case color => exact ⟨by decide, halphanum⟩
  case solid | visible => exact ⟨by decide, fun _ h => h⟩
  all_goals decide

theorem regular_of_sortable (h : verb.Sortable) : ∀ usage ∈ verb.usages, usage.Regular := by
  have hname : ∀ c, Text.isNameChar c = true → Text.isAddressChar c = true :=
    fun _ => isAddressChar_of_isNameChar
  have halphanum : ∀ c, c.isAlphanum = true → Text.isAddressChar c = true :=
    fun _ => isAddressChar_of_isAlphanum
  cases verb <;> simp only [Verb.Sortable, List.mem_cons, reduceCtorEq, List.not_mem_nil, or_self] at h
  all_goals
    simp only [Verb.usages, List.forall_mem_cons, List.not_mem_nil, IsEmpty.forall_iff,
      implies_true, Usage.Regular, and_true, true_and]
  case color =>
    exact ⟨by decide, halphanum, fun h => absurd h (by decide)⟩
  case texture | corona => exact ⟨hname, fun h => absurd h (by decide)⟩
  case solid | visible => exact ⟨by decide, hname, fun h => absurd h (by decide)⟩
  case picture | media => exact ⟨fun _ h => h, fun _ _ => rfl⟩
  all_goals decide

/-! ## Rows that can be anything -/

/-- A row of characters that is taken neither for a word nor for a parameter of a verb.  The key
of a target with nothing behind the equals sign has to be left out as well: it would
take what follows it as its value. -/
structure Plain (verb : Verb) (text : List Char) : Prop where
  noWord : ∀ a table mem, Usage.word a table mem ∈ verb.usages →
    ∀ said, ¬ (Usage.word a table mem).Spells text said
  noParameter : ∀ p mem, Usage.parameter p mem ∈ verb.usages →
    ∀ front said, front <+: text → ¬ (Usage.parameter p mem).Spells front said
  noName : Text.lower text ≠ "name=".toList

/-- What holds no equals sign is plain unless it is a word. -/
theorem plain_of_notMem (hequals : '=' ∉ text)
    (hword : ∀ a table mem, Usage.word a table mem ∈ verb.usages →
      String.ofList text ∉ table.map Prod.fst) : Plain verb text where
  noWord a table mem hmem said hspells := by
    generalize htext : text = written at hspells
    cases hspells with
    | @word _ _ _ word value hentry =>
        refine hword a table mem hmem ?_
        rw [htext, String.ofList_toList]
        exact List.mem_map_of_mem hentry
  noParameter p mem hmem front said hfront hspells := by
    cases hspells with
    | parameter => exact hequals (hfront.subset (by simp))
  noName hname := by
    have hmem : '=' ∈ Text.lower text := by
      rw [hname]
      decide
    obtain ⟨c, hc, hlower⟩ := List.mem_map.mp hmem
    exact hequals ((Text.toLower_eq_iff (by decide) c).mp hlower ▸ hc)

/-- What is not refused as a value begins with what spells one. -/
theorem exists_spells {p : Parameter} (h : ¬ p.form.Refuses text) :
    ∃ front value, front <+: text ∧ p.Spells front value := by
  have hrow {member : Char → Bool} (h : ¬ (ValueForm.row member).Refuses text) :
      text.takeWhile member <+: text ∧ IsRow member (text.takeWhile member) :=
    ⟨List.takeWhile_prefix _, isRow_takeWhile h⟩
  have hwords {words : List String} (hlower : ∀ word ∈ words, Text.lower word.toList = word.toList)
      (h : ¬ (ValueForm.word words).Refuses text) :
      ∃ front value, front <+: text ∧ SpellsOneOf words front value := by
    simp only [ValueForm.Refuses, not_forall, not_not] at h
    obtain ⟨word, hmem, heq⟩ := h
    exact ⟨_, _, List.takeWhile_prefix _, ⟨word, hmem, heq.trans (hlower word hmem)⟩, rfl⟩
  have hnumber (h : ¬ ValueForm.number.Refuses text) :
      ∃ front value, front <+: text ∧ SpellsNumber front value := by
    obtain ⟨front, x, hfront, hx⟩ := exists_isNumber h
    exact ⟨front, some x, hfront, x, hx, rfl⟩
  have hsigned (h : ¬ ValueForm.signedNumber.Refuses text) :
      ∃ front value, front <+: text ∧ SpellsSignedNumber front value := by
    obtain ⟨front, x, hfront, hx⟩ := exists_isSignedNumber h
    exact ⟨front, some x, hfront, x, hx, rfl⟩
  cases p with
  | name | mask | tag | size | update | color | bcolor => exact ⟨_, _, (hrow h).1, (hrow h).2, rfl⟩
  | time | wait | brightness | radius => exact hnumber h
  | type | fx => exact hwords (by decide) h
  | angle | pitch => exact hsigned h

/-- Something without blanks at the front of a text does not go beyond the first blank. -/
theorem prefix_of_prefix_append {front : List Char} (h : front <+: text ++ rest)
    (hfront : IsSolid front) (hrest : Stops rest) : front <+: text := by
  rcases List.prefix_or_prefix_of_prefix h (List.prefix_append text rest) with hle | ⟨extra, rfl⟩
  · exact hle
  · cases extra with
    | nil => simp
    | cons c extra =>
        have hextra := (List.prefix_append_right_inj text).mp h
        have hhead : rest.head? = some c := by
          obtain ⟨tail, rfl⟩ := hextra
          rfl
        have haddress := hfront.2 c (by simp)
        exact absurd haddress (by simp [isAddressChar_of_isBlank (hrest c hhead)])

/-! ## Reading what spells a usage -/

theorem isSolid_word {word : String} (h : IsRow Char.isAlpha word.toList) :
    IsSolid word.toList :=
  h.mono fun _ hc => isAddressChar_of_isNameChar (isNameChar_of_isAlpha hc)

/-- Counts and numbers do not begin with letters. -/
theorem refuses_of_isAlpha {p : Parameter} (hp : p = .update ∨ p = .radius)
    (h : ∀ c ∈ text.head?, c.isAlpha = true) : p.form.Refuses text := by
  have hdigit : ∀ c ∈ text.head?, c.isDigit = false ∧ c ≠ '.' := by
    intro c hc
    have halpha := h c hc
    refine ⟨Text.isDigit_of_isAlpha halpha, ?_⟩
    rintro rfl
    exact absurd halpha (by decide)
  rcases hp with rfl | rfl
  · cases text with
    | nil => rfl
    | cons c text => simp [Parameter.form, ValueForm.Refuses, (hdigit c rfl).1]
  · exact read?_number_of_noNumber hdigit

/-- What is plain is refused by the parameters of its verb that are tried before it. -/
theorem refuses_of_plain {p : Parameter} {mem : p.attribute ∈ verb.attributes}
    (hmem : Usage.parameter p mem ∈ verb.usages) (hplain : Plain verb text)
    (hsolid : IsSolid text) (hrest : Stops rest)
    (hnext : ∀ c ∈ (Text.skipBlanks rest).head?, c ≠ '=')
    (hequals : '=' ∈ text → (p = .name ∨ p = .update ∨ p = .radius) ∧
      ∀ c ∈ (Text.skipBlanks rest).head?, c.isAlpha = true) :
    p.argumentForm.Refuses (text ++ rest) := by
  intro value hkey
  obtain ⟨hletters, tail, htail, rfl⟩ := takeWhile_isAlpha_of_afterKey? hkey
  have hstop := hrest.not_member fun _ hc => isAddressChar_of_isNameChar (isNameChar_of_isAlpha hc)
  by_cases hall : text.dropWhile Char.isAlpha = []
  · -- the whole text is the key, and no equals sign follows
    have hall' : ∀ c ∈ text, c.isAlpha = true := by simpa [List.dropWhile_eq_nil_iff] using hall
    rw [Text.dropWhile_append_of_stop hall' hstop] at htail
    exact absurd rfl (hnext '=' (by simp [htail]))
  · rw [Text.takeWhile_append_of_dropWhile_ne_nil hall] at hletters
    rw [Text.dropWhile_append_of_ne_nil hall] at htail
    obtain ⟨d, behind, hbehind⟩ := List.exists_cons_of_ne_nil hall
    have hsplit := List.takeWhile_append_dropWhile (p := Char.isAlpha) (l := text)
    rw [hbehind] at hsplit htail
    have hd : Text.isBlank d = false :=
      isBlank_of_isAddressChar (hsolid.2 d (by rw [← hsplit]; simp))
    rw [List.cons_append, Text.skipBlanks_cons_of_not hd, List.cons.injEq] at htail
    obtain ⟨rfl, rfl⟩ := htail
    obtain ⟨hp, hnextAlpha⟩ := hequals (by rw [← hsplit]; simp)
    by_contra haccepts
    cases behind with
    | nil =>
        -- nothing of the text is left for the value
        rw [List.nil_append] at haccepts
        rcases hp with rfl | hp
        · refine hplain.noName ?_
          rw [← hsplit, Text.lower, List.map_append]
          exact congrArg (· ++ ['=']) hletters
        · exact haccepts (refuses_of_isAlpha hp hnextAlpha)
    | cons e behind =>
        have he : Text.isBlank e = false :=
          isBlank_of_isAddressChar (hsolid.2 e (by rw [← hsplit]; simp))
        rw [List.cons_append, Text.skipBlanks_cons_of_not he, ← List.cons_append] at haccepts
        obtain ⟨front, value, hfront, hspells⟩ := exists_spells haccepts
        have hfront' := prefix_of_prefix_append hfront (isSolid_of_spells hspells) hrest
        have hfront : text.takeWhile Char.isAlpha ++ '=' :: front <+:
            text.takeWhile Char.isAlpha ++ '=' :: e :: behind :=
          (List.prefix_append_right_inj _).mpr (List.cons_prefix_cons.mpr ⟨rfl, hfront'⟩)
        rw [hsplit] at hfront
        exact hplain.noParameter p mem hmem _ _ hfront <|
          @Usage.Spells.parameter _ p mem _ [] [] front value hletters rfl rfl hspells

theorem key_injective {p q : Parameter} (h : p.key = q.key) : p = q := by
  have hfind (p : Parameter) : Parameter.all.find? (·.key == p.key) = some p := by
    cases p <;> rfl
  exact Option.some.inj (by rw [← hfind p, ← hfind q, h])

theorem refuses_word_of_head {words : List String}
    (hwords : ∀ word ∈ words, IsRow Char.isAlpha word.toList)
    (h : ∀ c ∈ text.head?, c.isAlpha = false) : (Form.word words).Refuses text := by
  intro hmem
  have hrow := hwords _ hmem
  rw [String.toList_ofList] at hrow
  cases text with
  | nil => exact hrow.1 rfl
  | cons c text =>
      have hc : c ∈ (c :: text).takeWhile Text.isNameChar := by
        cases hname : Text.isNameChar c with
        | true => simp [hname]
        | false => exact absurd (by simp [hname]) hrow.1
      exact absurd (hrow.2 c hc) (by simp [h c rfl])

theorem not_isAlpha_of_isBlank {c : Char} (h : Text.isBlank c = true) : c.isAlpha = false := by
  have haddress := isAddressChar_of_isBlank h
  cases halpha : c.isAlpha with
  | false => rfl
  | true =>
      have hname := isAddressChar_of_isNameChar (isNameChar_of_isAlpha halpha)
      exact absurd hname (by simp [haddress])

theorem not_isAlpha_of_beginsNumber {c : Char} (h : beginsNumber c = true) :
    c.isAlpha = false := by
  cases halpha : c.isAlpha with
  | false => rfl
  | true =>
      have hdigit := Text.isDigit_of_isAlpha halpha
      simp only [beginsNumber, hdigit, Bool.false_or, Bool.or_eq_true, beq_iff_eq] at h
      rcases h with (rfl | rfl) | rfl <;> exact absurd halpha (by decide)

/-- What spells a usage is refused by every usage that precedes it. -/
theorem refuses_of_precedes {other usage : Usage verb} {said : Argument verb}
    (hregular : ∀ usage ∈ verb.usages, usage.Regular) (hother : other ∈ verb.usages)
    (hmem : usage ∈ verb.usages) (hprecedes : other.Precedes usage)
    (hspells : usage.Spells text said)
    (hplain : ∀ a member value? mem, usage = .row a member value? mem → Plain verb text)
    (hfollows : usage.Follows rest) : other.form.Refuses (text ++ rest) := by
  have hstopAlpha := hfollows.1.not_member fun _ hc =>
    isAddressChar_of_isNameChar (isNameChar_of_isAlpha hc)
  have hstopName := hfollows.1.not_member fun _ => isAddressChar_of_isNameChar
  cases other with
  | row | numbers | quotation => cases usage <;> exact hprecedes.elim
  | parameter p mem =>
      cases hspells with
      | @parameter q _ key before after text value hkey hbefore hafter hvalue =>
          intro rest' hkey'
          have hletters := (takeWhile_isAlpha_of_afterKey? hkey').1
          have hstop : ∀ c ∈ (before ++ '=' :: (after ++ text) ++ rest).head?,
              c.isAlpha = false := by
            cases before with
            | nil => simp
            | cons d before =>
                simp only [List.all_cons, Bool.and_eq_true] at hbefore
                simpa using not_isAlpha_of_isBlank hbefore.1
          rw [List.append_assoc, Text.takeWhile_append_of_stop
            (isAlpha_of_lower_eq hkey (isAlpha_of_mem_key q)) hstop, hkey] at hletters
          exact absurd (key_injective (String.toList_inj.mp hletters)).symm hprecedes
      | @word a table _ word value hword =>
          intro rest' hkey'
          have hletters := (hregular _ hmem word (List.mem_map_of_mem hword)).2
          obtain ⟨-, tail, htail, -⟩ := takeWhile_isAlpha_of_afterKey? hkey'
          rw [Text.dropWhile_append_of_stop hletters hstopAlpha] at htail
          exact absurd rfl (hfollows.2 '=' (by simp [htail]))
      | row hrow =>
          refine refuses_of_plain hother (hplain _ _ _ _ rfl)
            (hrow.mono (hregular _ hmem).1) hfollows.1 (fun c hc => (hfollows.2 c hc).1) ?_
          intro hequals
          have hmember := hrow.2 '=' hequals
          exact ⟨hprecedes hmember, fun c hc => (hfollows.2 c hc).2 hmember⟩
      | numbers hlist =>
          obtain ⟨c, further, rfl, hc⟩ := hlist.exists_cons
          exact refuses_parameter_of_head (by simpa using not_isAlpha_of_beginsNumber hc)
      | quotation => exact refuses_parameter_of_head (by simp)
  | word a table mem =>
      cases hspells with
      | parameter => exact hprecedes.elim
      | @word _ _ _ word value hword =>
          have hletters := (hregular _ hmem word (List.mem_map_of_mem hword)).2
          have hname : ∀ c ∈ word.toList, Text.isNameChar c = true :=
            fun c hc => isNameChar_of_isAlpha (hletters c hc)
          have hnot := List.all_eq_true.mp hprecedes word (List.mem_map_of_mem hword)
          simpa [Usage.form, Form.Refuses, Text.takeWhile_append_of_stop hname hstopName] using hnot
      | @row _ member value? _ _ hrow =>
          have hname : ∀ c ∈ text, Text.isNameChar c = true :=
            fun c hc => hprecedes c (hrow.2 c hc)
          intro hword
          rw [Text.takeWhile_append_of_stop hname hstopName] at hword
          obtain ⟨⟨word, value⟩, hentry, rfl⟩ := List.mem_map.mp hword
          have hspells := @Usage.Spells.word _ _ _ mem _ _ hentry
          rw [String.toList_ofList] at hspells
          exact (hplain _ _ _ _ rfl).noWord a table mem hother _ hspells
      | numbers hlist =>
          obtain ⟨c, further, rfl, hc⟩ := hlist.exists_cons
          exact refuses_word_of_head (hregular _ hother) (by simpa using not_isAlpha_of_beginsNumber hc)
      | quotation => exact refuses_word_of_head (hregular _ hother) (by simp)

/-- **Arguments in context.**  Behind a verb, what spells a usage is read as what it says,
blanks behind it aside. -/
theorem read?_spelled {argument : Grammar Rule (Argument verb)}
    (hargument : Realized argument verb.usages) (hverb : verb.Sortable) {usage : Usage verb}
    {said : Argument verb} (hmem : usage ∈ verb.usages) (hspells : usage.Spells text said)
    (hplain : ∀ a member value? mem, usage = .row a member value? mem → Plain verb text)
    (hfollows : usage.Follows rest) :
    ∃ last, argument.read? (text ++ rest) = some (said, last) ∧
      Text.skipBlanks last = Text.skipBlanks rest := by
  have hprecedes := precedes_of_sortable hverb
  have hregular := regular_of_sortable hverb
  obtain ⟨earlier, later, husages⟩ := List.append_of_mem hmem
  rw [husages] at hargument hprecedes
  refine hargument.read? (fun other hother => ?_) hspells hfollows.ends
  have hother' : other ∈ verb.usages := by
    rw [husages]
    exact List.mem_append_left _ hother
  exact refuses_of_precedes hregular hother' hmem
    ((List.pairwise_append.mp hprecedes).2.2 other hother usage List.mem_cons_self) hspells hplain
    hfollows

end ObjectActions.Script
