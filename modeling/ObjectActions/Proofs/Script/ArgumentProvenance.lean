import ObjectActions.Proofs.Script.Dispatch
import ObjectActions.Proofs.Script.Places

/-!
# Where arguments come from

The table of usages says how the arguments of a verb can be spelled, and Vocabulary shows that what
is spelled is read.  This module goes the other way: whatever is read as an argument of a
verb has been spelled in one of the ways that the table lists, and says what the table says
(`shows_verbArguments`).  Which usage was tried first does not matter here.

The verbs that are not in the table have arguments of their own, of which they take each at most
once; `Verb.Says` lists these beside the usages.
-/

namespace ObjectActions

/-- Whether a text holds nothing that is taken out when a script is cleaned. -/
def Text.IsClean (text : List Char) : Prop := ∀ c ∈ text, Text.isNoise c = false

instance (text : List Char) : Decidable (Text.IsClean text) :=
  List.decidableBAll _ text

theorem Text.isClean_clean (script : String) : Text.IsClean (Text.clean script).toList :=
  fun _ => Text.not_isNoise_of_mem_clean

/-- What stands in a clean text is clean. -/
theorem Text.IsClean.of_isInfix {source text : List Char} (h : Text.IsClean source)
    (htext : text <:+: source) : Text.IsClean text :=
  fun c hc => h c (htext.subset hc)

theorem Text.passesOn_isClean : Grammar.PassesOn Text.IsClean :=
  fun _ _ hsuffix h => h.of_isInfix hsuffix.isInfix

namespace Script

open Grammar Text

variable {verb : Verb}

/-! ## Values -/

section Values

variable {T : List Char → Prop} {rule : Rule}

theorem shows_name : Shows T (.token rule (.run isNameChar) nonempty?) fun text w =>
    SpellsName text (some w) :=
  (shows_row isNameChar).mono fun _ _ h => ⟨h.1, congrArg some h.2⟩

theorem shows_integer : Shows T integer fun text n => SpellsCount text (some n) := by
  refine ((shows_row Char.isDigit).mono ?_).map
  rintro text w ⟨hrow, rfl⟩
  exact ⟨hrow, (some_saturate_ofList hrow).symm⟩

theorem shows_colorName : Shows T colorName SpellsColor := by
  refine ((shows_row Char.isAlphanum).mono ?_).map
  rintro text w ⟨hrow, rfl⟩
  exact ⟨hrow, rfl⟩

theorem shows_someNumber : Shows T number fun text x => SpellsNumber text (some x) :=
  (shows_number T).mono fun _ x h => ⟨x, h, rfl⟩

theorem shows_someSignedNumber :
    Shows T signedNumber fun text x => SpellsSignedNumber text (some x) :=
  (shows_signedNumber T).mono fun _ x h => ⟨x, h, rfl⟩

theorem shows_oneOfWords {words : List String}
    (hwords : ∀ word ∈ words, lower word.toList = word.toList) :
    Shows T (oneOfWords rule words) fun text w => SpellsOneOf words text (some w) := by
  refine (Shows.run rule isNameChar _).mono ?_
  rintro text w ⟨-, hw⟩
  split at hw
  · next hany =>
      cases hw
      obtain ⟨word, hmem, halike⟩ := List.any_eq_true.mp hany
      rw [alike, String.toList_ofList, hwords word hmem, beq_iff_eq] at halike
      exact ⟨⟨word, hmem, halike⟩, rfl⟩
  · cases hw

end Values

/-! ## Usages -/

section Usages

variable {β : Type} {T : List Char → Prop} {rule : Rule}

theorem shows_parameter (hT : PassesOn T) (p : Parameter) {mem : p.attribute ∈ verb.attributes}
    {value : Grammar Rule β} (use : β → Option p.attribute.Value)
    (h : Shows T value fun text b => p.Spells text (use b)) :
    Shows T (.map (fun b => (use b).map fun v => ⟨p.attribute, v, mem⟩) (parameter p value))
      (Usage.parameter p mem).Spells := by
  refine Shows.map fun text b rest htext hread => ?_
  rw [read?_parameter] at hread
  obtain ⟨middle, hkey, hvalue⟩ := Option.bind_eq_some_iff.mp hread
  obtain ⟨key, behind, tail, rfl, hlower, hequals, rfl⟩ := exists_of_afterKey? hkey
  obtain ⟨before, hbefore, hbehind⟩ := exists_blanks_append behind
  obtain ⟨after, hafter, htail⟩ := exists_blanks_append tail
  have hsuffix : skipBlanks tail <:+ key ++ behind := by
    rw [hbehind, hequals]
    exact (skipBlanks_isSuffix tail).trans <|
      (List.suffix_cons '=' tail).trans <| (List.suffix_append before _).trans <|
        List.suffix_append key _
  obtain ⟨front, hfront, hspells⟩ := h (hT hsuffix htext) hvalue
  refine ⟨key ++ (before ++ '=' :: (after ++ front)), ?_,
    .parameter hlower (skipBlanks_eq_nil_iff.mp hbefore) (skipBlanks_eq_nil_iff.mp hafter)
      hspells⟩
  calc
    key ++ behind = key ++ (before ++ '=' :: tail) := by rw [← hequals, ← hbehind]
    _ = key ++ (before ++ '=' :: (after ++ (front ++ rest))) := by rw [← hfront, ← htail]
    _ = key ++ (before ++ '=' :: (after ++ front)) ++ rest := by simp

theorem shows_word {a : Attribute} {mem : a ∈ verb.attributes}
    {table : List (String × Option a.Value)} {value? : String → Option β}
    (use : β → Option a.Value) (h : ∀ w b, value? w = some b → (w, use b) ∈ table) :
    Shows T (.map (fun b => (use b).map fun v => ⟨a, v, mem⟩) (word rule value?))
      (Usage.word a table mem).Spells := by
  refine ((Shows.run rule isNameChar value?).mono ?_).map
  rintro text b ⟨-, hvalue⟩
  rw [← String.toList_ofList (l := text)]
  exact .word (h _ b hvalue)

theorem shows_flag (a : Attribute) {mem : a ∈ verb.attributes} (use : Bool → Option a.Value)
    (affirmative : String) :
    Shows T (.map (fun b => (use b).map fun v => ⟨a, v, mem⟩) (flag rule affirmative))
      (Usage.word a [(affirmative, use true)] mem).Spells := by
  refine shows_word use fun w b hw => ?_
  split at hw
  · next heq =>
      cases hw
      exact heq ▸ List.mem_cons_self
  · cases hw

theorem shows_status (a : Attribute) {mem : a ∈ verb.attributes} (use : Bool → Option a.Value)
    (affirmative : String) :
    Shows T (.map (fun b => (use b).map fun v => ⟨a, v, mem⟩) (status rule affirmative))
      (Usage.word a [(affirmative, use true), ("no" ++ affirmative, use false)] mem).Spells := by
  refine shows_word use fun w b hw => ?_
  split at hw
  · next heq =>
      cases hw
      exact heq ▸ List.mem_cons_self
  · split at hw
    · next heq =>
        cases hw
        exact heq ▸ List.mem_cons_of_mem _ List.mem_cons_self
    · cases hw

theorem shows_boolean {mem : .value ∈ verb.attributes} :
    Shows T (sets .value boolean mem)
      (Usage.word .value [("on", some true), ("true", some true), ("yes", some true),
        ("off", some false), ("false", some false), ("no", some false)] mem).Spells := by
  refine shows_word some fun w b hw => ?_
  rw [List.lookup_eq_some_iff] at hw
  obtain ⟨before, after, heq, -⟩ := hw
  have hmem : (w, b) ∈ truthWords := heq ▸ List.mem_append_right before List.mem_cons_self
  exact List.mem_map_of_mem (f := fun entry => (entry.1, some entry.2)) hmem

theorem shows_rowUsage (a : Attribute) {mem : a ∈ verb.attributes} (member : Char → Bool)
    (value? : String → Option a.Value) :
    Shows T (.map (fun w => (value? w).map fun v => ⟨a, v, mem⟩)
      (.token rule (.run member) nonempty?)) (Usage.row a member value? mem).Spells := by
  refine ((shows_row member).mono ?_).map
  rintro text w ⟨hrow, rfl⟩
  exact .row hrow

theorem shows_numbers (a : Attribute) {mem : a ∈ verb.attributes}
    (value : List Binary64 → a.Value) :
    Shows T (.map (fun v => some ⟨a, v, mem⟩) (numberList.map value))
      (Padded (Usage.numbers a value mem).Spells) := by
  refine Shows.map <| Shows.map <| (shows_numberList T).mono ?_
  rintro text xs ⟨core, blanks, rfl, hblanks, hlist⟩
  exact ⟨core, blanks, rfl, hblanks, .numbers hlist⟩

theorem shows_quotedText {T : List Char → Prop} : Shows T quotedText fun text w =>
    text = '"' :: (w.toList ++ ['"']) ∧ '"' ∉ w.toList := by
  intro text w rest _ hread
  have hhead : text.head? = some '"' := by
    by_contra hne
    rw [read?_quotedText_of_head hne] at hread
    cases hread
  obtain ⟨behind, rfl⟩ := List.head?_eq_some_iff.mp hhead
  rw [read?_quotedText] at hread
  split at hread
  · next hquote =>
      cases hread
      obtain ⟨tail, htail⟩ := List.head?_eq_some_iff.mp <|
        (head?_dropWhile_isQuotable behind).mpr hquote
      have hsplit := List.takeWhile_append_dropWhile (p := isQuotable) (l := behind)
      refine ⟨'"' :: (behind.takeWhile isQuotable ++ ['"']), ?_, ?_, ?_⟩
      · rw [htail] at hsplit ⊢
        rw [List.tail_cons, List.cons_append, List.append_assoc, List.singleton_append, hsplit]
      · rw [String.toList_ofList]
      · intro hmem
        rw [String.toList_ofList] at hmem
        exact absurd (List.mem_takeWhile_imp hmem) (by decide)
  · cases hread

theorem shows_quotation (a : Attribute) {mem : a ∈ verb.attributes} (value : String → a.Value) :
    Shows IsClean (.map (fun w => some ⟨a, value w, mem⟩) quotedText)
      (Usage.quotation a value mem).Spells := by
  refine Shows.map fun text w rest hclean hread => ?_
  obtain ⟨_, rfl, rfl, hnone⟩ := shows_quotedText (T := fun _ => True) trivial hread
  have hclean' : ∀ c ∈ w.toList, isNoise c = false := fun c hc => hclean c (by simp [hc])
  have hquotation : (Usage.quotation a value mem).Spells _ _ := .quotation hnone hclean'
  rw [String.ofList_toList] at hquotation
  exact ⟨_, rfl, hquotation⟩

end Usages

/-- Whether whatever an argument reads spells one of some usages, with any blanks behind it. -/
def Told (argument : Grammar Rule (Argument verb)) (usages : List (Usage verb)) : Prop :=
  Shows IsClean argument (Padded fun text said => ∃ usage ∈ usages, usage.Spells text said)

section Told

variable {first rest : Grammar Rule (Argument verb)} {usage : Usage verb}
  {usages : List (Usage verb)}

theorem Told.last_padded (h : Shows IsClean first (Padded usage.Spells)) : Told first [usage] :=
  h.mono fun _ _ hpadded => hpadded.mono fun _ _ hspells => ⟨usage, List.mem_cons_self, hspells⟩

theorem Told.last (h : Shows IsClean first usage.Spells) : Told first [usage] :=
  Told.last_padded (h.mono fun _ _ => Padded.of_written)

theorem Told.more (h : Shows IsClean first usage.Spells) (hrest : Told rest usages) :
    Told (first <|> rest) (usage :: usages) := by
  refine Shows.choice ((Told.last h).mono ?_) (hrest.mono ?_)
  · intro text said hpadded
    refine hpadded.mono fun _ _ ⟨_, hmem, hspells⟩ => ⟨usage, List.mem_cons_self, ?_⟩
    exact List.mem_singleton.mp hmem ▸ hspells
  · intro text said hpadded
    exact hpadded.mono fun _ _ ⟨other, hmem, hspells⟩ =>
      ⟨other, List.mem_cons_of_mem _ hmem, hspells⟩

end Told

theorem shows_target {mem : .targetName ∈ verb.attributes} :
    Shows IsClean (target mem) (Usage.parameter .name mem).Spells :=
  shows_parameter passesOn_isClean .name some shows_name

/-- The arguments of a verb that has usages tell these usages. -/
theorem exists_told {verb : Verb} (h : verb.usages ≠ []) :
    ∃ argument : Grammar Rule (Argument verb),
      verbArguments verb = manyArguments (.verb verb) argument ∧ Told argument verb.usages := by
  have hT := passesOn_isClean
  cases verb with
  | sound | examine | name | teleport | url => exact absurd rfl h
  | texture =>
      exact ⟨_, rfl, .more shows_target
        <| .more (shows_parameter hT .mask some shows_name)
        <| .more (shows_parameter hT .tag some shows_name)
        <| .last (shows_rowUsage .texture _ some)⟩
  | corona =>
      exact ⟨_, rfl, .more shows_target
        <| .more (shows_parameter hT .mask some shows_name)
        <| .more (shows_parameter hT .size some shows_integer)
        <| .last (shows_rowUsage .resource _ some)⟩
  | color =>
      exact ⟨_, rfl, .more shows_target <| .more (shows_flag .tint some "tint")
        <| .last (.map (shows_colorName.mono fun _ _ ⟨hrow, hvalue⟩ => hvalue ▸ .row hrow))⟩
  | solid | visible =>
      exact ⟨_, rfl, .more shows_target <| .more shows_boolean
        <| .last (shows_rowUsage .targetName _ some)⟩
  | move =>
      exact ⟨_, rfl, .more shows_target
        <| .more (shows_parameter hT .time some shows_someNumber)
        <| .more (shows_parameter hT .wait some shows_someNumber)
        <| .more (shows_status .loop some "loop") <| .more (shows_status .reset some "reset")
        <| .more (shows_status .sync some "sync") <| .more (shows_flag .smooth some "smooth")
        <| .more (shows_flag .global some "global")
        <| .last_padded (shows_numbers .distance Triple.ofOffsets)⟩
  | rotate =>
      exact ⟨_, rfl, .more shows_target
        <| .more (shows_parameter hT .time some shows_someNumber)
        <| .more (shows_parameter hT .wait some shows_someNumber)
        <| .more (shows_status .loop some "loop") <| .more (shows_status .reset some "reset")
        <| .more (shows_status .sync some "sync")
        <| .last_padded (shows_numbers .speed Triple.ofOffsets)⟩
  | scale =>
      exact ⟨_, rfl, .more shows_target <| .last_padded (shows_numbers .factor Triple.ofFactors)⟩
  | light =>
      exact ⟨_, rfl, .more shows_target
        <| .more (shows_parameter hT .color id shows_colorName)
        <| .more (shows_parameter hT .brightness some shows_someNumber)
        <| .more (shows_parameter hT .radius some shows_someNumber)
        <| .more (shows_parameter hT .type some (shows_oneOfWords (by decide)))
        <| .more (shows_parameter hT .fx some (shows_oneOfWords (by decide)))
        <| .more (shows_parameter hT .time some shows_someNumber)
        <| .more (shows_parameter hT .angle some shows_someSignedNumber)
        <| .last (shows_parameter hT .pitch some shows_someSignedNumber)⟩
  | noise =>
      exact ⟨_, rfl, .more (shows_flag .resource (fun _ => none) "overlap")
        <| .last (shows_rowUsage .resource _ some)⟩
  | picture =>
      exact ⟨_, rfl, .more shows_target
        <| .more (shows_parameter hT .update some shows_integer)
        <| .last (shows_rowUsage .resource _ some)⟩
  | media =>
      exact ⟨_, rfl, .more shows_target
        <| .more (shows_parameter hT .radius some shows_someNumber)
        <| .last (shows_rowUsage .resource _ some)⟩
  | sign =>
      exact ⟨_, rfl, .more shows_target
        <| .more (shows_parameter hT .color id shows_colorName)
        <| .more (shows_parameter hT .bcolor id shows_colorName)
        <| .last (shows_quotation .text id)⟩

/-! ## Verbs -/

/-- How the name of a world is written. -/
def IsWorldName (text : List Char) : Prop :=
  IsRow Char.isAlphanum text ∧ ∀ c ∈ text.head?, c.isAlpha = true

end Script

open Script in
/-- How a single argument of a verb can be written, and what it says. -/
inductive Verb.Says : (verb : Verb) → List Char → Argument verb → Prop where
  | usage {verb : Verb} {usage : Usage verb} {text : List Char} {said : Argument verb}
      (hmem : usage ∈ verb.usages) (h : usage.Spells text said) : Verb.Says verb text said
  | sound {text : List Char} (h : IsRow Text.isAddressChar text) :
      Verb.Says .sound text (some { name := .resource, value := String.ofList text })
  | url {text : List Char} (h : IsRow Text.isAddressChar text) :
      Verb.Says .url text (some { name := .resource, value := String.ofList text })
  | name {text : List Char} (h : IsRow Text.isNameChar text) :
      Verb.Says .name text (some { name := .targetName, value := String.ofList text })
  | world {text : List Char} (h : IsWorldName text) :
      Verb.Says .teleport text (some { name := .worldName, value := String.ofList text })
  | place {text : List Char} {p : Place} (h : IsPlace text p) :
      Verb.Says .teleport text (some { name := .coordinates, value := p })

open Script Grammar in
/-- How a verb and its arguments are written. -/
inductive Verb.Phrase (verb : Verb) : List Char → List (Argument verb) → Prop where
  | mk {word rest : List Char} {arguments : List (Argument verb)}
      (hword : Text.lower word = verb.word.toList)
      (hstop : ∀ c ∈ rest.head?, Text.isNameChar c = false)
      (hrest : Spaced verb.Says rest arguments) : Verb.Phrase verb (word ++ rest) arguments

namespace Script

open Grammar Text

/-- A keyword is a whole word, and blanks may stand between it and what belongs to it. -/
theorem shows_keyword {β : Type} {T : List Char → Prop} (hT : PassesOn T) (k : Keyword)
    {body : Grammar Rule β} {Written : List Char → β → Prop} (h : Shows T body Written) :
    Shows T (keyword k *> body) fun text value =>
      ∃ word rest, text = word ++ rest ∧ lower word = k.word.toList ∧
        (∀ c ∈ rest.head?, isNameChar c = false) ∧
        ∃ blanks behind, rest = blanks ++ behind ∧ blanks.all isBlank ∧ Written behind value := by
  intro text value rest htext hread
  rw [read?_seqRight, read?_keyword] at hread
  split at hread
  · next hword =>
      rw [Option.bind_some] at hread
      have hsplit := List.takeWhile_append_dropWhile (p := isNameChar) (l := text)
      have hstop := @head?_dropWhile isNameChar text
      have hsuffix := (skipBlanks_isSuffix _).trans (List.dropWhile_suffix isNameChar (l := text))
      obtain ⟨behind, hbehind, hwritten⟩ := h (hT hsuffix htext) hread
      obtain ⟨blanks, hblanks, hdrop⟩ := exists_blanks_append (text.dropWhile isNameChar)
      rw [hbehind, ← List.append_assoc] at hdrop
      rw [hdrop] at hsplit hstop
      refine ⟨text.takeWhile isNameChar ++ (blanks ++ behind), ?_, _, _, rfl, hword, ?_,
        blanks, behind, rfl, skipBlanks_eq_nil_iff.mp hblanks, hwritten⟩
      · rw [List.append_assoc, hsplit]
      · intro c hc
        refine hstop c ?_
        rw [List.head?_append, Option.mem_def.mp hc]
        rfl
  · cases hread

/-- An argument that may be missing. -/
theorem shows_optional {T : List Char → Prop} {argument : Grammar Rule (Argument verb)}
    {Written : List Char → Argument verb → Prop} (h : Shows T argument (Padded Written)) :
    Shows T argument.optional fun text said? => Spaced Written text said?.toList := by
  refine h.optional.mono ?_
  rintro text said? (⟨rfl, rfl⟩ | ⟨said, rfl, core, blanks, rfl, hblanks, hsaid⟩)
  · exact .blank rfl
  · exact @Spaced.item _ _ [] _ _ _ _ rfl hsaid (.blank hblanks)

/-- What stands behind the word for a verb. -/
theorem shows_phrase {β : Type} {body : Grammar Rule β} (use : β → List (Argument verb))
    (h : Shows IsClean body fun text b => Spaced verb.Says text (use b)) :
    Shows IsClean (keyword (.verb verb) *> body) fun text b => verb.Phrase text (use b) := by
  refine (shows_keyword passesOn_isClean (.verb verb) h).mono ?_
  rintro text b ⟨word, rest, rfl, hword, hstop, blanks, behind, rfl, hblanks, hspaced⟩
  exact .mk hword hstop (hspaced.blanks_append hblanks)

/-- A verb that takes a row of characters and nothing else. -/
theorem shows_oneArgument {said : String → Argument verb} {rule : Rule} {member : Char → Bool}
    (h : ∀ text, IsRow member text → verb.Says text (said (String.ofList text))) :
    Shows IsClean (oneArgument (.verb verb) (.map said (.token rule (.run member) nonempty?)))
      verb.Phrase := by
  refine (shows_phrase _ (shows_optional (Shows.map ((shows_row member).mono ?_)))).map
  rintro text w ⟨hrow, rfl⟩
  exact .of_written (h text hrow)

theorem shows_worldName {T : List Char → Prop} :
    Shows T worldName fun text w => IsWorldName text ∧ w = String.ofList text := by
  refine (Shows.run _ Char.isAlphanum _).mono ?_
  rintro text w ⟨hmember, hw⟩
  rw [String.toList_ofList] at hw
  split at hw
  · next hhead =>
      cases hw
      cases text with
      | nil => cases hhead
      | cons c text => exact ⟨⟨⟨List.cons_ne_nil c text, hmember⟩, by simpa using hhead⟩, rfl⟩
  · cases hw

/-- The name of a world and a place behind it, each of which may be missing. -/
theorem shows_journey :
    Shows IsClean (verbArguments .teleport) (Verb.Phrase .teleport) := by
  have hT := passesOn_isClean
  have hworld : Shows IsClean (sets .worldName worldName : Grammar Rule (Argument .teleport))
      (Padded (Verb.Says .teleport)) := by
    refine Shows.map (shows_worldName.mono ?_)
    rintro text w ⟨hworld, rfl⟩
    exact .of_written (.world hworld)
  have hplace : Shows IsClean (sets .coordinates place : Grammar Rule (Argument .teleport))
      (Padded (Verb.Says .teleport)) := by
    refine Shows.map ((shows_place hT).mono ?_)
    rintro text p ⟨core, blanks, rfl, hblanks, hplace⟩
    exact ⟨core, blanks, rfl, hblanks, .place hplace⟩
  refine (shows_phrase
    (fun parts : Option (Argument .teleport) × Option (Argument .teleport) =>
      [parts.1, parts.2].filterMap id) ?_).map
  refine (Shows.seq hT (shows_optional hworld) (shows_optional hplace)).mono ?_
  rintro text ⟨world?, place?⟩ ⟨front, blanks, behind, rfl, hblanks, hfront, hbehind⟩
  -- the name and the place are two texts of arguments, with the blanks between them
  have hboth := hfront.append (hbehind.blanks_append hblanks)
  cases world? <;> cases place? <;> exact hboth

/-- **Arguments.**  Whatever is read as a verb and its arguments is written as such. -/
theorem shows_verbArguments (verb : Verb) : Shows IsClean (verbArguments verb) verb.Phrase := by
  by_cases husages : verb.usages = []
  · cases verb with
    | sound => exact shows_oneArgument fun _ => .sound
    | url => exact shows_oneArgument fun _ => .url
    | name => exact shows_oneArgument fun _ => .name
    | teleport => exact shows_journey
    | examine =>
        refine Shows.map fun text _ rest _ hread => ?_
        rw [read?_keyword] at hread
        split at hread
        · next hword =>
            cases hread
            refine ⟨_, List.takeWhile_append_dropWhile.symm, ?_⟩
            rw [← List.append_nil (List.takeWhile _ _)]
            exact .mk hword (by simp) (.blank rfl)
        · cases hread
    | _ => exact absurd husages (List.cons_ne_nil _ _)
  · obtain ⟨argument, harguments, htold⟩ := exists_told husages
    have hmany : Shows IsClean (.many argument) (Spaced verb.Says) := by
      refine (Shows.many passesOn_isClean htold).mono fun text arguments hspaced => ?_
      exact (hspaced.mono fun _ _ hpadded => hpadded.mono fun _ _ ⟨_, hmem, hspells⟩ =>
        .usage hmem hspells).of_padded
    rw [harguments]
    exact shows_phrase id hmany

end Script

end ObjectActions
