import ObjectActions.Proofs.Script.Opening

/-!
# Addresses

Five verbs are about an address: `sound` and `url` take at most one, and `noise`, `picture` and
`media` take it among other arguments.  An address without an equals sign is no parameter, so it
is read as a whole behind each of them, with one exception.  The verb `noise` also takes the word
`overlap`, which says nothing and is looked for first.  Like any word of a script it ends where the
characters of names end, and blanks between arguments may be left out, so `overlap/bang.wav` is this
word with the address `/bang.wav` behind it.

* `exists_record_of_address`: what the command of an address is behind each of the verbs;
* `ofScript?_address`: the command is about the whole address exactly if nothing is lost, and about
  the rest of it otherwise.
-/

namespace ObjectActions

/-- The verbs that are about an address. -/
def Verb.Addressed (verb : Verb) : Prop := verb ∈ [sound, url, noise, picture, media]

namespace Script

open Grammar

variable {verb : Verb} {text : List Char}

/-- Whether the front of an address is taken for the word `overlap` of the verb `noise`. -/
def LosesFront (verb : Verb) (text : List Char) : Prop :=
  verb = .noise ∧ text.takeWhile Text.isNameChar = "overlap".toList

instance (verb : Verb) (text : List Char) : Decidable (LosesFront verb text) :=
  inferInstanceAs (Decidable (_ ∧ _))

/-- What a verb makes of an address. -/
def keptOf (verb : Verb) (text : List Char) : List Char :=
  if LosesFront verb text then text.dropWhile Text.isNameChar else text

/-- What an address sets, if anything is kept of it. -/
def settingsOf (verb : Verb) (mem : .resource ∈ verb.attributes) (text : List Char) :
    List (Setting verb.attributes) :=
  (nonempty? (String.ofList (keptOf verb text))).toList.map (⟨.resource, ·, mem⟩)

theorem keptOf_of_losesFront (h : LosesFront verb text) :
    keptOf verb text = text.dropWhile Text.isNameChar := if_pos h

theorem keptOf_of_not_losesFront (h : ¬ LosesFront verb text) : keptOf verb text = text := if_neg h

/-- Behind the word `overlap` nothing is taken for that word again. -/
theorem not_losesFront_dropWhile (text : List Char) :
    ¬ LosesFront verb (text.dropWhile Text.isNameChar) := by
  rintro ⟨-, hfront⟩
  have hnil : (text.dropWhile Text.isNameChar).takeWhile Text.isNameChar = [] := by
    cases hrest : text.dropWhile Text.isNameChar with
    | nil => rfl
    | cons c rest =>
        have hc := List.head?_dropWhile_not Text.isNameChar text
        rw [hrest] at hc
        rw [List.takeWhile_cons_of_neg (by simpa using hc)]
  rw [hnil] at hfront
  exact absurd hfront (by decide)

/-- An address is kept whole exactly if it does not lose its front. -/
theorem keptOf_eq_self_iff : keptOf verb text = text ↔ ¬ LosesFront verb text := by
  refine ⟨fun h hloses => ?_, keptOf_of_not_losesFront⟩
  rw [keptOf_of_losesFront hloses] at h
  have hsplit := List.takeWhile_append_dropWhile (p := Text.isNameChar) (l := text)
  rw [h, hloses.2] at hsplit
  exact absurd (List.append_left_eq_self.mp hsplit) (by decide)

/-! ## Reading one argument -/

theorem read?_parameter_of_notMem {α : Type} (p : Parameter) (value : Grammar Rule α)
    (hequals : '=' ∉ text) : (parameter p value).read? text = none := by
  rw [read?_parameter]
  cases hkey : afterKey? p.key text with
  | none => rfl
  | some rest =>
      obtain ⟨key, behind, tail, rfl, -, hbehind, -⟩ := exists_of_afterKey? hkey
      have hmem : '=' ∈ behind := (skipBlanks_isSuffix behind).subset (by simp [hbehind])
      exact absurd (List.mem_append_right key hmem) hequals

theorem read?_address (haddress : IsSolid text) :
    address.read? text = some (String.ofList text, []) :=
  read?_row_self .resourceTarget haddress

theorem read?_overlap (text : List Char) :
    (ignored (flag .overlapFlag "overlap") : Grammar Rule (Argument verb)).read? text =
      if text.takeWhile Text.isNameChar = "overlap".toList then
        some (none, text.dropWhile Text.isNameChar)
      else none := by
  have hword (word : List Char) : String.ofList word = "overlap" ↔ word = "overlap".toList := by
    rw [← String.toList_inj, String.toList_ofList]
  rw [ignored, read?_map, flag, read?_word]
  by_cases h : text.takeWhile Text.isNameChar = "overlap".toList
  · rw [if_pos ((hword _).mpr h), if_pos h]
    rfl
  · rw [if_neg (mt (hword _).mp h), if_neg h]
    rfl

/-- A grammar that reads addresses without an equals sign as a verb does. -/
structure ReadsAddress (verb : Verb) (mem : .resource ∈ verb.attributes)
    (argument : Grammar Rule (Argument verb)) : Prop where
  productive : argument.Productive
  read? : ∀ ⦃text⦄, IsSolid text → '=' ∉ text → argument.read? text =
    if LosesFront verb text then some (none, text.dropWhile Text.isNameChar)
    else some (some ⟨.resource, String.ofList text, mem⟩, [])

/-- A verb that is about an address takes it as one argument of any number, or as its only one if
it loses nothing. -/
theorem exists_readsAddress (hverb : verb.Addressed) :
    ∃ mem argument, ReadsAddress verb mem argument ∧
      (verbArguments verb = manyArguments (.verb verb) argument ∨
        verb ≠ .noise ∧ verbArguments verb = oneArgument (.verb verb) argument) := by
  have hprod : address.Productive := productive_row _ _
  simp only [Verb.Addressed, List.mem_cons, List.not_mem_nil, or_false] at hverb
  rcases hverb with rfl | rfl | rfl | rfl | rfl
  case inl | inr.inl =>
    refine ⟨by decide, _, ?_, .inr ⟨by decide, rfl⟩⟩
    refine ⟨hprod.map _, fun text haddress _ => ?_⟩
    rw [sets, read?_map, read?_address haddress, if_neg fun h => absurd h.1 (by decide)]
    rfl
  case inr.inr.inl =>
    have hflag : (flag .overlapFlag "overlap").Productive := productive_token rfl
    refine ⟨by decide, _, ?_, .inl rfl⟩
    refine ⟨(hflag.map _).choice (hprod.map _), fun text haddress _ => ?_⟩
    rw [orElse_eq_choice, Grammar.read?, read?_overlap]
    by_cases h : text.takeWhile Text.isNameChar = "overlap".toList
    · rw [if_pos h, if_pos ⟨rfl, h⟩]
    · rw [if_neg h, if_neg fun hloses => h hloses.2, sets, read?_map, read?_address haddress]
      rfl
  all_goals
    refine ⟨by decide, _, ?_, .inl rfl⟩
    refine ⟨((productive_parameter _ _).map _).choice
      (((productive_parameter _ _).map _).choice (hprod.map _)), fun text haddress hequals => ?_⟩
    simp only [orElse_eq_choice, Grammar.read?, target, sets,
      read?_parameter_of_notMem _ _ hequals, read?_address haddress]
    rw [if_neg fun h => absurd h.1 (by decide)]

/-! ## Reading all arguments -/

section Arguments

variable {mem : .resource ∈ verb.attributes} {argument : Grammar Rule (Argument verb)}

theorem settingsOf_of_not_losesFront (haddress : IsSolid text) (h : ¬ LosesFront verb text) :
    settingsOf verb mem text = [⟨.resource, String.ofList text, mem⟩] := by
  rw [settingsOf, keptOf_of_not_losesFront h, nonempty?_ofList, if_neg haddress.1]
  rfl

theorem ReadsAddress.items_of_not_losesFront (h : ReadsAddress verb mem argument)
    (haddress : IsSolid text) (hequals : '=' ∉ text) (hwhole : ¬ LosesFront verb text) :
    items argument text = ([some ⟨.resource, String.ofList text, mem⟩], []) := by
  have hread := h.read? haddress hequals
  rw [if_neg hwhole] at hread
  have hskip := congrArg argument.read? haddress.skipBlanks
  rw [items_of_some h.productive (hskip.trans hread), items_of_none h.productive.read?_nil]

/-- Reading any number of arguments takes the whole address. -/
theorem ReadsAddress.items (h : ReadsAddress verb mem argument) (haddress : IsSolid text)
    (hequals : '=' ∉ text) :
    (items argument text).2 = [] ∧
      (items argument text).1.filterMap id = settingsOf verb mem text := by
  by_cases hloses : LosesFront verb text
  · have hread := h.read? haddress hequals
    rw [if_pos hloses] at hread
    have hskip := congrArg argument.read? haddress.skipBlanks
    rw [items_of_some h.productive (hskip.trans hread), settingsOf, keptOf_of_losesFront hloses]
    have hagain : ¬ LosesFront verb (text.dropWhile Text.isNameChar) :=
      not_losesFront_dropWhile text
    have hsuffix : text.dropWhile Text.isNameChar <:+ text := List.dropWhile_suffix _
    generalize text.dropWhile Text.isNameChar = rest at hagain hsuffix
    by_cases hnil : rest = []
    · rw [hnil, items_of_none h.productive.read?_nil]
      exact ⟨rfl, rfl⟩
    · have hrest : IsSolid rest := ⟨hnil, fun c hc => haddress.2 c (hsuffix.subset hc)⟩
      have hitems := h.items_of_not_losesFront hrest (fun hc => hequals (hsuffix.subset hc)) hagain
      rw [hitems, nonempty?_ofList, if_neg hnil]
      exact ⟨rfl, rfl⟩
  · rw [h.items_of_not_losesFront haddress hequals hloses,
      settingsOf_of_not_losesFront haddress hloses]
    exact ⟨rfl, rfl⟩

/-- The arguments of a verb behind which an address stands. -/
theorem exists_arguments_of_address (hverb : verb.Addressed) :
    ∃ mem, ∀ ⦃text⦄, IsSolid text → '=' ∉ text →
      ∃ arguments, (verbArguments verb).read? (verb.word.toList ++ ' ' :: text) =
          some (arguments, []) ∧ arguments.filterMap id = settingsOf verb mem text := by
  obtain ⟨mem, argument, hargument, hgrammar⟩ := exists_readsAddress hverb
  refine ⟨mem, fun text haddress hequals => ?_⟩
  have hkeyword : (keyword (.verb verb)).read? (verb.word.toList ++ ' ' :: text) =
      some ((), ' ' :: text) := read?_keyword_self (.verb verb) text
  have hskip : Text.skipBlanks (' ' :: text) = text := by
    rw [Text.skipBlanks_cons_of_isBlank (by decide), haddress.skipBlanks]
  rcases hgrammar with hmany | ⟨hverb, hone⟩
  · obtain ⟨hrest, hsettings⟩ := hargument.items haddress hequals
    refine ⟨_, ?_, hsettings⟩
    rw [hmany, manyArguments, read?_seqRight, hkeyword, Option.bind_some, hskip, read?_many, ← hrest]
  · have hwhole : ¬ LosesFront verb text := fun h => hverb h.1
    have hread := hargument.read? haddress hequals
    rw [if_neg hwhole] at hread
    refine ⟨[some ⟨.resource, String.ofList text, mem⟩], ?_,
      (settingsOf_of_not_losesFront haddress hwhole).symm⟩
    rw [hone, oneArgument, read?_map, read?_seqRight, hkeyword, Option.bind_some, hskip,
      read?_optional, hread]
    rfl

end Arguments

/-! ## The command -/

/-- **One address.**  Behind a trigger and a verb, an address gives the command that is about what
the verb keeps of it. -/
theorem exists_record_of_address (hverb : verb.Addressed) {address : String}
    (haddress : IsSolid address.toList) (hequals : '=' ∉ address.toList) :
    ∃ record : Record verb.attributes,
      (∀ trigger : Trigger,
        Action.ofScript? (trigger.name ++ " " ++ (verb.word ++ " " ++ address)) =
          some [⟨trigger, [some (.act verb record)]⟩]) ∧
      (∀ a, a ≠ .resource → record.get? a = none) ∧
      record.get? .resource = nonempty? (String.ofList (keptOf verb address.toList)) := by
  obtain ⟨mem, hread⟩ := exists_arguments_of_address hverb
  obtain ⟨arguments, harguments, hsettings⟩ := hread haddress hequals
  have hnodup : ((settingsOf verb mem address.toList).map Setting.name).Nodup := by
    unfold settingsOf
    cases nonempty? (String.ofList (keptOf verb address.toList)) <;> simp
  obtain ⟨record, hrecord, hget⟩ := Record.ofSettings_of_nodup hnodup
  refine ⟨record, fun trigger => ?_, fun a ha => ?_, ?_⟩
  · have hclause : (namedClause (.verb verb)).read? (verb.word.toList ++ ' ' :: address.toList) =
        some (.act verb (settingsOf verb mem address.toList), []) := by
      rw [namedClause, read?, read?_map, harguments, Option.map_some, hsettings]
    have hclean : ∀ c ∈ address.toList, Text.isNoise c = false :=
      fun c hc => isNoise_of_isAddressChar (haddress.2 c hc)
    have hscript := ofScript?_keyword trigger hclean hclause rfl
    simp only [Statement.command?, Statement.command, hrecord] at hscript
    exact hscript
  · refine Option.eq_none_iff_forall_ne_some.mpr fun v hv => ?_
    obtain ⟨_, hmem⟩ := (hget a v).mp hv
    obtain ⟨_, -, heq⟩ := List.mem_map.mp hmem
    exact ha (congrArg Setting.name heq).symm
  · refine Option.ext fun v => ?_
    rw [hget]
    simp [settingsOf, mem]

/-- **Addresses.**  Behind a verb that is about an address, any address without an equals sign
gives one command that sets nothing but its resource, and this resource is the whole address
exactly if its front is not taken for the word `overlap`.  If it is, the resource is what follows
this word, if anything does. -/
theorem ofScript?_address (hverb : verb.Addressed) {address : String} (hne : address ≠ "")
    (haddress : ∀ c ∈ address.toList, Text.isAddressChar c = true)
    (hequals : '=' ∉ address.toList) :
    ∃ record : Record verb.attributes,
      Action.ofScript? ("create " ++ verb.word ++ " " ++ address) =
        some [⟨.create, [some (.act verb record)]⟩] ∧
      (∀ a, a ≠ .resource → record.get? a = none) ∧
      (record.get? .resource = some address ↔ ¬ LosesFront verb address.toList) ∧
      (LosesFront verb address.toList → record.get? .resource =
        nonempty? (String.ofList (address.toList.dropWhile Text.isNameChar))) := by
  have hnil : address.toList ≠ [] := by
    intro hnil
    exact hne (String.toList_inj.mp hnil)
  obtain ⟨record, hscript, hothers, hresource⟩ :=
    exists_record_of_address hverb ⟨hnil, haddress⟩ hequals
  have hkept : nonempty? (String.ofList (keptOf verb address.toList)) = some address ↔
      keptOf verb address.toList = address.toList := by
    rw [nonempty?_ofList]
    split
    · next hempty => simp [hempty, hnil.symm]
    · rw [Option.some.injEq, ← String.toList_inj, String.toList_ofList]
  refine ⟨record, ?_, hothers, ?_, ?_⟩
  · have hcreate := hscript .create
    rwa [← String.append_assoc, ← String.append_assoc] at hcreate
  · rw [hresource, hkept, keptOf_eq_self_iff]
  · intro hloses
    rw [hresource, keptOf_of_losesFront hloses]

/-- A longer name that begins like the word `overlap` is not lost. -/
theorem ofScript?_address_of_longer_name :
    ∃ record : Record Verb.noise.attributes,
      Action.ofScript? "create noise overlapping/bell.wav" =
        some [⟨.create, [some (.act .noise record)]⟩] ∧
      record.get? .resource = some "overlapping/bell.wav" := by
  obtain ⟨record, hscript, -, hwhole, -⟩ :=
    @ofScript?_address .noise (by simp [Verb.Addressed]) "overlapping/bell.wav" (by decide)
      (List.all_eq_true.mp (by decide)) (by decide)
  exact ⟨record, hscript, hwhole.mpr (by decide)⟩

/-- What is written as `overlap/bang.wav` could be an address without an equals sign, and it is not
the word `overlap` by itself, but the noise is about `/bang.wav`. -/
theorem noise_loses_front_of_address :
    ("overlap/bang.wav" ≠ "" ∧ "overlap/bang.wav" ≠ "overlap" ∧
      (∀ c ∈ "overlap/bang.wav".toList, Text.isAddressChar c = true) ∧
      '=' ∉ "overlap/bang.wav".toList) ∧
    (∃ record : Record Verb.noise.attributes,
      Action.ofScript? "create noise overlap/bang.wav" =
        some [⟨.create, [some (.act .noise record)]⟩] ∧
      record.get? .resource = some "/bang.wav") ∧
    ¬ ∃ record : Record Verb.noise.attributes,
      Action.ofScript? "create noise overlap/bang.wav" =
        some [⟨.create, [some (.act .noise record)]⟩] ∧
      record.get? .resource = some "overlap/bang.wav" := by
  obtain ⟨record, hscript, -, hresource⟩ :=
    @exists_record_of_address .noise (by simp [Verb.Addressed]) "overlap/bang.wav" (by decide)
      (by decide)
  have hcreate : Action.ofScript? "create noise overlap/bang.wav" =
      some [⟨.create, [some (.act .noise record)]⟩] := hscript .create
  have hkept : record.get? .resource = some "/bang.wav" := hresource.trans (by decide)
  refine ⟨⟨by decide, by decide, List.all_eq_true.mp (by decide), by decide⟩,
    ⟨record, hcreate, hkept⟩, ?_⟩
  rintro ⟨other, hother, hwhole⟩
  rw [hcreate] at hother
  simp only [Option.some.injEq, List.cons.injEq, Action.mk.injEq, Command.act.injEq, heq_eq_eq,
    true_and, and_true] at hother
  rw [← hother, hkept] at hwhole
  exact absurd hwhole (by decide)

end Script

end ObjectActions
