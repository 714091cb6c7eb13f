import Mathlib.Data.List.Chain
import Mathlib.Data.List.Pairwise
import ObjectActions.Proofs.Attribute.Settings
import ObjectActions.Proofs.Script.Composition
import ObjectActions.Proofs.Script.Dispatch
import ObjectActions.Proofs.Script.Refusal

/-!
# Arguments in any order

A script of one trigger, one verb and some arguments gives one command, and this command has
exactly the attributes that the arguments set, in whatever order they are written and with
whatever blanks between them.  The arguments may be all that spells a usage of the
verb, as long as no two of them set the same attribute.

Two arguments next to each other could be mixed up only if the first one is a list of numbers
and the second one begins with a number, or if the first one could be a key and the second one
begins with an equals sign.  In both cases the two would have to set the same attribute
(`Token.admits`), which is what keeps the arguments of a verb apart.
-/

namespace ObjectActions

namespace Script

open Grammar

variable {verb : Verb}

/-! ## Arguments as they are written -/

/-- An argument as it is written behind a verb. -/
structure Token (verb : Verb) where
  text : List Char
  said : Argument verb
  usage : Usage verb
  mem : usage ∈ verb.usages
  spells : usage.Spells text said
  plain : ∀ a member value? mem, usage = .row a member value? mem → Plain verb text

/-- One blank or more. -/
structure Gap where
  blanks : List Char
  ne_nil : blanks ≠ []
  all_blank : blanks.all Text.isBlank

/-- Whether two arguments set different attributes. -/
def Token.Apart (first second : Token verb) : Prop :=
  ∀ s ∈ first.said, ∀ t ∈ second.said, s.name ≠ t.name

/-- Arguments, each behind blanks. -/
def spacedOut (spaced : List (Gap × Token verb)) : List Char :=
  spaced.flatMap fun entry => entry.1.blanks ++ entry.2.text

@[simp] theorem spacedOut_nil : spacedOut ([] : List (Gap × Token verb)) = [] := rfl

@[simp] theorem spacedOut_cons (gap : Gap) (token : Token verb)
    (spaced : List (Gap × Token verb)) :
    spacedOut ((gap, token) :: spaced) = gap.blanks ++ (token.text ++ spacedOut spaced) := by
  simp [spacedOut]

theorem Gap.skipBlanks_append (gap : Gap) (text : List Char) :
    Text.skipBlanks (gap.blanks ++ text) = Text.skipBlanks text :=
  Text.skipBlanks_append_of_eq_nil (Text.skipBlanks_eq_nil_iff.mpr gap.all_blank) text

theorem Gap.stops (gap : Gap) (text : List Char) : Stops (gap.blanks ++ text) := by
  intro c hc
  obtain ⟨d, further, heq⟩ := List.exists_cons_of_ne_nil gap.ne_nil
  have hall := List.all_eq_true.mp gap.all_blank d (by simp [heq])
  rw [heq, List.cons_append, List.head?_cons, Option.mem_some] at hc
  exact hc ▸ hall

theorem stops_spacedOut (spaced : List (Gap × Token verb)) : Stops (spacedOut spaced) := by
  cases spaced with
  | nil => simp [Stops]
  | cons entry spaced =>
      obtain ⟨gap, token⟩ := entry
      rw [spacedOut_cons]
      exact gap.stops _

/-! ## How arguments begin -/

/-- Whether what spells a usage can begin with a character. -/
def Usage.Begins : Usage verb → Char → Prop
  | .row _ member _ _, c => member c = true
  | .numbers _ _ _, c => beginsNumber c = true
  | .quotation _ _ _, c => c = '"'
  | _, c => c.isAlpha = true

theorem Usage.Spells.exists_cons {usage : Usage verb} {text : List Char} {said : Argument verb}
    (hregular : usage.Regular) (h : usage.Spells text said) :
    ∃ c rest, text = c :: rest ∧ usage.Begins c := by
  cases h with
  | @parameter p _ key before after text value hkey =>
      have hletters := isAlpha_of_lower_eq hkey (isAlpha_of_mem_key p)
      cases key with
      | nil => exact absurd hkey (by cases p <;> decide)
      | cons c key => exact ⟨c, _, rfl, hletters c List.mem_cons_self⟩
  | @word a table mem word value hmem =>
      have hrow := hregular word (List.mem_map_of_mem hmem)
      obtain ⟨c, rest, heq⟩ := List.exists_cons_of_ne_nil hrow.1
      exact ⟨c, rest, heq, hrow.2 c (by simp [heq])⟩
  | row hrow =>
      obtain ⟨c, rest, heq⟩ := List.exists_cons_of_ne_nil hrow.1
      exact ⟨c, rest, heq, hrow.2 c (by simp [heq])⟩
  | numbers hlist => exact hlist.exists_cons
  | quotation => exact ⟨'"', _, rfl, rfl⟩

theorem isBlank_of_isAlpha {c : Char} (h : c.isAlpha = true) : Text.isBlank c = false :=
  isBlank_of_isAddressChar (isAddressChar_of_isNameChar (isNameChar_of_isAlpha h))

theorem Usage.Begins.not_isBlank {usage : Usage verb} {c : Char} (h : usage.Begins c)
    (hregular : usage.Regular) : Text.isBlank c = false := by
  cases usage with
  | parameter | word => exact isBlank_of_isAlpha h
  | row => exact isBlank_of_isAddressChar (hregular.1 c h)
  | numbers => exact isBlank_of_beginsNumber h
  | quotation =>
      rw [show c = '"' from h]
      decide

theorem Token.skipBlanks_append (hverb : verb.Sortable) (token : Token verb) (rest : List Char) :
    Text.skipBlanks (token.text ++ rest) = token.text ++ rest := by
  have hregular := regular_of_sortable hverb _ token.mem
  obtain ⟨c, further, heq, hc⟩ := token.spells.exists_cons hregular
  rw [heq, List.cons_append]
  exact Text.skipBlanks_cons_of_not (hc.not_isBlank hregular) _

theorem Usage.admits_of_isAlpha (usage : Usage verb) {c : Char} (h : c.isAlpha = true) :
    usage.Admits c := by
  have hequals : c ≠ '=' := by
    rintro rfl
    exact absurd h (by decide)
  cases usage with
  | parameter | quotation => trivial
  | word => exact hequals
  | row => exact ⟨hequals, fun _ => h⟩
  | numbers =>
      cases hbegins : beginsNumber c with
      | false => exact hbegins
      | true => exact absurd h (by simp [not_isAlpha_of_beginsNumber hbegins])

/-! ## What keeps arguments apart -/

/-- Of two usages of a verb one comes before the other. -/
theorem precedes_or_precedes (hverb : verb.Sortable) {first second : Usage verb}
    (hfirst : first ∈ verb.usages) (hsecond : second ∈ verb.usages) (hne : first ≠ second) :
    first.Precedes second ∨ second.Precedes first := by
  have hordered : verb.usages.Pairwise fun a b => Usage.Precedes a b ∨ Usage.Precedes b a :=
    (precedes_of_sortable hverb).imp .inl
  have hsymm : Std.Symm fun a b : Usage verb => Usage.Precedes a b ∨ Usage.Precedes b a :=
    ⟨fun _ _ h => h.symm⟩
  exact hordered.forall hfirst hsecond hne

/-- Whether what spells a usage might be continued by what follows it. -/
def Usage.Extensible : Usage verb → Prop
  | .row _ member _ _ => member '=' = true
  | .numbers _ _ _ => True
  | _ => False

/-- What might be continued always sets the attribute of its usage. -/
theorem Usage.Spells.exists_setting {usage : Usage verb} {text : List Char}
    {said : Argument verb} (hregular : usage.Regular) (hextensible : usage.Extensible)
    (h : usage.Spells text said) : ∃ setting, said = some setting ∧ setting.name = usage.subject := by
  obtain ⟨setting, rfl⟩ : ∃ setting, said = some setting := by
    cases h with
    | parameter | word | quotation => exact hextensible.elim
    | @row a member value? mem text hrow =>
        obtain ⟨v, hv⟩ := Option.isSome_iff_exists.mp (hregular.2 hextensible (String.ofList text))
        exact ⟨⟨a, v, mem⟩, by rw [hv]; rfl⟩
    | numbers => exact ⟨_, rfl⟩
  exact ⟨setting, rfl, h.name⟩

theorem Usage.Begins.admits_of_precedes {first second : Usage verb} {c : Char}
    (hbegins : second.Begins c) (hprecedes : first.Precedes second) : first.Admits c := by
  cases second with
  | parameter | word => exact Usage.admits_of_isAlpha _ hbegins
  | row a member value? mem =>
      cases first with
      | parameter => trivial
      | word =>
          rintro rfl
          exact absurd (hprecedes '=' hbegins) (by decide)
      | row | numbers | quotation => exact hprecedes.elim
  | numbers =>
      cases first with
      | parameter => trivial
      | word =>
          rintro rfl
          exact absurd (show beginsNumber '=' = true from hbegins) (by decide)
      | row | numbers | quotation => exact hprecedes.elim
  | quotation =>
      cases first with
      | parameter => trivial
      | word =>
          rintro rfl
          exact absurd (show '=' = '"' from hbegins) (by decide)
      | row | numbers | quotation => exact hprecedes.elim

/-- Whether an argument does not look like a continuation of the one before it. -/
def Token.AdmitsNext (first second : Token verb) : Prop :=
  ∀ c ∈ second.text.head?, first.usage.Admits c

/-- An argument that sets another attribute than the one before it does not look like
a continuation of it. -/
theorem Token.admits (hverb : verb.Sortable) {first second : Token verb}
    (hapart : first.Apart second) : first.AdmitsNext second := by
  intro c hc
  have hregular := regular_of_sortable hverb
  obtain ⟨d, further, heq, hbegins⟩ := second.spells.exists_cons (hregular _ second.mem)
  rw [heq, List.head?_cons, Option.mem_some] at hc
  subst hc
  by_cases hsame : first.usage = second.usage
  · have hextensible : ¬ first.usage.Extensible := by
      intro hextensible
      obtain ⟨s, hs, hsname⟩ :=
        first.spells.exists_setting (hregular _ first.mem) hextensible
      obtain ⟨t, ht, htname⟩ :=
        second.spells.exists_setting (hregular _ second.mem) (hsame ▸ hextensible)
      exact hapart s hs t ht (by rw [hsname, htname, hsame])
    rw [← hsame] at hbegins
    cases hfirst : first.usage with
    | parameter | quotation => trivial
    | word =>
        rw [hfirst] at hbegins
        exact Usage.admits_of_isAlpha _ hbegins
    | row a member value? mem =>
        rw [hfirst] at hbegins hextensible
        refine ⟨?_, fun hmember => absurd hmember hextensible⟩
        rintro rfl
        exact hextensible hbegins
    | numbers =>
        rw [hfirst] at hextensible
        exact absurd trivial hextensible
  · rcases precedes_or_precedes hverb first.mem second.mem hsame with hprecedes | hprecedes
    · exact hbegins.admits_of_precedes hprecedes
    · generalize first.usage = usage at hprecedes ⊢
      generalize second.usage = other at hprecedes hbegins
      cases other with
      | parameter | word => exact Usage.admits_of_isAlpha _ hbegins
      | row | numbers | quotation => cases usage <;> exact hprecedes.elim

/-! ## Reading all arguments -/

variable {argument : Grammar Rule (Argument verb)}

/-- Arguments that do not look like continuations are read one after the other. -/
theorem items_spacedOut (hargument : Realized argument verb.usages) (hverb : verb.Sortable)
    (spaced : List (Gap × Token verb))
    (hchain : (spaced.map Prod.snd).IsChain Token.AdmitsNext) :
    (items argument (spacedOut spaced)).1 = spaced.map (·.2.said) ∧
      Text.skipBlanks (items argument (spacedOut spaced)).2 = [] := by
  have hprod : argument.Productive := hargument.choices.productive (takes_of_mem_forms verb)
  induction spaced with
  | nil =>
      rw [spacedOut_nil, items_of_none hprod.read?_nil]
      exact ⟨rfl, rfl⟩
  | cons entry spaced ih =>
      obtain ⟨gap, token⟩ := entry
      rw [List.map_cons, List.isChain_cons] at hchain
      have hfollows : token.usage.Follows (spacedOut spaced) := by
        refine ⟨stops_spacedOut spaced, ?_⟩
        cases spaced with
        | nil => simp
        | cons entry spaced =>
            obtain ⟨gap', next⟩ := entry
            obtain ⟨c, rest, hnext, -⟩ := next.spells.exists_cons (regular_of_sortable hverb _ next.mem)
            intro d hd
            rw [spacedOut_cons, gap'.skipBlanks_append, next.skipBlanks_append hverb, hnext] at hd
            exact hchain.1 next (by simp) d (by simpa [hnext] using hd)
      obtain ⟨last, hread, hlast⟩ :=
        read?_spelled hargument hverb token.mem token.spells token.plain hfollows
      have hskip : Text.skipBlanks (spacedOut ((gap, token) :: spaced)) =
          token.text ++ spacedOut spaced := by
        rw [spacedOut_cons, gap.skipBlanks_append, token.skipBlanks_append hverb]
      have hitems := items_skipBlanks hprod last
      have hitems' := items_skipBlanks hprod (spacedOut spaced)
      rw [hlast] at hitems
      obtain ⟨hvalues, hrest⟩ := ih hchain.2
      rw [items_of_some hprod (hskip ▸ hread), List.map_cons]
      refine ⟨?_, ?_⟩
      · rw [← hitems.1, hitems'.1, hvalues]
      · rw [← hitems.2, hitems'.2, hrest]

/-! ## Reading the script -/

/-- A script of one trigger and one verb with arguments. -/
def oneCommand (trigger : List Char) (gap : Gap) (verb : List Char) {kind : Verb}
    (spaced : List (Gap × Token kind)) : List Char :=
  trigger ++ (gap.blanks ++ (verb ++ spacedOut spaced))

theorem usages_ne_nil_of_sortable (hverb : verb.Sortable) : verb.usages ≠ [] := by
  cases verb <;> simp [Verb.Sortable] at hverb <;> simp [Verb.usages]

/-- A word of letters that is set off by a blank is a whole word. -/
theorem takeWhile_isNameChar_append {word rest : List Char}
    (hword : ∀ c ∈ word, c.isAlpha = true) (hrest : Stops rest) :
    (word ++ rest).takeWhile Text.isNameChar = word ∧
      (word ++ rest).dropWhile Text.isNameChar = rest := by
  have hname : ∀ c ∈ word, Text.isNameChar c = true := fun c hc => isNameChar_of_isAlpha (hword c hc)
  have hstop := hrest.not_member fun _ => isAddressChar_of_isNameChar
  exact ⟨Text.takeWhile_append_of_stop hname hstop, Text.dropWhile_append_of_stop hname hstop⟩

theorem read?_statement {text last : List Char} {said : Clause}
    (h : clause.read? text = some (said, last)) :
    statement.read? text =
      some (⟨String.ofList (text.take (text.length - last.length)), said⟩, last) := by
  rw [statement, read?_map, read?, h]
  rfl

theorem read?_statement_spacedOut (hverb : verb.Sortable) {word : List Char}
    (hword : Text.lower word = verb.word.toList) (spaced : List (Gap × Token verb))
    (hchain : (spaced.map Prod.snd).IsChain Token.AdmitsNext) :
    ∃ text last, statement.read? (word ++ spacedOut spaced) =
        some (⟨text, .act verb ((spaced.map (·.2.said)).filterMap id)⟩, last) ∧
      Text.skipBlanks last = [] := by
  obtain ⟨argument, harguments, hargument⟩ := exists_realized (usages_ne_nil_of_sortable hverb)
  have hprod : argument.Productive := hargument.choices.productive (takes_of_mem_forms verb)
  have hletters := isAlpha_of_lower_eq hword (Keyword.isAlpha_of_mem_word (.verb verb))
  obtain ⟨htake, hdrop⟩ := takeWhile_isNameChar_append hletters (stops_spacedOut spaced)
  have hfront : frontWord (word ++ spacedOut spaced) = (Keyword.verb verb).word.toList := by
    rw [frontWord, htake]
    exact hword
  obtain ⟨hvalues, hrest⟩ := items_spacedOut hargument hverb spaced hchain
  have hskip := items_skipBlanks hprod (spacedOut spaced)
  have hread : (namedClause (.verb verb)).read? (word ++ spacedOut spaced) =
      some (.act verb ((spaced.map (·.2.said)).filterMap id),
        (items argument (Text.skipBlanks (spacedOut spaced))).2) := by
    rw [namedClause, read?, read?_map, harguments, manyArguments, read?_seqRight, read?_keyword,
      if_pos hfront, hdrop]
    simp only [Option.bind_some, read?_many, Option.map_some, hskip.1, hvalues]
  have hclause := read?_clause_of_frontWord hfront hread
  exact ⟨_, _, read?_statement hclause, hskip.2.trans hrest⟩

theorem lower_triggerName (trigger : Trigger) :
    Text.lower trigger.name.toList = trigger.name.toList := by
  cases trigger <;> decide

theorem ofKeyword?_of_lower_eq {trigger : Trigger} {word : List Char}
    (h : Text.lower word = trigger.name.toList) :
    Trigger.ofKeyword? (String.ofList word) = some trigger := by
  simp only [Trigger.ofKeyword?, Text.alike, String.toList_ofList, h, lower_triggerName]
  cases trigger <;> decide

theorem isAlpha_of_mem_trigger (trigger : Trigger) :
    ∀ c ∈ trigger.name.toList, c.isAlpha = true :=
  List.all_eq_true.mp (by cases trigger <;> decide)

theorem listing_of_single {α : Type} {mark : String} {c : Char} {item : Grammar Rule α}
    (hmark : mark.toList = [c]) (hc : Text.isSeparator c) {text last : List Char} {value : α}
    (hread : item.read? text = some (value, last)) (hlast : Text.skipBlanks last = []) :
    listing mark item text = ([value], []) := by
  rw [listing_of_end hmark hc hread (by simp [hlast]), hlast]

/-- A script of arguments that do not look like continuations is one statement. -/
theorem written?_oneCommand_of_isChain (hverb : verb.Sortable) {trigger : Trigger}
    {triggerWord verbWord : List Char} (gap : Gap)
    (htrigger : Text.lower triggerWord = trigger.name.toList)
    (hword : Text.lower verbWord = verb.word.toList) (spaced : List (Gap × Token verb))
    (hchain : (spaced.map Prod.snd).IsChain Token.AdmitsNext) :
    ∃ text, written? (oneCommand triggerWord gap verbWord spaced) =
      some [⟨trigger, [⟨text, .act verb ((spaced.map (·.2.said)).filterMap id)⟩]⟩] := by
  obtain ⟨text, last, hread, hlast⟩ := read?_statement_spacedOut hverb hword spaced hchain
  have hletters := isAlpha_of_lower_eq htrigger (isAlpha_of_mem_trigger trigger)
  have hverbLetters := isAlpha_of_lower_eq hword (Keyword.isAlpha_of_mem_word (.verb verb))
  obtain ⟨htake, hdrop⟩ :=
    takeWhile_isNameChar_append hletters (gap.stops (verbWord ++ spacedOut spaced))
  have hskipVerb : Text.skipBlanks (verbWord ++ spacedOut spaced) = verbWord ++ spacedOut spaced := by
    cases verbWord with
    | nil => exact absurd hword (by cases verb <;> decide)
    | cons c verbWord =>
        exact Text.skipBlanks_cons_of_not
          (isBlank_of_isAlpha (hverbLetters c List.mem_cons_self)) _
  have hskip : Text.skipBlanks (oneCommand triggerWord gap verbWord spaced) =
      oneCommand triggerWord gap verbWord spaced := by
    cases triggerWord with
    | nil => exact absurd htrigger (by cases trigger <;> decide)
    | cons c triggerWord =>
        exact Text.skipBlanks_cons_of_not (isBlank_of_isAlpha (hletters c List.mem_cons_self)) _
  have hstatements := listing_of_single (show ",".toList = [','] from rfl) rfl hread hlast
  obtain ⟨rest, hrest, hrestSkip⟩ := read?_separatedList "," statement (verbWord ++ spacedOut spaced)
  rw [hstatements] at hrest hrestSkip
  have haction : action.read? (oneCommand triggerWord gap verbWord spaced) =
      some (⟨trigger, [⟨text, .act verb ((spaced.map (·.2.said)).filterMap id)⟩]⟩, rest) := by
    rw [action, read?, read?_map, read?_seq, Script.trigger, oneCommand, read?_word, htake, hdrop,
      ofKeyword?_of_lower_eq htrigger, Option.map_some, Option.bind_some, gap.skipBlanks_append,
      hskipVerb, hrest]
    rfl
  refine ⟨text, ?_⟩
  rw [written?_eq, hskip, listedActions, listing_of_single rfl rfl haction hrestSkip, if_pos rfl]

theorem written?_oneCommand (hverb : verb.Sortable) {trigger : Trigger}
    {triggerWord verbWord : List Char} (gap : Gap)
    (htrigger : Text.lower triggerWord = trigger.name.toList)
    (hword : Text.lower verbWord = verb.word.toList) (spaced : List (Gap × Token verb))
    (hapart : (spaced.map Prod.snd).Pairwise Token.Apart) :
    ∃ text, written? (oneCommand triggerWord gap verbWord spaced) =
      some [⟨trigger, [⟨text, .act verb ((spaced.map (·.2.said)).filterMap id)⟩]⟩] :=
  written?_oneCommand_of_isChain hverb gap htrigger hword spaced
    (hapart.imp (Token.admits hverb)).isChain

/-! ## Nothing is cleaned away -/

theorem isNoise_of_isBlank {c : Char} (h : Text.isBlank c = true) : Text.isNoise c = false := by
  simp only [Text.isBlank, Bool.or_eq_true, beq_iff_eq] at h
  rcases h with ((rfl | rfl) | rfl) | rfl <;> decide

theorem isNoise_of_isAlpha {c : Char} (h : c.isAlpha = true) : Text.isNoise c = false :=
  isNoise_of_isAddressChar (isAddressChar_of_isNameChar (isNameChar_of_isAlpha h))

theorem IsNumberList.not_isNoise {text : List Char} {xs : List Binary64}
    (h : IsNumberList text xs) : ∀ c ∈ text, Text.isNoise c = false := by
  induction h with
  | last h => exact fun c hc => isNoise_of_isAddressChar (h.isSolid.2 c hc)
  | more h hblanks hends hfurther ih =>
      intro c hc
      rcases List.mem_append.mp hc with hc | hc
      · exact isNoise_of_isAddressChar (h.isSolid.2 c hc)
      · rcases List.mem_append.mp hc with hc | hc
        · exact isNoise_of_isBlank (List.all_eq_true.mp hblanks c hc)
        · exact ih c hc

theorem Token.not_isNoise (hverb : verb.Sortable) (token : Token verb) :
    ∀ c ∈ token.text, Text.isNoise c = false := by
  intro c hc
  have hregular := regular_of_sortable hverb _ token.mem
  have hspells := token.spells
  generalize token.text = text at hc hspells
  generalize token.usage = usage at hspells hregular
  generalize token.said = said at hspells
  cases hspells with
  | @parameter p _ key before after value v hkey hbefore hafter hvalue =>
      simp only [List.mem_append, List.mem_cons] at hc
      rcases hc with hc | hc | rfl | hc | hc
      · exact isNoise_of_isAlpha (isAlpha_of_lower_eq hkey (isAlpha_of_mem_key p) c hc)
      · exact isNoise_of_isBlank (List.all_eq_true.mp hbefore c hc)
      · decide
      · exact isNoise_of_isBlank (List.all_eq_true.mp hafter c hc)
      · exact isNoise_of_isAddressChar ((isSolid_of_spells hvalue).2 c hc)
  | @word a table mem word v hmem =>
      exact isNoise_of_isAlpha ((hregular word (List.mem_map_of_mem hmem)).2 c hc)
  | row hrow => exact isNoise_of_isAddressChar (hregular.1 c (hrow.2 c hc))
  | numbers hlist => exact hlist.not_isNoise c hc
  | quotation hquote hnoise =>
      simp only [List.mem_cons, List.mem_append, List.not_mem_nil, or_false] at hc
      rcases hc with rfl | hc | rfl
      · decide
      · exact hnoise c hc
      · decide

theorem clean_oneCommand (hverb : verb.Sortable) {trigger : Trigger}
    {triggerWord verbWord : List Char} (gap : Gap)
    (htrigger : Text.lower triggerWord = trigger.name.toList)
    (hword : Text.lower verbWord = verb.word.toList) (spaced : List (Gap × Token verb)) :
    (Text.clean (String.ofList (oneCommand triggerWord gap verbWord spaced))).toList =
      oneCommand triggerWord gap verbWord spaced := by
  have hletters := isAlpha_of_lower_eq htrigger (isAlpha_of_mem_trigger trigger)
  have hverbLetters := isAlpha_of_lower_eq hword (Keyword.isAlpha_of_mem_word (.verb verb))
  have hgap (gap : Gap) : ∀ c ∈ gap.blanks, Text.isNoise c = false :=
    fun c hc => isNoise_of_isBlank (List.all_eq_true.mp gap.all_blank c hc)
  have hspaced : ∀ c ∈ spacedOut spaced, Text.isNoise c = false := by
    intro c hc
    obtain ⟨entry, -, hentry⟩ := List.mem_flatMap.mp hc
    rcases List.mem_append.mp hentry with hc | hc
    · exact hgap entry.1 c hc
    · exact entry.2.not_isNoise hverb c hc
  rw [Text.clean_ofList, String.toList_ofList]
  intro c hc
  simp only [oneCommand, List.mem_append] at hc
  rcases hc with hc | hc | hc | hc
  · exact isNoise_of_isAlpha (hletters c hc)
  · exact hgap gap c hc
  · exact isNoise_of_isAlpha (hverbLetters c hc)
  · exact hspaced c hc

/-! ## Arguments in any order -/

theorem pairwise_apart_of_nodup {tokens : List (Token verb)}
    (h : (tokens.filterMap fun token => token.said.map Setting.name).Nodup) :
    tokens.Pairwise Token.Apart := by
  rw [List.nodup_iff_pairwise_ne, List.pairwise_filterMap] at h
  refine h.imp fun {first second} hne => ?_
  intro s hs t ht
  refine hne s.name ?_ t.name ?_
  · rw [Option.mem_def.mp hs, Option.map_some]
  · rw [Option.mem_def.mp ht, Option.map_some]

/-- **Arguments in any order.**  Arguments that set different attributes give the command of
their verb with exactly the attributes that they set, in whatever order they are written. -/
theorem ofScript?_oneCommand (hverb : verb.Sortable) (tokens : List (Token verb))
    (hnodup : (tokens.filterMap fun token => token.said.map Setting.name).Nodup) :
    ∃ record : Record verb.attributes,
      (∀ a v, record.get? a = some v ↔
        ∃ token ∈ tokens, ∃ mem, token.said = some ⟨a, v, mem⟩) ∧
      ∀ (trigger : Trigger) (triggerWord verbWord : List Char) (gap : Gap)
        (spaced : List (Gap × Token verb)),
        Text.lower triggerWord = trigger.name.toList →
        Text.lower verbWord = verb.word.toList → (spaced.map Prod.snd).Perm tokens →
        Action.ofScript? (String.ofList (oneCommand triggerWord gap verbWord spaced)) =
          some [⟨trigger, [some (.act verb record)]⟩] := by
  have hsettings : (((tokens.map Token.said).filterMap id).map Setting.name).Nodup := by
    rw [List.filterMap_map, List.map_filterMap]
    exact hnodup
  obtain ⟨record, hrecord, hget⟩ := Record.ofSettings_of_nodup hsettings
  refine ⟨record, fun a v => ?_, ?_⟩
  · rw [hget]
    simp only [List.mem_filterMap, List.mem_map, id_eq, exists_eq_right]
    constructor
    · rintro ⟨mem, token, hmem, heq⟩
      exact ⟨token, hmem, mem, heq⟩
    · rintro ⟨token, hmem, mem, heq⟩
      exact ⟨mem, token, hmem, heq⟩
  · intro trigger triggerWord verbWord gap spaced htrigger hword hperm
    have hapart := pairwise_apart_of_nodup ((hperm.filterMap _).nodup_iff.mpr hnodup)
    have hsame : ((spaced.map (·.2.said)).filterMap id).Perm
        ((tokens.map Token.said).filterMap id) := by
      have hmap := (hperm.map Token.said).filterMap id
      rwa [List.map_map] at hmap
    have hspaced : Record.ofSettings ((spaced.map (·.2.said)).filterMap id) = .ok record := by
      rw [Record.ofSettings_of_perm hsame ((hsame.map Setting.name).nodup_iff.mpr hsettings),
        hrecord]
    obtain ⟨text, hwritten⟩ := written?_oneCommand hverb gap htrigger hword spaced hapart
    rw [Action.ofScript?, clean_oneCommand hverb gap htrigger hword, hwritten]
    simp only [Option.map_some, List.map_cons, List.map_nil, WrittenAction.action,
      Statement.command?, Statement.command, hspaced, Except.map, Except.toOption]

theorem texture_sets_mask : Verb.texture.Sets Parameter.mask.attribute := by decide

theorem texture_sets_texture : Verb.texture.Sets .texture := by decide

/-- The argument `MASK =m`. -/
def maskArgument : Token .texture where
  text := _
  said := _
  usage := .parameter .mask texture_sets_mask
  mem := by simp [Verb.usages]
  spells := @Usage.Spells.parameter _ .mask _ "MASK".toList [' '] [] ['m'] (some "m") (by decide)
    rfl rfl ⟨by decide, rfl⟩
  plain := by simp

/-- The argument `brick`. -/
def textureArgument : Token .texture where
  text := _
  said := _
  usage := .row .texture Text.isNameChar some texture_sets_texture
  mem := by simp [Verb.usages]
  spells := @Usage.Spells.row _ _ _ _ _ "brick".toList (by decide)
  plain := fun _ _ _ _ _ => plain_of_notMem (by decide) (by simp [Verb.usages])

/-- Two arguments and both orders of them. -/
theorem ofScript?_both_orders :
    ∃ record : Record Verb.texture.attributes,
      record.get? .mask = some "m" ∧ record.get? .texture = some "brick" ∧
      Action.ofScript? "Create texture MASK =m brick" =
        some [⟨.create, [some (.act .texture record)]⟩] ∧
      Action.ofScript? "create TEXTURE brick MASK =m" =
        some [⟨.create, [some (.act .texture record)]⟩] := by
  obtain ⟨record, hget, hread⟩ :=
    @ofScript?_oneCommand .texture (by simp [Verb.Sortable]) [maskArgument, textureArgument]
      (by decide)
  let blank : Gap := ⟨[' '], by simp, by decide⟩
  refine ⟨record, (hget .mask "m").mpr ⟨maskArgument, by simp, by decide, rfl⟩,
    (hget .texture "brick").mpr ⟨textureArgument, by simp, by decide, rfl⟩, ?_, ?_⟩
  · exact hread .create "Create".toList "texture".toList blank
      [(blank, maskArgument), (blank, textureArgument)] (by decide) (by decide) (.refl _)
  · exact hread .create "create".toList "TEXTURE".toList blank
      [(blank, textureArgument), (blank, maskArgument)] (by decide) (by decide) (.swap _ _ _)

end Script

end ObjectActions
