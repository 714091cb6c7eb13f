import ObjectActions.Proofs.Script.ArgumentAttempts
import ObjectActions.Proofs.Script.ListReach

/-!
# Names that are never listed together

Some parts have one name for readers although they are different: the two sorts of numbers, and
places with the two sorts of positions in them.  This module shows that such parts are never
reported together by the list of all actions (`apart_actions`):

* the clause in which something is reported begins with its keyword, so only one clause matters
  (`apart_clause`), and only one item of a list does (`apart_separatedList`);
* arguments do not report both sorts of numbers (`apart_numbers`);
* a position is never reported itself, since something inside it is always more telling
  (`not_listsAt_position`).
-/

namespace ObjectActions

/-- Whether a part is one of the parts that clauses are made of, other than keywords. -/
def Rule.IsInner : Rule → Prop
  | .endOfInput | .action | .trigger | .command _ | .keyword _ => False
  | _ => True

namespace Script

open Grammar

variable {α : Type} {c : Char} {item : Grammar Rule α} {name other : Rule}
  {n : Nat} {text : List Char} {k : Keyword}

/-! ## Positions -/

/-- The names of the two sorts of positions. -/
def IsPositionName (name : Rule) : Prop := name = .absoluteCoordinates ∨ name = .relativeCoordinates

instance : Decidable (IsPositionName name) := inferInstanceAs (Decidable (_ ∨ _))

theorem not_listsAt_absolutePosition (hname : IsPositionName name) :
    ¬ ListsAt name n (absolutePosition.failures text) := by
  have htells : (seq (axisNumber .nsCoordinate (axis .nsAxis "n" "s"))
      (axisNumber .ewCoordinate (axis .ewAxis "e" "w"))).Tells :=
    (tells_rule _ _).seq (productive_axisNumber _) (.rule _ _)
  rcases hname with rfl | rfl
  · exact (htells.map _).not_listsAt_rule (by decide)
  · exact Avoids.not_listsAt (by decide)

theorem not_listsAt_relativePosition (hname : IsPositionName name) :
    ¬ ListsAt name n (relativePosition.failures text) := by
  have htells : (seq forcedNumber forcedNumber).Tells :=
    (tells_rule _ _).seq productive_forcedNumber reports_forcedNumber
  rcases hname with rfl | rfl
  · exact Avoids.not_listsAt (by decide)
  · exact (htells.map _).not_listsAt_rule (by decide)

/-- **Positions.**  A place does not report that one of the two sorts of positions is missing. -/
theorem not_listsAt_place (hname : IsPositionName name) :
    ¬ ListsAt name n (place.failures text) := by
  have hne : name ≠ .worldCoordinates := by rcases hname with rfl | rfl <;> decide
  have hbearings : (seq (.optional altitude) (.optional direction)).Avoids name := by
    rcases hname with rfl | rfl <;> decide
  intro h
  have hbody := h.of_rule_of_ne hne
  change ListsAt name n ((seq (absolutePosition <|> relativePosition)
    (seq (.optional altitude) (.optional direction))).failures text) at hbody
  rcases hbody.of_seq with hposition | ⟨rest, -, hrest⟩
  · rcases hposition.of_choice with habsolute | ⟨-, hrelative⟩
    · exact not_listsAt_absolutePosition hname habsolute
    · exact not_listsAt_relativePosition hname hrelative
  · exact hbearings.not_listsAt hrest

/-! ## Clauses -/

theorem avoids_keyword (h : name.IsInner) (k : Keyword) : (keyword k).Avoids name := by
  rintro rfl
  exact h

/-- Only the clause of the word at the front reports something behind its keyword. -/
theorem frontWord_of_listsAt (hname : name.IsInner)
    (h : ListsAt name n ((namedClause k).failures text)) : frontWord text = k.word.toList := by
  have hcommand : name ≠ .command (.named k) := by
    rintro rfl
    exact hname
  by_cases hk : k = .verb .examine
  · subst hk
    exact absurd (h.of_rule_of_ne hcommand) (avoids_keyword hname _).not_listsAt
  · obtain ⟨β, body, -, -, hfailures⟩ := exists_body hk
    rw [hfailures] at h
    obtain ⟨rest, hrest, -⟩ :=
      (h.of_rule_of_ne hcommand).of_seq.resolve_left (avoids_keyword hname k).not_listsAt
    rw [rest?_keyword] at hrest
    split at hrest
    · assumption
    · cases hrest

theorem exists_of_listsAt_clause (hname : name.IsInner)
    (h : ListsAt name n (clause.failures text)) :
    ∃ k, ListsAt name n ((namedClause k).failures text) := by
  unfold clause at h
  generalize Keyword.all = keywords at h
  induction keywords with
  | nil =>
      obtain ⟨rfl, -⟩ := listsAt_token h
      exact hname.elim
  | cons k keywords ih =>
      rcases h.of_choice with hfirst | ⟨-, hrest⟩
      · exact ⟨k, hfirst⟩
      · exact ih hrest

theorem apart_clause (hname : name.IsInner) (hother : other.IsInner)
    (h : ∀ k, Apart name other (namedClause k)) : Apart name other clause := by
  intro text n hfirst hsecond
  obtain ⟨k, hfirst⟩ := exists_of_listsAt_clause hname hfirst
  obtain ⟨l, hsecond⟩ := exists_of_listsAt_clause hother hsecond
  have hword := (frontWord_of_listsAt hname hfirst).symm.trans (frontWord_of_listsAt hother hsecond)
  obtain rfl : k = l := Keyword.word_injective (String.toList_inj.mp hword)
  exact h k hfirst hsecond

/-! ## Lists -/

/-- The attempts of different items begin in different places. -/
theorem apart_separatedList (mark : String) (h : IsItem c item) (hmark : mark.toList = [c])
    (hc : Text.isSeparator c) (hitem : Apart name other item) :
    Apart name other (separatedList mark item) := by
  intro text n hfirst hsecond
  induction text using listing_induction (c := c) h.productive with
  | none text hnone =>
      rw [failures_separatedList_of_none hmark (rest?_eq_none_iff.mpr hnone)] at hfirst hsecond
      exact hitem hfirst hsecond
  | last text value rest hread hlast =>
      rw [failures_separatedList_of_end hmark hc (rest?_of_read? hread) hlast] at hfirst hsecond
      exact hitem hfirst hsecond
  | mark text value rest hread hnext ih =>
      have hrest := rest?_of_read? hread
      rw [failures_separatedList_of_mark hmark hc hrest hnext] at hfirst hsecond
      have hbefore {name : Rule} (hlists : ListsAt name n (item.failures text)) :
          (Text.skipBlanks rest).length ≤ n :=
        h.explains.length_le_of_mark hc hrest hnext hlists.reach?_eq
      have hbehind {name : Rule}
          (hlists : ListsAt name n ((separatedList mark item).failures (skipMarks c rest))) :
          n < (Text.skipBlanks rest).length := by
        obtain ⟨behind, hbehind⟩ := List.head?_eq_some_iff.mp hnext
        have hle := hlists.le_length
        have hskip := length_skipMarks_le (c := c) behind
        rw [← skipMarks_skipBlanks, hbehind, skipMarks_cons_self] at hle
        rw [hbehind, List.length_cons]
        omega
      rcases hfirst.furthest with hfirst | hfirst <;> rcases hsecond.furthest with hsecond | hsecond
      · exact hitem hfirst hsecond
      · exact absurd (hbehind hsecond) (Nat.not_lt_of_le (hbefore hfirst))
      · exact absurd (hbehind hfirst) (Nat.not_lt_of_le (hbefore hsecond))
      · exact ih hfirst hsecond

/-- **Scripts.**  Names that no clause reports together are never reported together. -/
theorem apart_actions (hname : name.IsInner) (hother : other.IsInner)
    (h : ∀ k, Apart name other (namedClause k)) : Apart name other actions := by
  have havoids {name : Rule} (hname : name.IsInner) :
      trigger.Avoids name ∧ (finish Rule.endOfInput).Avoids name := by
    constructor <;> rintro rfl <;> exact hname
  have hne {name : Rule} (hname : name.IsInner) : name ≠ .action := by
    rintro rfl
    exact hname
  have hstatement : Apart name other statement := ((apart_clause hname hother h).captured).map _
  have hstatements := apart_separatedList "," isItem_statement rfl (by decide) hstatement
  have haction : Apart name other action :=
    ((hstatements.behind (havoids hname).1 (havoids hother).1).map _).rule (hne hname) (hne hother)
  have hactions := apart_separatedList ";" isItem_action rfl (by decide) haction
  exact (hactions.before (havoids hname).2 (havoids hother).2).map _

/-! ## What clauses do not report together -/

/-- A clause that can report a number that may have a sign has no rows of characters for its
arguments, and not both lists of numbers and signed values. -/
theorem forms_of_signedFloat {verb : Verb}
    (h : ¬ (namedClause (.verb verb)).Avoids Rule.signedFloat) :
    verb.forms ≠ [] ∧ (∀ member, Form.row member ∉ verb.forms) ∧
      (Form.numbers ∈ verb.forms → ∀ p, Form.parameter p .signedNumber ∉ verb.forms) := by
  cases verb with
  | move | rotate | scale | light =>
      simp [Verb.forms, Verb.usages, Usage.form, Parameter.argumentForm, Parameter.form]
  | _ => exact absurd (by decide) h

theorem notMem_tokens {verb : Verb} (hname : IsNumberName name) :
    name ∉ (verbArguments verb).tokens := by
  rcases hname with rfl | rfl <;> cases verb <;> decide

/-- **Numbers.**  A clause does not report both sorts of numbers together. -/
theorem apart_numbers (k : Keyword) : Apart .float .signedFloat (namedClause k) := by
  cases k with
  | warp => exact Avoids.apart (by decide) _
  | verb verb =>
      by_cases havoids : (namedClause (.verb verb)).Avoids Rule.signedFloat
      · exact havoids.apart _
      · obtain ⟨hforms, hrows, hsigned⟩ := forms_of_signedFloat havoids
        obtain ⟨argument, harguments, hchoices⟩ := exists_choices_forms hforms
        have htokens {name : Rule} (hname : IsNumberName name) : name ∉ argument.tokens := by
          have hmem := @notMem_tokens _ verb hname
          rw [harguments] at hmem
          exact fun hargument => hmem (List.mem_append_right _ hargument)
        have hmany : Apart .float .signedFloat (many argument) := fun _ _ =>
          not_listsAt_both_numbers hchoices (orderly_forms verb)
            (hchoices.productive (takes_of_mem_forms verb)) hrows hsigned (htokens (.inl rfl))
            (htokens (.inr rfl))
        have hkeyword : (keyword (.verb verb)).Avoids .float ∧
            (keyword (.verb verb)).Avoids .signedFloat :=
          ⟨@avoids_keyword .float trivial _, @avoids_keyword .signedFloat trivial _⟩
        have hbody : Apart .float .signedFloat (verbArguments verb) := by
          rw [harguments]
          exact (hmany.behind hkeyword.1 hkeyword.2).map _
        exact (hbody.map _).rule (by simp) (by simp)

/-- A journey does not report that one of the two sorts of positions is missing. -/
theorem not_listsAt_journey (hname : IsPositionName name) :
    ¬ ListsAt name n ((verbArguments .teleport).failures text) := by
  have hinner : name.IsInner := by rcases hname with rfl | rfl <;> trivial
  let world : Grammar Rule (Argument .teleport) := sets .worldName worldName
  let coordinates : Grammar Rule (Argument .teleport) := sets .coordinates place
  have hworld : (Grammar.optional world).Avoids name := by
    rcases hname with rfl | rfl <;> decide
  intro h
  change ListsAt name n ((seq (keyword (.verb .teleport))
    (seq (.optional world) (.optional coordinates))).failures text) at h
  obtain ⟨rest, -, h⟩ := h.of_seq.resolve_left (avoids_keyword hinner _).not_listsAt
  obtain ⟨rest, -, h⟩ := h.of_seq.resolve_left hworld.not_listsAt
  exact not_listsAt_place hname h

/-- **Positions.**  A clause does not report that one of the two sorts of positions is missing. -/
theorem not_listsAt_position (hname : IsPositionName name) (k : Keyword) :
    ¬ ListsAt name n ((namedClause k).failures text) := by
  have hinner : name.IsInner := by rcases hname with rfl | rfl <;> trivial
  have hcommand : name ≠ .command (.named k) := by
    rintro rfl
    exact hinner
  intro h
  cases k with
  | warp =>
      have hbody := h.of_rule_of_ne hcommand
      change ListsAt name n ((seq (keyword .warp) place).failures text) at hbody
      obtain ⟨rest, -, hplace⟩ := hbody.of_seq.resolve_left (avoids_keyword hinner _).not_listsAt
      exact not_listsAt_place hname hplace
  | verb verb =>
      by_cases hverb : verb = .teleport
      · subst hverb
        exact not_listsAt_journey hname (h.of_rule_of_ne hcommand)
      · have havoids : (namedClause (.verb verb)).Avoids name := by
          cases verb with
          | teleport => exact absurd rfl hverb
          | _ => rcases hname with rfl | rfl <;> decide
        exact havoids.not_listsAt h

end Script

end ObjectActions
