import ObjectActions.Proofs.Grammar.Trees
import ObjectActions.Proofs.Script.NumeralProvenance
import ObjectActions.Script.Evaluation

/-!
# Numbers are evaluated to what was read

Whatever is read as a number has a tree that is evaluated to this number without a failure.  The
grammar takes the digits before the point and those behind it as two rows; the evaluation looks at
the text of both of them with the point, and writes a zero before the point if nothing stands there
(`measure?_withIntegral`).  A sign and the number behind it are evaluated part by part
(`known_optional`).
-/

namespace ObjectActions

/-! ## Numerals -/

namespace Digits

theorem count?_ofList {digits : List Char} (hne : digits ≠ [])
    (hdigits : ∀ c ∈ digits, c.isDigit = true) :
    count? (String.ofList digits) = word? digits := by
  have hplus : digits.head? ≠ some '+' := by
    intro hhead
    exact absurd (hdigits '+' (List.mem_of_mem_head? hhead)) (by decide)
  have hall : digits.all Char.isDigit := List.all_eq_true.mpr hdigits
  rw [count?, String.toList_ofList, if_neg hplus]
  exact if_pos ⟨hne, hall⟩

theorem measure?_whole {digits : List Char} (hne : digits ≠ [])
    (hdigits : ∀ c ∈ digits, c.isDigit = true) :
    measure? (String.ofList digits) = some (toBinary64 digits []) := by
  have htake : digits.takeWhile Char.isDigit = digits := List.takeWhile_eq_self_iff.mpr hdigits
  have hdrop : digits.dropWhile Char.isDigit = [] := List.dropWhile_eq_nil_iff.mpr hdigits
  unfold measure?
  simp [htake, hdrop, hne]

theorem measure?_fraction {integral fraction : List Char}
    (hintegral : ∀ c ∈ integral, c.isDigit = true) (hne : fraction ≠ [])
    (hfraction : ∀ c ∈ fraction, c.isDigit = true) :
    measure? (String.ofList (integral ++ '.' :: fraction)) =
      some (toBinary64 integral fraction) := by
  have hpoint : ∀ c ∈ ('.' :: fraction).head?, c.isDigit = false := by simp
  have hall : fraction.all Char.isDigit := List.all_eq_true.mpr hfraction
  unfold measure?
  simp [Text.takeWhile_append_of_stop hintegral hpoint,
    Text.dropWhile_append_of_stop hintegral hpoint, hne, hall]

/-- A zero before other digits does not matter. -/
theorem toBinary64_zero_cons (integral fraction : List Char) :
    toBinary64 ('0' :: integral) fraction = toBinary64 integral fraction := by
  have hzero : digitValue '0' = 0 := rfl
  simp [toBinary64, value, valueIn, hzero]

end Digits

namespace Script

open Grammar Evaluation

variable {α : Type} {T : List Char → Prop}

theorem measure?_withIntegral {integral fraction : List Char}
    (hintegral : ∀ c ∈ integral, c.isDigit = true) (hfraction : IsRow Char.isDigit fraction) :
    Digits.measure? (withIntegral (String.ofList (integral ++ '.' :: fraction))) =
      some (Digits.toBinary64 integral fraction) := by
  unfold withIntegral
  rw [String.toList_ofList]
  cases integral with
  | nil =>
      have hzero : "0" ++ String.ofList ('.' :: fraction) =
          String.ofList (['0'] ++ '.' :: fraction) := by
        rw [String.ofList_append]
      rw [List.nil_append, List.head?_cons, if_pos rfl, hzero,
        Digits.measure?_fraction (by simp) hfraction.1 hfraction.2, Digits.toBinary64_zero_cons]
  | cons c integral =>
      have hpoint : c ≠ '.' := by
        rintro rfl
        exact absurd (hintegral '.' List.mem_cons_self) (by decide)
      rw [List.cons_append, List.head?_cons, if_neg (by simpa using hpoint), ← List.cons_append,
        Digits.measure?_fraction hintegral hfraction.1 hfraction.2]

/-! ## Evaluated grammars -/

@[simp] theorem need_some (value : α) (reason : String) :
    need (some value) reason = .ok value := rfl

@[simp] theorem ok_bind {β : Type} (value : α) (next : α → Except Failure β) :
    (Except.ok value >>= next) = next value := rfl

/-- Whether whatever is read has a single tree with a certain name, which is evaluated to its
value. -/
def Evaluates (grammar : Grammar Rule α) (name : Rule)
    (evaluate : Tree Rule → Except Failure α) : Prop :=
  BuildsOne grammar fun part value => part.name = name ∧ evaluate part = .ok value

/-- What is made of a value is made of what its tree is evaluated to. -/
theorem Evaluates.map {β : Type} {grammar : Grammar Rule α} {name : Rule}
    {evaluate : Tree Rule → Except Failure α} (h : Evaluates grammar name evaluate) (f : α → β) :
    Evaluates (.map f grammar) name fun part => (evaluate part).map f := by
  refine BuildsOne.map (BuildsOne.mono h ?_)
  rintro part value ⟨hname, hvalue⟩
  exact ⟨hname, congrArg (Except.map f) hvalue⟩

/-! ## Numbers without a sign -/

theorem evaluates_integer : Evaluates integer .integer fun part => .ok (count part) := by
  refine BuildsOne.map (((buildsOne_token _ _ _).of_shows (shows_row _)).mono ?_)
  rintro part w ⟨front, htext, ⟨hrow, rfl⟩, hname, -⟩
  refine ⟨hname, congrArg Except.ok ?_⟩
  rw [count, htext, Digits.count?_ofList hrow.1 hrow.2, String.toList_ofList]

theorem shows_fractionNumber : Shows T fractionNumber fun text x =>
    ∃ integral fraction, text = integral ++ '.' :: fraction ∧
      (∀ c ∈ integral, c.isDigit = true) ∧ IsRow Char.isDigit fraction ∧
      x = Digits.toBinary64 integral fraction := by
  intro text x rest _ hread
  rw [read?_fractionNumber] at hread
  split at hread
  · next hfraction =>
      cases hread
      obtain ⟨behind, hbehind⟩ := List.head?_eq_some_iff.mp hfraction.1
      have hsplit := List.takeWhile_append_dropWhile (p := Char.isDigit) (l := text)
      rw [hbehind, List.tail_cons] at hfraction ⊢
      refine ⟨text.takeWhile Char.isDigit ++ '.' :: behind.takeWhile Char.isDigit, ?_, _, _, rfl,
        fun _ hc => List.mem_takeWhile_imp hc, isRow_takeWhile hfraction.2, rfl⟩
      rw [List.append_assoc, List.cons_append, List.takeWhile_append_dropWhile, ← hbehind, hsplit]
  · cases hread

/-- Whether a part is one of the two forms of a number. -/
def IsForm (part : Tree Rule) (x : Binary64) : Prop :=
  part.name = .floatFract ∧ Digits.measure? (withIntegral part.text) = some x ∨
    part.name = .floatWhole ∧ Digits.measure? part.text = some x

theorem buildsOne_forms : BuildsOne (fractionNumber <|> wholeNumber) IsForm := by
  have hfraction : BuildsOne fractionNumber IsForm := by
    refine (((builds_any _).rule _).of_shows shows_fractionNumber).mono ?_
    rintro part x ⟨front, htext, ⟨integral, fraction, rfl, hintegral, hrow, rfl⟩, hname, -⟩
    exact .inl ⟨hname, htext ▸ measure?_withIntegral hintegral hrow⟩
  have hwhole : BuildsOne wholeNumber IsForm := by
    refine BuildsOne.map (((buildsOne_token _ _ _).of_shows (shows_row _)).mono ?_)
    rintro part w ⟨front, htext, ⟨hrow, rfl⟩, hname, -⟩
    refine .inr ⟨hname, ?_⟩
    rw [htext, Digits.measure?_whole hrow.1 hrow.2, String.toList_ofList]
  exact hfraction.choice hwhole

theorem evaluates_number : Evaluates number .float Evaluation.number := by
  refine (buildsOne_forms.alone.rule _).mono ?_
  rintro part x ⟨hname, form, hparts, hform⟩
  refine ⟨hname, ?_⟩
  unfold Evaluation.number
  rw [hparts, List.head?_cons, need_some, ok_bind]
  rcases hform with ⟨hform, hmeasure⟩ | ⟨hform, hmeasure⟩ <;>
  · rw [hform]
    simp only
    rw [hmeasure, need_some]

/-! ## Signs -/

/-- Whether a part is a sign, which turns the number or not. -/
def IsSign (part : Tree Rule) (negative : Bool) : Prop :=
  part.name = .sign ∧ decide (part.text = "-") = negative

theorem buildsOne_sign : BuildsOne sign IsSign := by
  refine (buildsOne_token _ _ _).mono ?_
  rintro part negative ⟨hname, hvalue⟩
  refine ⟨hname, ?_⟩
  split at hvalue
  · next hplus =>
      cases hvalue
      rw [hplus]
      decide
  · split at hvalue
    · next hminus =>
        cases hvalue
        rw [hminus, decide_eq_true_eq]
    · cases hvalue

/-- Whether parts are evaluated to a sign, if there is one, and a number. -/
def Known (parts : List (Tree Rule)) (sign? : Option Bool) (x : Binary64) : Prop :=
  parts.foldlM Signed.step ⟨false, false, none⟩ = .ok ⟨sign?.isSome, sign?.getD false, some x⟩

theorem Known.signedPair {parts : List (Tree Rule)} {sign? : Option Bool} {x : Binary64}
    (h : Known parts sign? x) {part : Tree Rule} (hparts : part.parts = parts) :
    Evaluation.signedPair part = .ok (turn (sign?.getD false) x, sign?.isSome) := by
  unfold Evaluation.signedPair
  rw [hparts, h]
  rfl

theorem known_signed {mark part : Tree Rule} {negative : Bool} {x : Binary64}
    (hmark : IsSign mark negative) (hname : part.name = .float)
    (hvalue : Evaluation.number part = .ok x) : Known [mark, part] (some negative) x := by
  rw [Known, List.foldlM_cons, Signed.step, hmark.1, hmark.2]
  change [part].foldlM Signed.step ⟨true, negative, none⟩ = _
  rw [List.foldlM_cons, Signed.step, hname, hvalue]
  rfl

theorem known_optional {front : List (Tree Rule)} {part : Tree Rule} {sign? : Option Bool}
    {x : Binary64}
    (hfront : sign? = none ∧ front = [] ∨
      ∃ negative, sign? = some negative ∧ Alone IsSign front negative)
    (hname : part.name = .float) (hvalue : Evaluation.number part = .ok x) :
    Known (front ++ [part]) sign? x := by
  rcases hfront with ⟨rfl, rfl⟩ | ⟨negative, rfl, mark, rfl, hmark⟩
  · rw [Known, List.nil_append, List.foldlM_cons, Signed.step, hname, hvalue]
    rfl
  · exact known_signed hmark hname hvalue

/-- Whether parts are evaluated to a number that may have a sign. -/
def IsSigned (parts : List (Tree Rule)) (y : Binary64) : Prop :=
  ∃ sign? x, Known parts sign? x ∧ y = turn (sign?.getD false) x

theorem IsSigned.signedNumber {part : Tree Rule} {y : Binary64} (h : IsSigned part.parts y) :
    Evaluation.signedNumber part = .ok y := by
  obtain ⟨sign?, x, hknown, rfl⟩ := h
  rw [Evaluation.signedNumber, hknown.signedPair rfl]
  rfl

theorem evaluates_signedNumber :
    Evaluates signedNumber .signedFloat Evaluation.signedNumber := by
  have hbody : Builds (.map (fun parts => turn (parts.1.getD false) parts.2)
      (.join (.optional sign) number)) IsSigned := by
    refine Builds.map ((buildsOne_sign.alone.optional.join evaluates_number.alone).mono ?_)
    rintro parts ⟨sign?, x⟩ ⟨_, _, rfl, hfront, part, rfl, hname, hvalue⟩
    exact ⟨sign?, x, known_optional hfront hname hvalue, rfl⟩
  exact (hbody.rule _).mono fun _ _ h => ⟨h.1, h.2.signedNumber⟩

theorem evaluates_forcedNumber :
    Evaluates forcedNumber .forceSignedFloat Evaluation.signedNumber := by
  have hbody : Builds (.map (fun parts => turn parts.1 parts.2) (.join sign number)) IsSigned := by
    refine Builds.map ((buildsOne_sign.alone.join evaluates_number.alone).mono ?_)
    rintro parts ⟨negative, x⟩
      ⟨_, _, rfl, ⟨mark, rfl, hmark⟩, part, rfl, hname, hvalue⟩
    exact ⟨some negative, x, known_signed hmark hname hvalue, rfl⟩
  exact (hbody.rule _).mono fun _ _ h => ⟨h.1, h.2.signedNumber⟩

/-! ## Lists of numbers -/

theorem mapM_eq_ok {evaluate : Tree Rule → Except Failure α} {parts : List (Tree Rule)}
    {values : List α}
    (h : List.Forall₂ (fun part value => evaluate part = .ok value) parts values) :
    parts.mapM evaluate = .ok values := by
  induction h with
  | nil => rfl
  | cons hvalue hrest ih =>
      rw [List.mapM_cons, hvalue, ih]
      rfl

theorem Evaluates.oneOrMore {item : Grammar Rule α} {name : Rule}
    {evaluate : Tree Rule → Except Failure α} (h : Evaluates item name evaluate) :
    Builds (oneOrMore item) fun parts values => parts.mapM evaluate = .ok values := by
  refine Builds.map ((h.alone.seq (Builds.many_alone h.alone)).mono ?_)
  rintro parts ⟨value, values⟩ ⟨_, behind, rfl, ⟨part, rfl, -, hvalue⟩, hvalues⟩
  exact mapM_eq_ok (.cons hvalue (hvalues.imp fun _ _ h => h.2))

theorem evaluates_numberList : Evaluates numberList .coordinateList Evaluation.numberList :=
  evaluates_signedNumber.oneOrMore.rule _

end Script

end ObjectActions
