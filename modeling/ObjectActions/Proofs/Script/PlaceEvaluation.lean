import ObjectActions.Proofs.Script.NumeralEvaluation

/-!
# Places are evaluated to what was read

A place is evaluated from its first part, which is the position, and then part by part: an altitude
and a direction each fill in what they stand for (`bearing_altitude`, `bearing_direction`), and
nothing else can follow a position.
-/

namespace ObjectActions.Script

open Grammar Evaluation

/-! ## Positions -/

theorem buildsOne_axis (rule : Rule) (positive negative : String) :
    BuildsOne (axis rule positive negative) fun part turned =>
      Text.alike part.text positive = !turned := by
  refine (buildsOne_token _ _ _).mono ?_
  rintro part turned ⟨-, hvalue⟩
  split at hvalue
  · next hpositive =>
      cases hvalue
      exact hpositive
  · next hpositive =>
      split at hvalue
      · cases hvalue
        exact Bool.not_eq_true _ ▸ hpositive
      · cases hvalue

theorem evaluates_axisNumber (rule rule' : Rule) (positive negative : String) :
    Evaluates (axisNumber rule (axis rule' positive negative)) rule
      (Evaluation.axisNumber positive) := by
  have hbody : Builds (.map (fun parts => turn parts.2 parts.1)
      (.join number (axis rule' positive negative))) fun parts y =>
        ∃ part letter x turned, parts = [part, letter] ∧ Evaluation.number part = .ok x ∧
          Text.alike letter.text positive = !turned ∧ y = turn turned x := by
    refine Builds.map ((evaluates_number.alone.join (buildsOne_axis _ _ _).alone).mono ?_)
    rintro parts ⟨x, turned⟩ ⟨_, _, rfl, ⟨part, rfl, -, hvalue⟩, letter, rfl, hletter⟩
    exact ⟨part, letter, x, turned, rfl, hvalue, hletter, rfl⟩
  refine (hbody.rule _).mono ?_
  rintro part y ⟨hname, value, letter, x, turned, hparts, hvalue, hletter, rfl⟩
  refine ⟨hname, ?_⟩
  simp only [Evaluation.axisNumber, hparts, List.getElem?_cons_zero, List.getElem?_cons_succ,
    need_some, ok_bind, hvalue, hletter]
  cases turned <;> rfl

theorem evaluates_absolutePosition :
    Evaluates absolutePosition .absoluteCoordinates Evaluation.position := by
  have hns := evaluates_axisNumber .nsCoordinate .nsAxis "n" "s"
  have hew := evaluates_axisNumber .ewCoordinate .ewAxis "e" "w"
  have hbody : Builds (.map (fun parts => Position.absolute parts.1 parts.2)
      (.seq (axisNumber .nsCoordinate (axis .nsAxis "n" "s"))
        (axisNumber .ewCoordinate (axis .ewAxis "e" "w")))) fun parts position =>
      ∃ first second ns ew, parts = [first, second] ∧ Evaluation.axisNumber "n" first = .ok ns ∧
        Evaluation.axisNumber "e" second = .ok ew ∧ position = .absolute ns ew := by
    refine Builds.map ((hns.alone.seq hew.alone).mono ?_)
    rintro parts ⟨ns, ew⟩ ⟨_, _, rfl, ⟨first, rfl, -, hfirst⟩, second, rfl, -, hsecond⟩
    exact ⟨first, second, ns, ew, rfl, hfirst, hsecond, rfl⟩
  refine (hbody.rule _).mono ?_
  rintro part position ⟨hname, first, second, ns, ew, hparts, hfirst, hsecond, rfl⟩
  refine ⟨hname, ?_⟩
  simp only [Evaluation.position, hname, hparts, List.getElem?_cons_zero,
    List.getElem?_cons_succ, need_some, ok_bind, hfirst, hsecond]
  rfl

theorem evaluates_relativePosition :
    Evaluates relativePosition .relativeCoordinates Evaluation.position := by
  have hnumber := evaluates_forcedNumber
  have hbody : Builds (.map (fun parts => Position.relative parts.1 parts.2)
      (.seq forcedNumber forcedNumber)) fun parts position =>
      ∃ first second x y, parts = [first, second] ∧ Evaluation.signedNumber first = .ok x ∧
        Evaluation.signedNumber second = .ok y ∧ position = .relative x y := by
    refine Builds.map ((hnumber.alone.seq hnumber.alone).mono ?_)
    rintro parts ⟨x, y⟩ ⟨_, _, rfl, ⟨first, rfl, -, hfirst⟩, second, rfl, -, hsecond⟩
    exact ⟨first, second, x, y, rfl, hfirst, hsecond, rfl⟩
  refine (hbody.rule _).mono ?_
  rintro part position ⟨hname, first, second, x, y, hparts, hfirst, hsecond, rfl⟩
  refine ⟨hname, ?_⟩
  simp only [Evaluation.position, hname, hparts, List.getElem?_cons_zero,
    List.getElem?_cons_succ, need_some, ok_bind, hfirst, hsecond]
  rfl

/-- A position of either sort. -/
theorem buildsOne_position : BuildsOne (absolutePosition <|> relativePosition)
    fun part position => Evaluation.position part = .ok position :=
  BuildsOne.choice (evaluates_absolutePosition.mono fun _ _ h => h.2)
    (evaluates_relativePosition.mono fun _ _ h => h.2)

/-! ## Altitudes and directions -/

theorem buildsOne_altitude : BuildsOne altitude fun part height =>
    part.name = .altitude ∧ signedPair part = .ok (height.value, height.relative) := by
  have hbody : Builds (.map (fun parts => (⟨parts.1.isSome, turn (parts.1.getD false) parts.2.1⟩))
      (.join (.optional sign) (.join number (.literal "a")))) fun parts (height : Altitude) =>
      ∃ sign? x, Known parts sign? x ∧ height = ⟨sign?.isSome, turn (sign?.getD false) x⟩ := by
    have hnumber := evaluates_number.alone.join (builds_literal "a")
    refine Builds.map ((buildsOne_sign.alone.optional.join hnumber).mono ?_)
    rintro parts ⟨sign?, x, _⟩ ⟨_, _, rfl, hfront, _, _, rfl, ⟨part, rfl, hname, hvalue⟩, rfl⟩
    exact ⟨sign?, x, known_optional hfront hname hvalue, rfl⟩
  refine (hbody.rule _).mono ?_
  rintro part height ⟨hname, sign?, x, hknown, rfl⟩
  exact ⟨hname, hknown.signedPair rfl⟩

theorem bearing_altitude (place : Place) {part : Tree Rule} {height : Altitude}
    (hname : part.name = .altitude)
    (hpair : signedPair part = .ok (height.value, height.relative)) :
    bearing place part = .ok { place with altitude := some height } := by
  simp only [bearing, hname, hpair, ok_bind]
  rfl

theorem buildsOne_direction : BuildsOne direction fun part code =>
    part.name = .direction ∧ ∃ digits, part.parts = [digits] ∧ count digits = code := by
  refine (evaluates_integer.alone.rule _).mono ?_
  rintro part code ⟨hname, digits, hparts, -, hcode⟩
  exact ⟨hname, digits, hparts, Except.ok.inj hcode⟩

theorem bearing_direction (place : Place) {part digits : Tree Rule} {code : UInt32}
    (hname : part.name = .direction) (hparts : part.parts = [digits])
    (hcode : count digits = code) :
    bearing place part = .ok { place with direction := some code } := by
  simp only [bearing, hname, hparts, List.head?_cons, need_some, ok_bind, hcode]
  rfl

/-! ## Places -/

theorem evaluates_place : Evaluates place .worldCoordinates Evaluation.place := by
  have hbearings := buildsOne_altitude.alone.optional.seq buildsOne_direction.alone.optional
  have hbody : Builds (.map (fun parts => (⟨parts.1, parts.2.1, parts.2.2⟩ : Place))
      (.seq (absolutePosition <|> relativePosition)
        (.seq (.optional altitude) (.optional direction)))) fun parts place =>
      ∃ first bearings, parts = first :: bearings ∧
        Evaluation.position first = .ok place.position ∧
        bearings.foldlM bearing ⟨place.position, none, none⟩ = .ok place := by
    refine Builds.map ((buildsOne_position.alone.seq hbearings).mono ?_)
    rintro parts ⟨position, altitude, direction⟩ ⟨_, bearings, rfl, ⟨first, rfl, hposition⟩,
      heights, directions, rfl, hheight, hdirection⟩
    refine ⟨first, heights ++ directions, rfl, hposition, ?_⟩
    rcases hheight with ⟨rfl, rfl⟩ | ⟨height, rfl, part, rfl, hname, hpair⟩ <;>
      rcases hdirection with ⟨rfl, rfl⟩ | ⟨code, rfl, mark, rfl, hmark, digits, hdigits, hcode⟩
    · rfl
    · rw [List.nil_append, List.foldlM_cons, bearing_direction _ hmark hdigits hcode]
      rfl
    · rw [List.append_nil, List.foldlM_cons, bearing_altitude _ hname hpair]
      rfl
    · rw [List.singleton_append, List.foldlM_cons, bearing_altitude _ hname hpair, ok_bind,
        List.foldlM_cons, bearing_direction _ hmark hdigits hcode]
      rfl
  refine (hbody.rule _).mono ?_
  rintro part place ⟨hname, first, bearings, hparts, hposition, hplace⟩
  refine ⟨hname, ?_⟩
  simp only [Evaluation.place, hparts, List.head?_cons, need_some, ok_bind, hposition,
    List.tail_cons, hplace]

end ObjectActions.Script
