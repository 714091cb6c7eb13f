import ObjectActions.Proofs.Attribute.Range
import ObjectActions.Proofs.Number.Triples
import ObjectActions.Proofs.Script.Words

/-!
# Numbers one after the other

Behind the verbs `move`, `rotate` and `scale` stands a list of numbers.  A number reaches as far as
it can, so blanks between two numbers may be left out where the second one cannot continue the
first one (`WrittenNumber.MayTouch`): it has a sign, or it begins with a point and the first one has
a point already.

```text
1 -2.5.5     1 | -2.5 | .5       a sign, and a second point
1-2.5.5      1 | -2.5 | .5
1.5          1.5                 the point belongs to the first number
```

However the numbers are written, each of them has the value of its own digits, and is turned exactly
if its sign is a minus (`IsSeries.isNumberList`).  What the list sets then depends on how many
numbers there are (`ofScript?_series`).
-/

namespace ObjectActions.Script

/-! ## Numbers as they are written -/

/-- A number as it is written: digits, before which a sign may stand and behind which a point and
more digits may stand.  Only before a point there may be no digits. -/
structure WrittenNumber where
  /-- The sign, which is true if it is a minus. -/
  sign : Option Bool
  integral : List Char
  fraction : Option (List Char)
  integral_digits : ∀ c ∈ integral, c.isDigit = true
  fraction_row : ∀ digits ∈ fraction, IsRow Char.isDigit digits
  integral_ne_nil : fraction = none → integral ≠ []

namespace WrittenNumber

/-- How a sign is written. -/
def signText : Option Bool → List Char
  | none => []
  | some false => ['+']
  | some true => ['-']

/-- A number without its sign. -/
def unsigned (n : WrittenNumber) : List Char :=
  n.integral ++ n.fraction.elim [] ('.' :: ·)

/-- A number as a text. -/
def text (n : WrittenNumber) : List Char := signText n.sign ++ n.unsigned

/-- The number that the digits stand for. -/
def magnitude (n : WrittenNumber) : Binary64 := Digits.toBinary64 n.integral (n.fraction.getD [])

/-- The value of a number, which is turned exactly if its sign is a minus. -/
def value (n : WrittenNumber) : Binary64 :=
  if n.sign = some true then -n.magnitude else n.magnitude

/-- Whether two numbers may follow each other without a blank between them. -/
def MayTouch (first second : WrittenNumber) : Prop :=
  second.sign.isSome ∨ first.fraction.isSome ∧ second.text.head? = some '.'

theorem isNumber (n : WrittenNumber) : IsNumber n.unsigned n.magnitude := by
  unfold unsigned magnitude
  cases h : n.fraction with
  | none =>
      rw [Option.elim_none, List.append_nil, Option.getD_none]
      exact .whole ⟨n.integral_ne_nil h, n.integral_digits⟩
  | some digits => exact .fraction n.integral_digits (n.fraction_row digits h)

theorem isSignedNumber (n : WrittenNumber) : IsSignedNumber n.text n.value := by
  unfold text value
  match n.sign with
  | none => exact .unsigned n.isNumber
  | some false => exact .plus n.isNumber
  | some true => exact .minus n.isNumber

theorem point_mem_text {n : WrittenNumber} (h : n.fraction.isSome) : '.' ∈ n.text := by
  obtain ⟨digits, hdigits⟩ := Option.isSome_iff_exists.mp h
  simp [text, unsigned, hdigits]

/-- Where two numbers touch the second one does not continue the first one. -/
theorem MayTouch.numberEnds {first second : WrittenNumber} (h : MayTouch first second)
    (rest : List Char) : NumberEnds first.text (second.text ++ rest) := by
  intro c hc
  rcases h with hsign | ⟨hfraction, hpoint⟩
  · obtain ⟨turned, hturned⟩ := Option.isSome_iff_exists.mp hsign
    have hhead : c = '+' ∨ c = '-' := by
      cases turned <;> simp_all [text, signText, eq_comm]
    rcases hhead with rfl | rfl <;> exact ⟨by decide, by simp⟩
  · obtain ⟨behind, hbehind⟩ := List.head?_eq_some_iff.mp hpoint
    rw [hbehind, List.cons_append, List.head?_cons, Option.mem_some] at hc
    subst hc
    exact ⟨by decide, fun _ => point_mem_text hfraction⟩

end WrittenNumber

/-! ## Series of numbers -/

/-- How numbers are written one after the other. -/
inductive IsSeries : List Char → List WrittenNumber → Prop where
  | last (n : WrittenNumber) : IsSeries n.text [n]
  | more (n : WrittenNumber) {next : WrittenNumber} {further : List WrittenNumber}
      {blanks text : List Char} (hblanks : blanks.all Text.isBlank)
      (htouch : blanks = [] → n.MayTouch next) (h : IsSeries text (next :: further)) :
      IsSeries (n.text ++ (blanks ++ text)) (n :: next :: further)

variable {text : List Char} {numbers : List WrittenNumber}

theorem IsSeries.ne_nil (h : IsSeries text numbers) : numbers ≠ [] := by
  cases h <;> simp

theorem IsSeries.exists_append {n : WrittenNumber} {further : List WrittenNumber}
    (h : IsSeries text (n :: further)) : ∃ rest, text = n.text ++ rest := by
  cases h with
  | last => exact ⟨[], (List.append_nil _).symm⟩
  | more => exact ⟨_, rfl⟩

/-- **Longest match.**  A series is cut into the numbers that it was written with. -/
theorem IsSeries.isNumberList (h : IsSeries text numbers) :
    IsNumberList text (numbers.map WrittenNumber.value) := by
  induction h with
  | last n => exact .last n.isSignedNumber
  | @more n next further blanks text hblanks htouch h ih =>
      refine .more n.isSignedNumber hblanks ?_ ih
      cases blanks with
      | nil =>
          obtain ⟨rest, rfl⟩ := h.exists_append
          exact (htouch rfl).numberEnds rest
      | cons c blanks =>
          have hc : Text.isBlank c = true := List.all_eq_true.mp hblanks c List.mem_cons_self
          have hstops : Stops (c :: blanks ++ text) := by simp [Stops, hc]
          exact hstops.numberEnds n.text

/-! ## Scripts -/

variable {verb : Verb}

/-- A list of numbers as the only argument of a verb. -/
theorem ofScript?_numbers (hverb : verb.Sortable) (trigger : Trigger) {a : Attribute}
    {resolve : List Binary64 → a.Value} {mem : verb.Sets a}
    (husage : Usage.numbers a resolve mem ∈ verb.usages) {list : String} {xs : List Binary64}
    (h : IsNumberList list.toList xs) :
    Action.ofScript? (trigger.name ++ " " ++ verb.word ++ " " ++ list) =
      some [⟨trigger, [some (.act verb (Record.unset.set ⟨a, resolve xs, mem⟩))]⟩] := by
  let token : Token verb := ⟨list.toList, _, _, husage, .numbers h, fun _ _ _ _ heq => by cases heq⟩
  have hscript := ofScript?_token hverb trigger (show token.said = some _ from rfl)
  rwa [show token.text = list.toList from rfl, String.ofList_toList] at hscript

/-- **Lists of numbers.**  A move and a rotation have the offsets, and a scaling has the factors,
that the numbers of the list stand for. -/
theorem ofScript?_series {list : String} (h : IsSeries list.toList numbers) :
    ∃ offsets factors,
      Triple.OffsetsOf (numbers.map WrittenNumber.value) offsets ∧
        Triple.FactorsOf (numbers.map WrittenNumber.value) factors ∧
        Action.ofScript? ("create move " ++ list) =
          some [⟨.create, [some (.act .move
            (Record.unset.set { name := .distance, value := offsets }))]⟩] ∧
        Action.ofScript? ("create rotate " ++ list) =
          some [⟨.create, [some (.act .rotate
            (Record.unset.set { name := .speed, value := offsets }))]⟩] ∧
        Action.ofScript? ("create scale " ++ list) =
          some [⟨.create, [some (.act .scale
            (Record.unset.set { name := .factor, value := factors }))]⟩] := by
  have hlist := h.isNumberList
  have hne : numbers.map WrittenNumber.value ≠ [] := mt List.map_eq_nil_iff.mp h.ne_nil
  have hmove := @ofScript?_numbers .move (by simp [Verb.Sortable]) .create .distance
    Triple.ofOffsets (by decide) (by simp [Verb.usages]) list _ hlist
  have hrotate := @ofScript?_numbers .rotate (by simp [Verb.Sortable]) .create .speed
    Triple.ofOffsets (by decide) (by simp [Verb.usages]) list _ hlist
  have hscale := @ofScript?_numbers .scale (by simp [Verb.Sortable]) .create .factor
    Triple.ofFactors (by decide) (by simp [Verb.usages]) list _ hlist
  exact ⟨_, _, Triple.offsetsOf_ofOffsets hne, Triple.factorsOf_ofFactors hne hlist.isNaN, hmove,
    hrotate, hscale⟩

/-- Three numbers without a blank between them. -/
theorem ofScript?_series_without_blanks :
    Action.ofScript? "create move 1-2.5.5" =
      some [⟨.create, [some (.act .move (Record.unset.set
        { name := .distance,
          value := ⟨Digits.toBinary64 ['1'] [], -Digits.toBinary64 ['2'] ['5'],
            Digits.toBinary64 [] ['5']⟩ }))]⟩] := by
  let one : WrittenNumber := ⟨none, ['1'], none, by simp, by simp, by simp⟩
  let two : WrittenNumber := ⟨some true, ['2'], some ['5'], by simp, by simp [IsRow], by simp⟩
  let half : WrittenNumber := ⟨none, [], some ['5'], by simp, by simp [IsRow], by simp⟩
  have hseries : IsSeries "1-2.5.5".toList [one, two, half] :=
    @IsSeries.more one _ _ [] _ rfl (fun _ => .inl rfl)
      (@IsSeries.more two _ _ [] _ rfl (fun _ => .inr ⟨rfl, rfl⟩) (.last half))
  obtain ⟨offsets, factors, hoffsets, -, hmove, -⟩ := ofScript?_series hseries
  cases hoffsets with
  | three => exact hmove
  | more h => exact absurd h (by decide)

end ObjectActions.Script
