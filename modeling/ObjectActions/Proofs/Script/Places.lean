import ObjectActions.Proofs.Script.NumeralProvenance
import ObjectActions.Proofs.Script.PlaceReach

/-!
# How places are written

A place is a position, with an altitude and a direction behind it that may each be missing.  The
relations of this module say which texts are written in this way and which places they stand
for, without regard to what follows them.

Two statements tie them to the grammar:

* `shows_place`: whatever is read as a place has been written as this place, with any blanks
  behind it;
* `rest?_place_eq_none_iff`: no place is read exactly where none is written at the front of the
  text.

There is no statement that a text that is written as a place is read as this very place, because
a number may be continued by the one behind it.  Blanks between the items rule that out.
-/

namespace ObjectActions.Script

open Grammar

variable {text rest : List Char}

/-! ## What is written how -/

/-- How a number with the letter of its axis is written; the second letter turns the number. -/
inductive IsAxisNumber (positive negative : Char) : List Char → Binary64 → Prop where
  | positive {text : List Char} {x : Binary64} {letter : Char} (h : IsNumber text x)
      (hletter : letter.toLower = positive) : IsAxisNumber positive negative (text ++ [letter]) x
  | negative {text : List Char} {x : Binary64} {letter : Char} (h : IsNumber text x)
      (hletter : letter.toLower = negative) :
      IsAxisNumber positive negative (text ++ [letter]) (-x)

/-- How a position is written. -/
inductive IsPosition : List Char → Position → Prop where
  | absolute {first blanks second : List Char} {ns ew : Binary64}
      (hns : IsAxisNumber 'n' 's' first ns) (hblanks : blanks.all Text.isBlank)
      (hew : IsAxisNumber 'e' 'w' second ew) :
      IsPosition (first ++ (blanks ++ second)) (.absolute ns ew)
  | relative {first blanks second : List Char} {x y : Binary64} (hx : IsForcedNumber first x)
      (hblanks : blanks.all Text.isBlank) (hy : IsForcedNumber second y) :
      IsPosition (first ++ (blanks ++ second)) (.relative x y)

/-- How an altitude is written, which is relative if it has a sign. -/
inductive IsAltitude : List Char → Altitude → Prop where
  | absolute {text : List Char} {x : Binary64} {letter : Char} (h : IsNumber text x)
      (hletter : letter.toLower = 'a') : IsAltitude (text ++ [letter]) ⟨false, x⟩
  | relative {text : List Char} {x : Binary64} {letter : Char} (h : IsForcedNumber text x)
      (hletter : letter.toLower = 'a') : IsAltitude (text ++ [letter]) ⟨true, x⟩

/-- How a direction is written; one that is too large stands for the largest one. -/
def IsDirection (text : List Char) (direction : UInt32) : Prop :=
  IsRow Char.isDigit text ∧ direction = Digits.saturate (Digits.value text)

/-- Something behind any blanks, or nothing at all. -/
inductive Optionally {α : Type} (Written : List Char → α → Prop) :
    List Char → Option α → Prop where
  | missing : Optionally Written [] none
  | given {blanks text : List Char} {value : α} (hblanks : blanks.all Text.isBlank)
      (h : Written text value) : Optionally Written (blanks ++ text) (some value)

/-- How a place is written. -/
inductive IsPlace : List Char → Place → Prop where
  | mk {first second third : List Char} {position : Position} {altitude : Option Altitude}
      {direction : Option UInt32} (hposition : IsPosition first position)
      (haltitude : Optionally IsAltitude second altitude)
      (hdirection : Optionally IsDirection third direction) :
      IsPlace (first ++ (second ++ third)) ⟨position, altitude, direction⟩

/-! ## Letters -/

/-- A letter in either case. -/
theorem alike_singleton (c letter : Char) :
    Text.alike (String.ofList [c]) (String.ofList [letter]) = (c.toLower == letter.toLower) := by
  simp [Text.alike, Text.lower]

theorem read?_axis_cons (rule : Rule) (positive negative c : Char) (text : List Char) :
    (axis rule (String.ofList [positive]) (String.ofList [negative])).read? (c :: text) =
      if c.toLower = positive.toLower then some (false, text)
      else if c.toLower = negative.toLower then some (true, text) else none := by
  have hpiece : Lexeme.letter.piece (c :: text) = [c] := rfl
  have hrest : Lexeme.letter.rest (c :: text) = text := rfl
  simp only [axis, read?, hpiece, hrest, alike_singleton, beq_iff_eq]
  split
  · rfl
  · split <;> rfl

theorem read?_axis_nil (rule : Rule) (positive negative : Char) :
    (axis rule (String.ofList [positive]) (String.ofList [negative])).read? [] = none := by
  have hempty (letter : Char) :
      Text.alike (String.ofList (Lexeme.letter.piece [])) (String.ofList [letter]) = false := by
    simp [Text.alike, Text.lower, Lexeme.piece]
  simp only [axis, read?, hempty, Bool.false_eq_true, if_false, Option.map_none]

theorem shows_axis (T : List Char → Prop) (rule : Rule) (positive negative : Char) :
    Shows T (axis rule (String.ofList [positive]) (String.ofList [negative]))
      fun text turned => ∃ c, text = [c] ∧
        c.toLower = (if turned then negative else positive).toLower := by
  intro text turned rest _ hread
  cases text with
  | nil =>
      rw [read?_axis_nil] at hread
      cases hread
  | cons c text =>
      rw [read?_axis_cons] at hread
      split at hread
      · next hpositive =>
          cases hread
          exact ⟨[c], rfl, c, rfl, hpositive⟩
      · split at hread
        · next hnegative =>
            cases hread
            exact ⟨[c], rfl, c, rfl, hnegative⟩
        · cases hread

/-! ## Whatever is read has been written -/

section Shows

variable {T : List Char → Prop} (hT : PassesOn T)
include hT

theorem shows_axisNumber (rule rule' : Rule) {positive negative : Char}
    (hpositive : positive.toLower = positive) (hnegative : negative.toLower = negative) :
    Shows T (axisNumber rule (axis rule' (String.ofList [positive]) (String.ofList [negative])))
      (IsAxisNumber positive negative) := by
  refine (((Shows.join hT (shows_number T)
    (shows_axis T rule' positive negative)).mono ?_).map).rule _
  rintro text ⟨x, turned⟩ ⟨front, behind, rfl, hnumber, c, rfl, hc⟩
  cases turned with
  | false => exact .positive hnumber (hc.trans hpositive)
  | true => exact .negative hnumber (hc.trans hnegative)

theorem shows_position : Shows T (absolutePosition <|> relativePosition) IsPosition := by
  have hns : Shows T (axisNumber .nsCoordinate (axis .nsAxis "n" "s")) (IsAxisNumber 'n' 's') :=
    shows_axisNumber hT _ _ (by decide) (by decide)
  have hew : Shows T (axisNumber .ewCoordinate (axis .ewAxis "e" "w")) (IsAxisNumber 'e' 'w') :=
    shows_axisNumber hT _ _ (by decide) (by decide)
  have hforced := shows_forcedNumber hT
  refine Shows.choice ?_ ?_
  · refine (((Shows.seq hT hns hew).mono ?_).map).rule _
    rintro text ⟨ns, ew⟩ ⟨first, blanks, second, rfl, hblanks, hfirst, hsecond⟩
    exact .absolute hfirst hblanks hsecond
  · refine (((Shows.seq hT hforced hforced).mono ?_).map).rule _
    rintro text ⟨x, y⟩ ⟨first, blanks, second, rfl, hblanks, hfirst, hsecond⟩
    exact .relative hfirst hblanks hsecond

theorem shows_altitude : Shows T altitude IsAltitude := by
  have hletter : Shows T (.literal "a" : Grammar Rule Unit)
      fun text _ => ∃ c, text = [c] ∧ c.toLower = 'a' := by
    intro text _ rest _ hread
    obtain ⟨last, hafter, heq⟩ := Option.map_eq_some_iff.mp hread
    cases heq
    obtain ⟨front, hfront, hlower⟩ := after?_eq_some_iff.mp hafter
    have hone : Text.lower "a".toList = ['a'] := by decide
    obtain ⟨c, rfl, hc⟩ : ∃ c, front = [c] ∧ c.toLower = 'a' := by
      simpa [hone, Text.lower, List.map_eq_cons_iff] using hlower
    exact ⟨[c], hfront, c, rfl, hc⟩
  refine (((Shows.join hT (shows_sign T).optional
    (Shows.join hT (shows_number T) hletter)).mono ?_).map).rule _
  rintro text ⟨turned, x, _⟩ ⟨first, behind, rfl, hfirst, number, last, rfl, hnumber, c, rfl, hc⟩
  rcases hfirst with ⟨rfl, rfl⟩ | ⟨negative, rfl, rfl⟩
  · exact .absolute hnumber hc
  · exact .relative (isForcedNumber_turn negative hnumber) hc

omit hT in
theorem shows_direction : Shows T direction IsDirection := by
  refine (((shows_row Char.isDigit).mono ?_).map).rule _
  rintro text word ⟨hrow, rfl⟩
  rw [IsDirection, String.toList_ofList]
  exact ⟨hrow, Digits.getD_word? hrow.2⟩

/-- A place takes away the blanks behind it. -/
theorem shows_place : Shows T place (Padded IsPlace) := by
  have hbearings := Shows.seq hT (shows_altitude hT).optional shows_direction.optional
  refine (((Shows.seq hT (shows_position hT) hbearings).mono ?_).map).rule _
  rintro text ⟨position, altitude, direction⟩ ⟨first, before, behind, rfl, hbefore, hposition,
    second, between, third, rfl, hbetween, haltitude, hdirection⟩
  rcases haltitude with ⟨rfl, rfl⟩ | ⟨height, rfl, haltitude⟩
  · have hboth : (before ++ between).all Text.isBlank := by
      rw [List.all_append, hbefore, hbetween, Bool.and_true]
    rcases hdirection with ⟨rfl, rfl⟩ | ⟨count, rfl, hdirection⟩
    · exact ⟨_, before ++ between, by simp, hboth, .mk hposition .missing .missing⟩
    · have hplace := IsPlace.mk hposition .missing (.given hboth hdirection)
      exact .of_written (by simpa using hplace)
  · have hgiven := Optionally.given hbefore haltitude
    rcases hdirection with ⟨rfl, rfl⟩ | ⟨count, rfl, hdirection⟩
    · exact ⟨_, between, by simp, hbetween, .mk hposition hgiven .missing⟩
    · have hplace := IsPlace.mk hposition hgiven (.given hbetween hdirection)
      exact .of_written (by simpa using hplace)

end Shows

/-! ## Whatever is written is read in some way -/

/-- A letter that is some lower-case letter when folded ends a number. -/
theorem numberEnds_letter {letter c : Char} (h : letter.toLower = c) (hc : c.isLower = true)
    (text rest : List Char) : NumberEnds text (letter :: rest) := by
  have halpha : letter.isAlpha = true := by
    rw [← Text.isAlpha_toLower, h]
    show (c.isUpper || c.isLower) = true
    rw [hc, Bool.or_true]
  intro d hd
  rw [List.head?_cons, Option.mem_some] at hd
  subst hd
  refine ⟨Text.isDigit_of_isAlpha halpha, ?_⟩
  rintro rfl
  exact absurd halpha (by decide)

/-- A number is read with the letter of its axis, whatever follows. -/
theorem IsAxisNumber.read? {positive negative : Char} {x : Binary64}
    (h : IsAxisNumber positive negative text x) (rule rule' : Rule)
    (hpositive : positive.isLower = true) (hnegative : negative.isLower = true)
    (hne : negative ≠ positive) (rest : List Char) :
    (axisNumber rule (axis rule' (String.ofList [positive])
      (String.ofList [negative]))).read? (text ++ rest) = some (x, rest) := by
  have hsame {c : Char} (hc : c.isLower = true) : c.toLower = c :=
    Text.toLower_of_not_isUpper (by unfold Char.isLower Char.isUpper at *; grind)
  rw [axisNumber, Grammar.read?, read?_map, read?_join]
  cases h with
  | positive h hletter =>
      rw [List.append_assoc, List.singleton_append,
        h.read? (numberEnds_letter hletter hpositive _ _), Option.bind_some, read?_axis_cons,
        if_pos (hletter.trans (hsame hpositive).symm)]
      rfl
  | negative h hletter =>
      have hnot : ¬ negative = positive.toLower := by rwa [hsame hpositive]
      rw [List.append_assoc, List.singleton_append,
        h.read? (numberEnds_letter hletter hnegative _ _), Option.bind_some, read?_axis_cons,
        hletter, if_neg hnot, if_pos (hsame hnegative).symm]
      rfl

theorem IsAxisNumber.skipBlanks_append {positive negative : Char} {x : Binary64}
    (h : IsAxisNumber positive negative text x) (rest : List Char) :
    Text.skipBlanks (text ++ rest) = text ++ rest := by
  cases h with
  | positive h | negative h => rw [List.append_assoc, h.isSolid.skipBlanks_append]

theorem IsForcedNumber.read? {x : Binary64} (h : IsForcedNumber text x)
    (hrest : NumberEnds text rest) : forcedNumber.read? (text ++ rest) = some (x, rest) := by
  rw [forcedNumber, Grammar.read?, read?_map, read?_join, read?_sign]
  cases h with
  | @plus text x h | @minus text x h =>
      have hends : NumberEnds text rest := by simpa [NumberEnds] using hrest
      simp [h.read? hends, turn]

/-- A position is read where it fills the text. -/
theorem IsPosition.rest? {p : Position} (h : IsPosition text p) :
    position.rest? text ≠ none := by
  rw [rest?_position]
  cases h with
  | @absolute first blanks second ns ew hns hblanks hew =>
      have hskip := Text.skipBlanks_eq_nil_iff.mpr hblanks
      have hfirst := rest?_of_read? <| hns.read? .nsCoordinate .nsAxis (by decide) (by decide)
        (by decide) (blanks ++ second)
      have hsecond := rest?_of_read? <| hew.read? .ewCoordinate .ewAxis (by decide) (by decide)
        (by decide) []
      have hmiddle := hew.skipBlanks_append []
      rw [List.append_nil] at hsecond hmiddle
      have habsolute : absolutePosition.rest? (first ++ (blanks ++ second)) = some [] := by
        rw [absolutePosition, rest?_rule, rest?_map, rest?_seq]
        refine Option.bind_eq_some_iff.mpr ⟨_, hfirst, ?_⟩
        rw [Text.skipBlanks_append_of_eq_nil hskip, hmiddle]
        exact hsecond
      rw [habsolute]
      simp
  | @relative first blanks second x y hx hblanks hy =>
      have hskip := Text.skipBlanks_eq_nil_iff.mpr hblanks
      have hmiddle := hy.isSignedNumber.isSolid.skipBlanks_append []
      have hsecond := rest?_of_read? (hy.read? (numberEnds_nil second))
      rw [List.append_nil] at hsecond hmiddle
      -- the second offset begins with a sign, so no blank is needed to end the first one
      have hends : NumberEnds first (blanks ++ second) := by
        cases blanks with
        | nil => cases hy <;> simp [NumberEnds]
        | cons c blanks =>
            refine Stops.numberEnds (fun d hd => ?_) first
            rw [List.cons_append, List.head?_cons, Option.mem_some] at hd
            exact List.all_eq_true.mp hblanks d (hd ▸ List.mem_cons_self)
      have hrelative : relativePosition.rest? (first ++ (blanks ++ second)) = some [] := by
        rw [rest?_relativePosition, rest?_of_read? (hx.read? hends), Option.bind_some,
          Text.skipBlanks_append_of_eq_nil hskip, hmiddle, hsecond]
      rw [hrelative]
      simp

/-- Whether a place is written at the front of a text. -/
def BeginsPlace (text : List Char) : Prop := ∃ front p, front <+: text ∧ IsPlace front p

/-- **Places.**  No place is read exactly where none is written. -/
theorem rest?_place_eq_none_iff : place.rest? text = none ↔ ¬ BeginsPlace text := by
  rw [← not_iff_not, not_not]
  constructor
  · intro h
    obtain ⟨rest, hrest⟩ := Option.ne_none_iff_exists'.mp h
    obtain ⟨p, hread⟩ := exists_read?_of_rest? hrest
    have hT : PassesOn fun _ => True := fun _ _ _ _ => trivial
    obtain ⟨_, rfl, core, blanks, rfl, -, hplace⟩ := shows_place hT trivial hread
    exact ⟨core, p, by rw [List.append_assoc]; exact List.prefix_append _ _, hplace⟩
  · rintro ⟨front, p, ⟨more, rfl⟩, hplace⟩
    -- what stands behind the position may be missing, so the position alone decides
    obtain @⟨first, second, third, _, _, _, hposition, -, -⟩ := hplace
    have hfirst : place.rest? first ≠ none := by
      obtain ⟨rest, hrest⟩ := Option.ne_none_iff_exists'.mp hposition.rest?
      rw [rest?_place, hrest, Option.bind_some, rest?_bearings]
      exact Option.some_ne_none _
    obtain ⟨rest, hrest⟩ := Option.ne_none_iff_exists'.mp hfirst
    rw [List.append_assoc]
    exact grows_place hrest _

end ObjectActions.Script
