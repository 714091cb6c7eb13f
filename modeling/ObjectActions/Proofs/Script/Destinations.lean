import ObjectActions.Proofs.Script.Opening
import ObjectActions.Proofs.Script.Places

/-!
# Where a warp leads

A place has a position and up to two items behind it, and all of these begin with a number.  So
whatever is tried at the wrong place has to be given up before anything is lost:

```text
item                        tried before it         given up
two numbers with signs      numbers with letters    at the first sign
a direction                 an altitude             behind the digits, where no letter stands
nothing                     both of them            at once
```

If blanks stand between the items, then a place is read as the one that was written.
`IsSpacedPlace` says how places are written in this way, `IsSpacedPlace.read?` that they are read
and `ofScript?_warp` that a script of one warp leads there.
-/

namespace ObjectActions.Script

open Grammar

variable {text rest : List Char}

/-! ## What is written how -/

/-- Something behind one blank or more, or nothing at all. -/
inductive SetOff {α : Type} (Written : List Char → α → Prop) : List Char → Option α → Prop where
  | missing : SetOff Written [] none
  | given (gap : Gap) {text : List Char} {value : α} (h : Written text value) :
      SetOff Written (gap.blanks ++ text) (some value)

/-- How a position is written with blanks between its numbers. -/
inductive IsSpacedPosition : List Char → Position → Prop where
  | absolute {first second : List Char} {ns ew : Binary64} (hns : IsAxisNumber 'n' 's' first ns)
      (gap : Gap) (hew : IsAxisNumber 'e' 'w' second ew) :
      IsSpacedPosition (first ++ (gap.blanks ++ second)) (.absolute ns ew)
  | relative {first second : List Char} {x y : Binary64} (hx : IsForcedNumber first x) (gap : Gap)
      (hy : IsForcedNumber second y) :
      IsSpacedPosition (first ++ (gap.blanks ++ second)) (.relative x y)

/-- How a place is written with blanks between its items. -/
inductive IsSpacedPlace : List Char → Place → Prop where
  | mk {first second third : List Char} {position : Position} {altitude : Option Altitude}
      {direction : Option UInt32} (hposition : IsSpacedPosition first position)
      (haltitude : SetOff IsAltitude second altitude)
      (hdirection : SetOff IsDirection third direction) :
      IsSpacedPlace (first ++ (second ++ third)) ⟨position, altitude, direction⟩

section SetOff

variable {α : Type} {Written : List Char → α → Prop} {value : Option α}

theorem SetOff.stops_append (h : SetOff Written text value) (hrest : Stops rest) :
    Stops (text ++ rest) := by
  cases h with
  | missing => exact hrest
  | given gap h =>
      rw [List.append_assoc]
      exact gap.stops _

/-- Blanks and what holds none are not cleaned away. -/
theorem SetOff.not_isNoise (hWritten : ∀ text value, Written text value → IsSolid text)
    (h : SetOff Written text value) : ∀ c ∈ text, Text.isNoise c = false := by
  cases h with
  | missing => simp
  | given gap h =>
      intro c hc
      rcases List.mem_append.mp hc with hc | hc
      · exact isNoise_of_isBlank (List.all_eq_true.mp gap.all_blank c hc)
      · exact isNoise_of_isAddressChar ((hWritten _ _ h).2 c hc)

end SetOff

/-! ## The items -/

theorem isSolid_append_letter {letter c : Char} (h : IsSolid text) (hletter : letter.toLower = c)
    (hc : c.isAlpha = true) : IsSolid (text ++ [letter]) := by
  have halpha : letter.isAlpha = true := by rw [← Text.isAlpha_toLower, hletter, hc]
  exact h.append ⟨by simp, by simpa using isAddressChar_of_isNameChar (isNameChar_of_isAlpha halpha)⟩

theorem IsAxisNumber.isSolid {positive negative : Char} {x : Binary64}
    (h : IsAxisNumber positive negative text x) (hpositive : positive.isAlpha = true)
    (hnegative : negative.isAlpha = true) : IsSolid text := by
  cases h with
  | positive h hletter => exact isSolid_append_letter h.isSolid hletter hpositive
  | negative h hletter => exact isSolid_append_letter h.isSolid hletter hnegative

theorem IsAltitude.isSolid {altitude : Altitude} (h : IsAltitude text altitude) :
    IsSolid text := by
  cases h with
  | absolute h hletter => exact isSolid_append_letter h.isSolid hletter (by decide)
  | relative h hletter =>
      exact isSolid_append_letter h.isSignedNumber.isSolid hletter (by decide)

theorem IsDirection.isSolid {direction : UInt32} (h : IsDirection text direction) :
    IsSolid text :=
  h.1.mono fun _ => isAddressChar_of_isDigit

theorem read?_height {letter : Char} {x : Binary64} (h : IsNumber text x)
    (hletter : letter.toLower = 'a') (rest : List Char) :
    (join number (.literal "a")).read? (text ++ letter :: rest) = some ((x, ()), rest) := by
  have hsame : Text.lower [letter] = Text.lower "a".toList := by
    rw [show Text.lower "a".toList = ['a'] by decide, ← hletter]
    rfl
  have hafter : (literal "a" : Grammar Rule Unit).read? (letter :: rest) = some ((), rest) := by
    rw [Grammar.read?, ← List.singleton_append, after?_of_lower_eq hsame, Option.map_some]
  rw [read?_join, h.read? (numberEnds_letter hletter (by decide) _ _), Option.bind_some, hafter,
    Option.map_some]

theorem IsAltitude.read? {height : Altitude} (h : IsAltitude text height) (rest : List Char) :
    altitude.read? (text ++ rest) = some (height, rest) := by
  rw [altitude, Grammar.read?, read?_map, read?_join, read?_optional]
  cases h with
  | absolute h hletter =>
      have hheight := read?_height h hletter rest
      rw [List.append_assoc, List.singleton_append, h.read?_sign, Option.elim_none,
        Option.bind_some, hheight]
      rfl
  | relative h hletter =>
      rw [List.append_assoc, List.singleton_append]
      cases h with
      | plus h | minus h =>
          have hheight := read?_height h hletter rest
          rw [List.cons_append, read?_sign]
          simp [hheight, turn]

/-- What is written as a direction is given up as an altitude. -/
theorem IsDirection.read?_altitude {code : UInt32} (h : IsDirection text code) :
    altitude.read? text = none := by
  have hnumber := IsNumber.whole h.1
  have hsign := hnumber.read?_sign []
  have hread := hnumber.read? (numberEnds_nil text)
  rw [List.append_nil] at hsign hread
  rw [altitude, Grammar.read?, read?_map, read?_join, read?_optional, hsign, Option.elim_none,
    Option.bind_some, read?_join, hread]
  rfl

theorem IsDirection.read? {code : UInt32} (h : IsDirection text code) :
    direction.read? text = some (code, []) := by
  have hrow : (digits .integer).read? text = some (String.ofList text, []) :=
    read?_row_self .integer h.1
  rw [direction, Grammar.read?, integer, read?_map, hrow, Option.map_some, String.toList_ofList,
    Digits.getD_word? h.1.2, h.2]

/-- What begins with a sign is given up as a point of the grid. -/
theorem IsForcedNumber.read?_absolutePosition {x : Binary64} (h : IsForcedNumber text x)
    (rest : List Char) : absolutePosition.read? (text ++ rest) = none := by
  obtain ⟨tail, hsign⟩ : ∃ tail, sign.rest? (text ++ rest) = some tail := by
    cases h with
    | plus | minus => exact ⟨_, rest?_of_read? (read?_sign _)⟩
  exact rest?_eq_none_iff.mp (rest?_absolutePosition_of_sign hsign)

/-! ## Whole places -/

/-- A direction that may be missing is read where it stands. -/
theorem read?_optional_direction {code : Option UInt32} (h : SetOff IsDirection text code) :
    (Grammar.optional direction).read? (Text.skipBlanks text) = some (code, []) := by
  cases h with
  | missing => rfl
  | given gap h =>
      rw [gap.skipBlanks_append, h.isSolid.skipBlanks, read?_optional, h.read?, Option.elim_some]

/-- An altitude that may be missing is read where it stands; a direction is not mistaken for it. -/
theorem exists_read?_optional_altitude {height : Option Altitude} {code : Option UInt32}
    (h : SetOff IsAltitude text height) (hrest : SetOff IsDirection rest code) :
    ∃ last, (Grammar.optional altitude).read? (Text.skipBlanks (text ++ rest)) =
        some (height, last) ∧ Text.skipBlanks last = Text.skipBlanks rest := by
  cases h with
  | missing =>
      refine ⟨Text.skipBlanks rest, ?_, Text.skipBlanks_skipBlanks rest⟩
      rw [List.nil_append]
      cases hrest with
      | missing => rfl
      | given gap hdirection =>
          rw [gap.skipBlanks_append, hdirection.isSolid.skipBlanks, read?_optional,
            hdirection.read?_altitude, Option.elim_none]
  | given gap haltitude =>
      refine ⟨rest, ?_, rfl⟩
      rw [List.append_assoc, gap.skipBlanks_append, haltitude.isSolid.skipBlanks_append,
        read?_optional, haltitude.read?, Option.elim_some]

theorem IsSpacedPosition.read? {p : Position} (h : IsSpacedPosition text p) (hrest : Stops rest) :
    position.read? (text ++ rest) = some (p, rest) := by
  cases h with
  | @absolute first second ns ew hns gap hew =>
      have hfirst := hns.read? .nsCoordinate .nsAxis (by decide) (by decide) (by decide)
        (gap.blanks ++ (second ++ rest))
      have hsecond := hew.read? .ewCoordinate .ewAxis (by decide) (by decide) (by decide) rest
      have habsolute : absolutePosition.read? (first ++ (gap.blanks ++ (second ++ rest))) =
          some (.absolute ns ew, rest) := by
        rw [absolutePosition, Grammar.read?, read?_map, read?_seq]
        refine Option.map_eq_some_iff.mpr ⟨((ns, ew), rest), ?_, rfl⟩
        refine Option.bind_eq_some_iff.mpr ⟨_, hfirst, ?_⟩
        rw [gap.skipBlanks_append, hew.skipBlanks_append]
        exact Option.map_eq_some_iff.mpr ⟨_, hsecond, rfl⟩
      rw [List.append_assoc, List.append_assoc, position, orElse_eq_choice, Grammar.read?,
        habsolute]
  | @relative first second x y hx gap hy =>
      have hfirst := hx.read? ((gap.stops (second ++ rest)).numberEnds first)
      have hsecond := hy.read? (hrest.numberEnds second)
      have hskip := hy.isSignedNumber.isSolid.skipBlanks_append rest
      rw [List.append_assoc, List.append_assoc, position, orElse_eq_choice, Grammar.read?,
        hx.read?_absolutePosition]
      show relativePosition.read? _ = _
      rw [relativePosition, Grammar.read?, read?_map, read?_seq, hfirst, Option.bind_some,
        gap.skipBlanks_append, hskip, hsecond]
      rfl

/-- **Places.**  What is written as a place, with blanks between its items, is read as this
place. -/
theorem IsSpacedPlace.read? {destination : Place} (h : IsSpacedPlace text destination) :
    place.read? text = some (destination, []) := by
  obtain @⟨first, second, third, _, _, _, hposition, haltitude, hdirection⟩ := h
  have hstops : Stops (second ++ third) := by
    have hnil : Stops [] := by simp [Stops]
    have hthird := hdirection.stops_append hnil
    rw [List.append_nil] at hthird
    exact haltitude.stops_append hthird
  obtain ⟨last, hread, hskip⟩ := exists_read?_optional_altitude haltitude hdirection
  have hlast := read?_optional_direction hdirection
  rw [← hskip] at hlast
  rw [place, Grammar.read?, read?_map, read?_seq, hposition.read? hstops, Option.bind_some, read?_seq,
    hread, Option.bind_some, hlast]
  rfl

/-! ## Scripts -/

/-- A position begins with its first number and holds nothing that is cleaned away. -/
theorem IsSpacedPosition.exists_isSolid {p : Position} (h : IsSpacedPosition text p) :
    ∃ first behind, text = first ++ behind ∧ IsSolid first ∧
      ∀ c ∈ behind, Text.isNoise c = false := by
  cases h with
  | absolute hns gap hew =>
      have hbehind : SetOff (IsAxisNumber 'e' 'w') _ _ := .given gap hew
      exact ⟨_, _, rfl, hns.isSolid (by decide) (by decide),
        hbehind.not_isNoise fun _ _ h => h.isSolid (by decide) (by decide)⟩
  | relative hx gap hy =>
      have hbehind : SetOff IsForcedNumber _ _ := .given gap hy
      exact ⟨_, _, rfl, hx.isSignedNumber.isSolid,
        hbehind.not_isNoise fun _ _ h => h.isSignedNumber.isSolid⟩

theorem IsSpacedPlace.exists_isSolid {destination : Place} (h : IsSpacedPlace text destination) :
    ∃ first behind, text = first ++ behind ∧ IsSolid first ∧
      ∀ c ∈ behind, Text.isNoise c = false := by
  obtain ⟨hposition, haltitude, hdirection⟩ := h
  obtain ⟨first, behind, rfl, hfirst, hbehind⟩ := hposition.exists_isSolid
  refine ⟨first, behind ++ (_ ++ _), List.append_assoc _ _ _, hfirst, fun c hc => ?_⟩
  rcases List.mem_append.mp hc with hc | hc
  · exact hbehind c hc
  · rcases List.mem_append.mp hc with hc | hc
    · exact haltitude.not_isNoise (fun _ _ h => h.isSolid) c hc
    · exact hdirection.not_isNoise (fun _ _ h => h.isSolid) c hc

/-- **Warps.**  A script of one warp to a place that is written with blanks between its items has
one command, which leads to this very place. -/
theorem ofScript?_warp {block : List Char} {destination : Place}
    (h : IsSpacedPlace block destination) :
    Action.ofScript? ("create warp " ++ String.ofList block) =
      some [⟨.create, [some (.warp destination)]⟩] := by
  obtain ⟨first, behind, hblock, hfirst, hbehind⟩ := h.exists_isSolid
  have hskip : Text.skipBlanks (' ' :: block) = block := by
    rw [Text.skipBlanks_cons_of_isBlank (by decide), hblock, hfirst.skipBlanks_append]
  have hclause : (namedClause .warp).read?
      (Keyword.warp.word.toList ++ ' ' :: (String.ofList block).toList) =
        some (.warp destination, []) := by
    rw [String.toList_ofList, namedClause, Grammar.read?, read?_map, read?_seqRight,
      read?_keyword_self, Option.bind_some, hskip, h.read?, Option.map_some]
  have hclean : ∀ c ∈ (String.ofList block).toList, Text.isNoise c = false := by
    intro c hc
    rw [String.toList_ofList, hblock] at hc
    rcases List.mem_append.mp hc with hc | hc
    · exact isNoise_of_isAddressChar (hfirst.2 c hc)
    · exact hbehind c hc
  have hscript := ofScript?_keyword .create hclean hclause rfl
  rwa [← String.append_assoc] at hscript

/-- All items at once, with a direction that is too large. -/
theorem ofScript?_warp_of_four_items :
    Action.ofScript? "create warp 10.5N 20w -5a 99999999999" =
      some [⟨.create, [some (.warp
        ⟨.absolute (Digits.toBinary64 ['1', '0'] ['5']) (-Digits.toBinary64 ['2', '0'] []),
          some ⟨true, -Digits.toBinary64 ['5'] []⟩, some 4294967295⟩)]⟩] := by
  let blank : Gap := ⟨[' '], by simp, by decide⟩
  have hns := @IsAxisNumber.positive 'n' 's' _ _ 'N'
    (@IsNumber.fraction ['1', '0'] ['5'] (List.all_eq_true.mp (by decide)) (by decide)) (by decide)
  have hew := @IsAxisNumber.negative 'e' 'w' _ _ 'w'
    (@IsNumber.whole ['2', '0'] (by decide)) (by decide)
  have haltitude := @IsAltitude.relative _ _ 'a'
    (.minus (@IsNumber.whole ['5'] (by decide))) (by decide)
  have hdirection : IsDirection "99999999999".toList 4294967295 := ⟨by decide, by decide⟩
  have hplace := IsSpacedPlace.mk (.absolute hns blank hew) (.given blank haltitude)
    (.given blank hdirection)
  -- the script comes from the items, so that only two closed texts are compared
  have hscript := ofScript?_warp hplace
  exact hscript

end ObjectActions.Script
