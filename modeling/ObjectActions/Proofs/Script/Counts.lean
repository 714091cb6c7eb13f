import ObjectActions.Proofs.Script.Destinations
import ObjectActions.Proofs.Script.Journeys
import ObjectActions.Proofs.Script.Words

/-!
# Counts in scripts

The size of a corona, the time between two updates of a picture and the direction of a place are
counts.  However many digits a count is written with, it is there, and it is the number that the
digits denote, held down to the largest count.

Behind an equals sign nothing but digits is looked for.  A direction stands where an altitude may
stand as well, so its digits are first taken for the number of an altitude and given back as no
letter follows them (`IsDirection.read?_altitude`).
-/

namespace ObjectActions.Script

variable {verb : Verb} {row : String} {count : UInt32}

/-! ## Parameters -/

/-- A parameter as the only argument of a verb. -/
theorem ofScript?_parameter (hverb : verb.Sortable) (trigger : Trigger) {p : Parameter}
    {mem : verb.Sets p.attribute} (husage : Usage.parameter p mem ∈ verb.usages)
    {v : p.attribute.Value} (h : p.Spells row.toList (some v)) :
    Action.ofScript? (trigger.name ++ " " ++ verb.word ++ " " ++ (p.key ++ "=" ++ row)) =
      some [⟨trigger, [some (.act verb (Record.unset.set ⟨p.attribute, v, mem⟩))]⟩] := by
  let token : Token verb :=
    ⟨p.key.toList ++ ([] ++ '=' :: ([] ++ row.toList)), _, _, husage,
      .parameter (lower_key p) rfl rfl h, fun _ _ _ _ heq => by cases heq⟩
  have htext : String.ofList token.text = p.key ++ "=" ++ row := by
    rw [← String.toList_inj, String.toList_ofList]
    simp [token]
  have hscript := ofScript?_token hverb trigger (show token.said = some _ from rfl)
  rwa [htext] at hscript

/-! ## Directions -/

/-- One step along both axes. -/
def diagonalStep : Position := .relative (Digits.toBinary64 ['1'] []) (Digits.toBinary64 ['1'] [])

/-- Digits behind a position are its direction. -/
theorem read?_place_of_isDirection (h : IsDirection row.toList count) :
    place.read? ("+1 +1 ".toList ++ row.toList) = some (⟨diagonalStep, none, some count⟩, []) := by
  have hone : IsForcedNumber ['+', '1'] (Digits.toBinary64 ['1'] []) := .plus (.whole (by decide))
  have hplace : IsSpacedPlace ("+1 +1 ".toList ++ row.toList) ⟨diagonalStep, none, some count⟩ :=
    .mk (.relative hone blank hone) .missing (.given blank h)
  exact hplace.read?

/-- A warp that says where to look. -/
theorem ofScript?_lookingWarp (h : IsDirection row.toList count) :
    Action.ofScript? ("create warp +1 +1 " ++ row) =
      some [⟨.create, [some (.warp ⟨diagonalStep, none, some count⟩)]⟩] := by
  have hopening : ∀ c ∈ "+1 +1 ".toList, Text.isNoise c = false := by simp [Text.isNoise]
  have hrow : ∀ c ∈ row.toList, Text.isNoise c = false :=
    fun c hc => isNoise_of_isAddressChar (h.isSolid.2 c hc)
  have hclean : Text.clean ("+1 +1 " ++ row) = "+1 +1 " ++ row := by
    rw [← @String.ofList_toList ("+1 +1 " ++ row), String.toList_append,
      Text.clean_ofList (List.forall_mem_append.mpr ⟨hopening, hrow⟩)]
  have hskip : Text.skipBlanks ("+1 +1 ".toList ++ row.toList) = "+1 +1 ".toList ++ row.toList :=
    Text.skipBlanks_cons_of_not (by decide) _
  have hread : place.read? (Text.skipBlanks (Text.clean ("+1 +1 " ++ row)).toList) =
      some (⟨diagonalStep, none, some count⟩, []) := by
    rw [hclean, String.toList_append, hskip, read?_place_of_isDirection h]
  have hword : Text.lower "create".toList = Trigger.create.name.toList := by decide
  have hscript := (ofScript?_keyword_eq_some_cons_iff hword .warp).mpr
    ⟨rfl, [], opensWith_warp_iff.mpr hread, rfl, rfl⟩
  rwa [← String.append_assoc] at hscript

/-! ## Counts -/

/-- **Counts.**  Whatever row of digits a count is written with, the size of a corona, the update of
a picture and the direction of a warp are there, and they are the number that the row denotes, held
down to the largest count. -/
theorem ofScript?_counts (hne : row ≠ "") (hdigits : ∀ c ∈ row.toList, c.isDigit = true) :
    ∃ count : UInt32, count.toNat = min (Digits.value row.toList) (UInt32.size - 1) ∧
      Action.ofScript? ("create corona size=" ++ row) =
        some [⟨.create, [some (.act .corona
          (Record.unset.set { name := .size, value := count }))]⟩] ∧
      Action.ofScript? ("create picture update=" ++ row) =
        some [⟨.create, [some (.act .picture
          (Record.unset.set { name := .update, value := count }))]⟩] ∧
      Action.ofScript? ("create warp +1 +1 " ++ row) =
        some [⟨.create, [some (.warp ⟨diagonalStep, none, some count⟩)]⟩] := by
  have hrow : IsRow Char.isDigit row.toList := ⟨mt String.toList_eq_nil_iff.mp hne, hdigits⟩
  have hsize := @ofScript?_parameter .corona row (by simp [Verb.Sortable]) .create .size
    (by decide) (by simp [Verb.usages]) _ ⟨hrow, rfl⟩
  have hupdate := @ofScript?_parameter .picture row (by simp [Verb.Sortable]) .create .update
    (by decide) (by simp [Verb.usages]) _ ⟨hrow, rfl⟩
  rw [← String.append_assoc] at hsize hupdate
  exact ⟨Digits.saturate (Digits.value row.toList), Digits.toNat_saturate _, hsize, hupdate,
    ofScript?_lookingWarp ⟨hrow, rfl⟩⟩

/-- Zeros in front of a number that is not too large, a number that is the largest one, and the
first one that is too large. -/
theorem ofScript?_counts_near_largest :
    Action.ofScript? "create corona size=000000004294967294" =
      some [⟨.create, [some (.act .corona
        (Record.unset.set { name := .size, value := (4294967294 : UInt32) }))]⟩] ∧
    Action.ofScript? "create picture update=4294967295" =
      some [⟨.create, [some (.act .picture
        (Record.unset.set { name := .update, value := (4294967295 : UInt32) }))]⟩] ∧
    Action.ofScript? "create warp +1 +1 4294967296" =
      some [⟨.create, [some (.warp ⟨diagonalStep, none, some 4294967295⟩)]⟩] := by
  obtain ⟨padded, hpadded, hsize, -, -⟩ :=
    @ofScript?_counts "000000004294967294" (by decide) (List.all_eq_true.mp (by decide))
  obtain ⟨largest, hlargest, -, hupdate, -⟩ :=
    @ofScript?_counts "4294967295" (by decide) (List.all_eq_true.mp (by decide))
  obtain ⟨held, hheld, -, -, hdirection⟩ :=
    @ofScript?_counts "4294967296" (by decide) (List.all_eq_true.mp (by decide))
  obtain rfl : padded = 4294967294 := UInt32.toNat_inj.mp (hpadded.trans (by decide))
  obtain rfl : largest = 4294967295 := UInt32.toNat_inj.mp (hlargest.trans (by decide))
  obtain rfl : held = 4294967295 := UInt32.toNat_inj.mp (hheld.trans (by decide))
  exact ⟨hsize, hupdate, hdirection⟩

end ObjectActions.Script
