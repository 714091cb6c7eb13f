import ObjectActions.Proofs.Script.FirstStatement

/-!
# Journeys

The verb `teleport` may have the name of a world and a place behind it, the keyword `warp` must have
a place.  Without a world both lead to the same place and leave the same text:

```text
behind the keyword     warp                  teleport
a place                the place             the place, in the same world
a name                 is not understood     a world, with the place behind it if there is one
anything else          is not understood     nothing
```

A place begins with a number and the name of a world with a letter, so where one of them is read the
other one is given up at once.

* `opensWith_warp_iff` and `opensWith_teleport_iff`: both commands are given exactly where the place
  is read;
* `ofScript?_warp_iff_teleport`: the statement for scripts.
-/

namespace ObjectActions.Script

open Grammar

variable {text rest : List Char} {p : Place}

theorem teleport_sets_worldName : Verb.teleport.Sets .worldName := by decide

theorem teleport_sets_coordinates : Verb.teleport.Sets .coordinates := by decide

/-- What a teleport to a place in the same world sets. -/
def journeyTo (p : Place) : Record Verb.teleport.attributes :=
  Record.unset.set ⟨.coordinates, p, teleport_sets_coordinates⟩

/-! ## Names of worlds and places -/

/-- A place begins with a number. -/
theorem IsPlace.exists_cons (h : IsPlace text p) : ∃ c rest, text = c :: rest ∧ beginsNumber c = true := by
  have hfront {front : List Char} {x : Binary64} (h : IsSignedNumber front x) (more : List Char) :
      ∃ c rest, front ++ more = c :: rest ∧ beginsNumber c = true := by
    obtain ⟨c, rest, rfl⟩ := List.exists_cons_of_ne_nil h.ne_nil
    exact ⟨c, rest ++ more, rfl, h.head c rfl⟩
  obtain ⟨hposition, -, -⟩ := h
  cases hposition with
  | absolute hns hblanks hew =>
      cases hns with
      | positive h | negative h =>
          rw [List.append_assoc, List.append_assoc]
          exact hfront (.unsigned h) _
  | relative hx hblanks hy =>
      rw [List.append_assoc]
      exact hfront hx.isSignedNumber _

/-- Where a place is read no world has a name. -/
theorem read?_worldName_of_place (h : place.read? text = some (p, rest)) :
    worldName.read? text = none := by
  have hplace : place.rest? text ≠ none := by
    rw [rest?_of_read? h]
    exact Option.some_ne_none _
  obtain ⟨front, q, ⟨more, rfl⟩, hwritten⟩ := not_not.mp (mt rest?_place_eq_none_iff.mpr hplace)
  obtain ⟨c, behind, rfl, hc⟩ := hwritten.exists_cons
  rw [← rest?_eq_none_iff, List.cons_append, rest?_worldName_cons,
    not_isAlpha_of_beginsNumber hc]
  rfl

/-! ## Warps -/

theorem opensWith_warp_iff :
    OpensWith (Keyword.warp.word.toList ++ ' ' :: text) (some (.warp p)) rest ↔
      place.read? (Text.skipBlanks text) = some (p, rest) := by
  have hblank : Text.skipBlanks (' ' :: text) = Text.skipBlanks text :=
    Text.skipBlanks_cons_of_isBlank (by decide) text
  have hnamed : (namedClause .warp).read? (Keyword.warp.word.toList ++ ' ' :: text) =
      (place.read? (Text.skipBlanks text)).map fun result => (.warp result.1, result.2) := by
    rw [namedClause, Grammar.read?, read?_map, read?_seqRight, read?_keyword_self,
      Option.bind_some, hblank]
  rw [opensWith_iff]
  constructor
  · rintro ⟨said, hread, hcommand⟩
    rcases clause_cases hread with ⟨k, hk⟩ | ⟨-, hinvalid⟩
    · have hword := frontWord_of_rest? (rest?_of_read? hk)
      obtain rfl := Keyword.word_injective
        (String.toList_inj.mp (hword.symm.trans (frontWord_keyword .warp text)))
      rw [hnamed, Option.map_eq_some_iff] at hk
      obtain ⟨⟨q, last⟩, hplace, heq⟩ := hk
      cases heq
      cases hcommand ""
      exact hplace
    · rw [read?_invalidClause] at hinvalid
      split at hinvalid
      · cases hinvalid
      · cases hinvalid
        cases hcommand ""
  · intro hplace
    have hclause := read?_clause_of_frontWord (frontWord_keyword .warp text)
      (hnamed.trans (by rw [hplace, Option.map_some]))
    exact ⟨_, hclause, fun _ => rfl⟩

/-! ## Teleports -/

/-- What a teleport sets, given the world and the place behind it. -/
def journeySettings (world : Option String) (destination : Option Place) :
    List (Setting Verb.teleport.attributes) :=
  (world.map fun w => ⟨.worldName, w, teleport_sets_worldName⟩).toList ++
    (destination.map fun p => ⟨.coordinates, p, teleport_sets_coordinates⟩).toList

theorem exists_record_of_journey (world : Option String) (destination : Option Place) :
    ∃ record : Record Verb.teleport.attributes,
      Record.ofSettings (journeySettings world destination) = .ok record ∧
        record.get? .worldName = world ∧ record.get? .coordinates = destination := by
  cases world <;> cases destination <;> exact ⟨_, rfl, rfl, rfl⟩

theorem eq_journeyTo_iff {record : Record Verb.teleport.attributes} :
    record = journeyTo p ↔ record.get? .worldName = none ∧ record.get? .coordinates = some p := by
  rw [Record.eq_iff_forall_mem, List.forall_mem_cons, List.forall_mem_singleton]
  exact Iff.rfl

/-- A teleport is read with the world and the place behind it, of which either may be missing. -/
theorem read?_namedClause_teleport {world : Option String} {destination : Option Place}
    {middle : List Char}
    (hworld : worldName.optional.read? (Text.skipBlanks text) = some (world, middle))
    (hplace : place.optional.read? (Text.skipBlanks middle) = some (destination, rest)) :
    (namedClause (.verb .teleport)).read?
        ((Keyword.verb .teleport).word.toList ++ ' ' :: text) =
      some (.act .teleport (journeySettings world destination), rest) := by
  have hblank : Text.skipBlanks (' ' :: text) = Text.skipBlanks text :=
    Text.skipBlanks_cons_of_isBlank (by decide) text
  rw [namedClause, Grammar.read?, read?_map, verbArguments, read?_map, read?_seqRight,
    read?_keyword_self, Option.bind_some, hblank, read?_seq, sets, read?_optional_map, hworld,
    Option.map_some, Option.bind_some, sets, read?_optional_map, hplace]
  cases world <;> cases destination <;> rfl

theorem opensWith_teleport_iff :
    OpensWith ((Keyword.verb .teleport).word.toList ++ ' ' :: text)
        (some (.act .teleport (journeyTo p))) rest ↔
      place.read? (Text.skipBlanks text) = some (p, rest) := by
  obtain ⟨⟨world, middle⟩, hworld⟩ :
      ∃ result, worldName.optional.read? (Text.skipBlanks text) = some result :=
    ⟨_, read?_optional _ _⟩
  obtain ⟨⟨destination, last⟩, hplace⟩ :
      ∃ result, place.optional.read? (Text.skipBlanks middle) = some result :=
    ⟨_, read?_optional _ _⟩
  have hclause := read?_clause_of_frontWord (frontWord_keyword (.verb .teleport) text)
    (read?_namedClause_teleport hworld hplace)
  obtain ⟨record, hrecord, hrecordWorld, hrecordPlace⟩ :=
    exists_record_of_journey world destination
  have hcommand := command?_of_ofSettings hrecord
  rw [opensWith_iff, hclause]
  constructor
  · rintro ⟨_, ⟨⟩, hjourney⟩
    have hsame := (hcommand "").symm.trans (hjourney "")
    rw [Option.some.injEq, Command.act.injEq] at hsame
    obtain ⟨hnone, hsome⟩ := eq_journeyTo_iff.mp (eq_of_heq hsame.2)
    obtain rfl := hrecordWorld.symm.trans hnone
    obtain rfl := hrecordPlace.symm.trans hsome
    obtain ⟨-, rfl⟩ := read?_optional_none_iff.mp hworld
    rw [Text.skipBlanks_skipBlanks] at hplace
    exact read?_optional_some_iff.mp hplace
  · intro hread
    have hnone := read?_optional_none_iff.mpr ⟨read?_worldName_of_place hread, rfl⟩
    obtain ⟨rfl, rfl⟩ := Prod.mk.inj (Option.some.inj (hworld.symm.trans hnone))
    rw [Text.skipBlanks_skipBlanks, read?_optional_some_iff.mpr hread] at hplace
    obtain ⟨rfl, rfl⟩ := Prod.mk.inj (Option.some.inj hplace)
    refine ⟨_, rfl, fun written => ?_⟩
    rw [hcommand written, eq_journeyTo_iff.mpr ⟨hrecordWorld, hrecordPlace⟩]

/-! ## Scripts -/

/-- **Warps and teleports.**  Behind a trigger, a warp to a place says the same as a teleport to
this place in the same world, together with everything that stands behind either of them. -/
theorem ofScript?_warp_iff_teleport {trigger : Trigger} {word : String}
    (hword : Text.lower word.toList = trigger.name.toList) (script : String) (first : Trigger)
    (p : Place) (commands : List (Option Command)) (actions : List Action) :
    Action.ofScript? (word ++ " warp " ++ script) =
        some (⟨first, some (.warp p) :: commands⟩ :: actions) ↔
      Action.ofScript? (word ++ " teleport " ++ script) =
        some (⟨first, some (.act .teleport (journeyTo p)) :: commands⟩ :: actions) := by
  have hsplit (k : Keyword) : word ++ (" " ++ k.word ++ " ") ++ script =
      word ++ " " ++ (k.word ++ " " ++ script) := by simp only [String.append_assoc]
  have hopens (k : Keyword) : Text.skipBlanks (Text.clean (k.word ++ " " ++ script)).toList =
      k.word.toList ++ ' ' :: (Text.clean script).toList := by
    rw [toList_clean_word k.isAlpha_of_mem_word]
    exact Text.skipBlanks_eq_self (isBlank_head_keyword k _)
  have hwarp := hsplit .warp
  have hteleport := hsplit (.verb .teleport)
  rw [show " warp " = " " ++ Keyword.warp.word ++ " " from rfl,
    show " teleport " = " " ++ (Keyword.verb .teleport).word ++ " " from rfl, hwarp, hteleport,
    ofScript?_eq_some_cons_iff hword, ofScript?_eq_some_cons_iff hword, hopens, hopens]
  simp only [opensWith_warp_iff, opensWith_teleport_iff]

/-- All items of a place at once, with another command and another action behind them. -/
theorem ofScript?_teleport_of_warp :
    Action.ofScript? "Bump teleport 10N2.5w-.5a90 , sign; create url" =
      some [⟨.bump,
          [some (.act .teleport (journeyTo
              ⟨.absolute (Digits.toBinary64 ['1', '0'] []) (-Digits.toBinary64 ['2'] ['5']),
                some ⟨true, -Digits.toBinary64 [] ['5']⟩, some 90⟩)),
            some (.act .sign Record.unset)]⟩,
        ⟨.create, [some (.act .url Record.unset)]⟩] := by
  have hword : Text.lower "Bump".toList = Trigger.bump.name.toList := by decide
  refine (ofScript?_warp_iff_teleport hword "10N2.5w-.5a90 , sign; create url" _ _ _ _).mp ?_
  decide +kernel

end ObjectActions.Script
