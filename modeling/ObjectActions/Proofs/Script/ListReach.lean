import ObjectActions.Proofs.Script.ClauseReach
import ObjectActions.Proofs.Script.Composition
import ObjectActions.Proofs.Script.ListFailures

/-!
# Lists that are cut off

A list tries its items one after the other, and separators are never reported.  An attempt of an
item that is followed by a separator does not begin behind that separator, since what an item
leaves unexplained does not begin with one (`Explains.length_le_of_mark`).  The furthest
attempt of a list is therefore in its last item, and what the list leaves is what that item leaves
(`exists_lastItem`): a list explains what it leaves if its items do.

Statements are such items before commas and actions before semicolons.
-/

namespace ObjectActions.Script

open Grammar

variable {α : Type} {mark : String} {c : Char} {item : Grammar Rule α}
  {text more rest left front : List Char}

/-! ## Where lists fail -/

section List

variable (hmark : mark.toList = [c]) (hc : Text.isSeparator c)
include hmark

theorem reach?_separatedList_of_none (h : item.rest? text = none) :
    (separatedList mark item).reach? text = item.reach? text := by
  unfold reach?
  rw [failures_separatedList_of_none hmark h]

include hc

theorem reach?_separatedList_of_end (h : item.rest? text = some rest)
    (hend : (Text.skipBlanks rest).head? ≠ some c) :
    (separatedList mark item).reach? text = item.reach? text := by
  unfold reach?
  rw [failures_separatedList_of_end hmark hc h hend]

theorem reach?_separatedList_of_mark (h : item.rest? text = some rest)
    (hnext : (Text.skipBlanks rest).head? = some c) :
    (separatedList mark item).reach? text =
      Option.merge min (item.reach? text)
        ((separatedList mark item).reach? (skipMarks c rest)) := by
  unfold reach?
  rw [failures_separatedList_of_mark hmark hc h hnext, remaining_furthest]

end List

theorem exists_rest?_separatedList (mark : String) (item : Grammar Rule α) (text : List Char) :
    ∃ last, (separatedList mark item).rest? text = some last ∧
      Text.skipBlanks last = (listing mark item text).2 := by
  obtain ⟨last, hread, hlast⟩ := read?_separatedList mark item text
  exact ⟨last, rest?_of_read? hread, hlast⟩

theorem listing_snd_of_rest? (h : (separatedList mark item).rest? text = some rest) :
    (listing mark item text).2 = Text.skipBlanks rest := by
  obtain ⟨last, hlast, hskip⟩ := exists_rest?_separatedList mark item text
  rw [← hskip, Option.some.inj (hlast.symm.trans h)]

/-! ## Items before separators -/

/-- Whether a grammar can stand between separators: it explains what it leaves, does not see what
stands behind a separator, and fails where it begins if it fails. -/
structure IsItem (c : Char) (item : Grammar Rule α) : Prop where
  explains : Explains item
  settled : item.Settled c
  productive : item.Productive
  fails : ∀ ⦃text⦄, item.rest? text = none → ∀ n ∈ item.reach? text, text.length ≤ n
  /-- Separators are no item. -/
  refuses : ∀ ⦃text⦄, skipMarks c text = [] → item.rest? text = none

theorem skipMarks_append_of_length_le (h : more.length ≤ (skipMarks c (text ++ more)).length) :
    skipMarks c (text ++ more) = skipMarks c text ++ more := by
  by_cases hnil : skipMarks c text = []
  · rw [skipMarks_append_of_eq_nil hnil] at h ⊢
    rw [hnil, List.nil_append]
    exact (List.dropWhile_suffix _).eq_of_length_le h
  · exact skipMarks_append_of_ne_nil hnil more

theorem skipMarks_append_of_imp (h : skipMarks c text = [] → more = []) :
    skipMarks c (text ++ more) = skipMarks c text ++ more := by
  by_cases hnil : skipMarks c text = []
  · rw [h hnil, List.append_nil, List.append_nil]
  · exact skipMarks_append_of_ne_nil hnil more

/-- No attempt of an item begins behind the separator that follows the item. -/
theorem Explains.length_le_of_mark (h : Explains item) (hc : Text.isSeparator c)
    (hread : item.rest? text = some rest) (hnext : (Text.skipBlanks rest).head? = some c) {n : Nat}
    (hreach : item.reach? text = some n) : (Text.skipBlanks rest).length ≤ n := by
  by_contra hlt
  obtain ⟨before, more, rfl, rfl⟩ := exists_append_of_le_length (item.reach?_le_length hreach)
  have hsuffix := (skipBlanks_isSuffix rest).trans (isSuffix_of_rest? hread)
  obtain ⟨front, hfront, -⟩ := exists_append_of_isSuffix hsuffix (by omega)
  have hne : front ≠ [] := by
    rintro rfl
    rw [hfront] at hlt
    exact hlt (Nat.le_refl _)
  rw [hfront, head?_append_of_ne_nil hne] at hnext
  have hstop := h.stop ⟨hread, hfront, fun _ => hreach⟩ c hnext
  rw [hc] at hstop
  cases hstop

namespace IsItem

/-- An item that is followed by a separator is read whatever stands behind the separator. -/
theorem exists_before (h : IsItem c item) (hread : item.rest? text = some rest)
    (hnext : (Text.skipBlanks rest).head? = some c) :
    ∃ before behind last, text = before ++ c :: behind ∧ Text.skipBlanks rest = c :: behind ∧
      Text.skipBlanks last = [] ∧
      ∀ other, item.rest? (before ++ c :: other) = some (last ++ c :: other) := by
  obtain ⟨behind, hbehind⟩ := List.head?_eq_some_iff.mp hnext
  have hsuffix := (skipBlanks_isSuffix rest).trans (isSuffix_of_rest? hread)
  rw [hbehind] at hsuffix
  obtain ⟨before, rfl⟩ := hsuffix
  obtain ⟨last, hlast, hblank⟩ := h.explains.cut ⟨hread, hbehind, fun hne => absurd rfl hne⟩
  obtain ⟨value, hvalue⟩ := exists_read?_of_rest? hlast
  have hquote : ¬ OpensQuote last := by
    rw [OpensQuote, hblank]
    simp
  refine ⟨before, behind, last, rfl, hbehind, hblank, fun other => ?_⟩
  exact rest?_of_read? (h.settled.read?_of_some hvalue hquote other)

end IsItem

/-! ## The last item of a list -/

/-- Whether a list that leaves a front and the end of the text ends with the item at the front of
a part of the text. -/
structure LastItem (mark : String) (c : Char) (item : Grammar Rule α)
    (text more front tail : List Char) : Prop where
  isSuffix : tail <:+ text
  /-- With another end the list goes on as the part does. -/
  listing : ∀ other, (tail = [] → other = []) →
    (listing mark item (text ++ other)).2 = (listing mark item (tail ++ other)).2
  begins : Text.skipBlanks (text ++ more) = text ++ more →
    Text.skipBlanks (tail ++ more) = tail ++ more
  /-- There may be nothing but separators in place of the item. -/
  leaves : (∃ rest, Leaves item tail more rest front) ∨ skipMarks c tail = [] ∧ front = []

section Mark

variable {before middle last tail : List Char} (hmark : mark.toList = [c])
  (hc : Text.isSeparator c)
  (hagain : ∀ other, item.rest? (before ++ c :: other) = some (last ++ c :: other))
  (hblank : Text.skipBlanks last = [])
include hmark hc hagain hblank

/-- Behind an item and a separator the list goes on. -/
theorem listing_snd_before (other : List Char) :
    (listing mark item (before ++ c :: other)).2 = (listing mark item (skipMarks c other)).2 := by
  obtain ⟨value, hvalue⟩ := exists_read?_of_rest? (hagain other)
  have hafter : Text.skipBlanks (last ++ c :: other) = c :: other := by
    rw [Text.skipBlanks_append_cons (isBlank_of_isSeparator hc), hblank, List.nil_append]
  have hmarks : skipMarks c (last ++ c :: other) = skipMarks c other := by
    rw [← skipMarks_skipBlanks, hafter, skipMarks_cons_self]
  rw [listing_of_mark hmark hc hvalue (by rw [hafter]; rfl), hmarks]

/-- The last item behind an item and separators is the last item of the whole list. -/
theorem LastItem.of_mark
    (hskip : skipMarks c (middle ++ more) = skipMarks c middle ++ more)
    (h : LastItem mark c item (skipMarks c middle) more front tail) :
    LastItem mark c item (before ++ c :: middle) more front tail where
  isSuffix := h.isSuffix.trans ((List.dropWhile_suffix _).trans ⟨before ++ [c], by simp⟩)
  listing other hother := by
    have hmiddle : skipMarks c middle = [] → other = [] := by
      intro hnil
      exact hother (List.suffix_nil.mp (hnil ▸ h.isSuffix))
    rw [List.append_assoc, List.cons_append, listing_snd_before hmark hc hagain hblank,
      skipMarks_append_of_imp hmiddle]
    exact h.listing other hother
  begins _ := by
    apply h.begins
    rw [← hskip, skipBlanks_skipMarks]
  leaves := h.leaves

end Mark

namespace IsItem

variable (h : IsItem c item) (hmark : mark.toList = [c]) (hc : Text.isSeparator c)
include h hmark hc

theorem exists_lastItem_of_listing (hleft : (listing mark item (text ++ more)).2 = front ++ more)
    (hreach : front ≠ [] →
      (separatedList mark item).reach? (text ++ more) = some more.length) :
    ∃ tail, LastItem mark c item text more front tail := by
  generalize hwhole : text ++ more = whole at hleft hreach
  induction whole using listing_induction (c := c) h.productive generalizing text with
  | none whole hnone =>
      subst hwhole
      have hrest := rest?_eq_none_iff.mpr hnone
      rw [reach?_separatedList_of_none hmark hrest] at hreach
      rw [listing_of_none hmark hc hnone] at hleft
      change skipMarks c (text ++ more) = front ++ more at hleft
      -- what fails where it begins has no front
      have hfront : front = [] := by
        by_contra hne
        have hle := h.fails hrest _ (hreach hne)
        have hlength := length_skipMarks_le (c := c) (text ++ more)
        have hpos := List.length_pos_iff.mpr hne
        rw [hleft, List.length_append] at hlength
        omega
      subst hfront
      have hskip := @skipMarks_append_of_length_le c text more (by simp [hleft])
      have hmarks : skipMarks c text = [] := List.append_cancel_right (hskip.symm.trans hleft)
      exact ⟨text, List.suffix_rfl, fun _ _ => rfl, id, .inr ⟨hmarks, rfl⟩⟩
  | last whole value rest hread hlast =>
      subst hwhole
      have hrest := rest?_of_read? hread
      rw [reach?_separatedList_of_end hmark hc hrest hlast] at hreach
      rw [listing_of_end hmark hc hread hlast] at hleft
      exact ⟨text, List.suffix_rfl, fun _ _ => rfl, id, .inl ⟨rest, hrest, hleft, hreach⟩⟩
  | mark whole value rest hread hnext ih =>
      subst hwhole
      have hrest := rest?_of_read? hread
      obtain ⟨before, behind, last, hsplit, hbehind, hblank, hagain⟩ := h.exists_before hrest hnext
      have hmarks : skipMarks c rest = skipMarks c behind := by
        rw [← skipMarks_skipBlanks, hbehind, skipMarks_cons_self]
      rw [reach?_separatedList_of_mark hmark hc hrest hnext] at hreach
      rw [listing_of_mark hmark hc hread hnext] at hleft
      rw [hmarks] at ih hleft hreach
      -- the separator stands before the end of the text
      have hle := (listing_isSuffix mark item (skipMarks c behind)).length_le
      rw [hleft, List.length_append] at hle
      have hbound := length_skipMarks_le (c := c) behind
      have hsuffix : behind <:+ text ++ more := hsplit ▸ ⟨before ++ [c], by simp⟩
      obtain ⟨middle, rfl, -⟩ := exists_append_of_isSuffix hsuffix (by omega)
      obtain rfl : text = before ++ c :: middle := List.append_cancel_right (by simpa using hsplit)
      have hskip := @skipMarks_append_of_length_le c middle more (by omega)
      -- no attempt of this item is the furthest one, since it would begin behind the separator
      have hfurther : front ≠ [] → (separatedList mark item).reach?
          (skipMarks c (middle ++ more)) = some more.length := by
        intro hne
        refine (eq_or_eq_of_merge (hreach hne)).resolve_left fun hitem => ?_
        have hbehind' := h.explains.length_le_of_mark hc hrest hnext hitem
        rw [hbehind, List.length_cons, List.length_append] at hbehind'
        omega
      obtain ⟨tail, htail⟩ := ih hskip.symm hleft hfurther
      exact ⟨tail, htail.of_mark hmark hc hagain hblank hskip⟩

/-- What a list leaves is what its last item leaves. -/
theorem exists_lastItem (hleaves : Leaves (separatedList mark item) text more left front) :
    ∃ tail, LastItem mark c item text more front tail :=
  h.exists_lastItem_of_listing hmark hc ((listing_snd_of_rest? hleaves.read).trans hleaves.left)
    hleaves.reach

/-- **Lists.**  A list explains what it leaves if its items do. -/
theorem explains_separatedList : Explains (separatedList mark item) where
  cut text more left front hleaves := by
    obtain ⟨tail, htail⟩ := h.exists_lastItem hmark hc hleaves
    obtain ⟨last, hlast, hskip⟩ := exists_rest?_separatedList mark item text
    refine ⟨last, hlast, hskip.trans ?_⟩
    have hlisting := htail.listing [] fun _ => rfl
    rw [List.append_nil, List.append_nil] at hlisting
    rw [hlisting]
    -- the list ends with an item that explains the front, or with marks and no front at all
    rcases htail.leaves with ⟨rest, hitem⟩ | ⟨hmarks, rfl⟩
    · obtain ⟨last', hlast', rfl⟩ := h.explains.cut hitem
      obtain ⟨value, hvalue⟩ := exists_read?_of_rest? hlast'
      rw [listing_of_end hmark hc hvalue]
      intro hhead
      have hstop := h.explains.stop hitem c hhead
      rw [hc] at hstop
      cases hstop
    · rw [listing_of_none hmark hc (rest?_eq_none_iff.mp (h.refuses hmarks))]
      exact hmarks
  stop text more left front hleaves := by
    obtain ⟨tail, htail⟩ := h.exists_lastItem hmark hc hleaves
    rcases htail.leaves with ⟨rest, hitem⟩ | ⟨-, rfl⟩
    · exact h.explains.stop hitem
    · simp
  complete text more left front hleaves hne hskip := by
    obtain ⟨tail, htail⟩ := h.exists_lastItem hmark hc hleaves
    rcases htail.leaves with ⟨rest, hitem⟩ | ⟨-, hnil⟩
    · obtain ⟨further, hsolid, last', hlast', hblank⟩ :=
        h.explains.complete hitem hne (htail.begins hskip)
      obtain ⟨value, hvalue⟩ := exists_read?_of_rest? hlast'
      obtain ⟨last, hlast, hlisting⟩ := exists_rest?_separatedList mark item (text ++ further)
      refine ⟨further, hsolid, last, hlast, hlisting.trans ?_⟩
      rw [htail.listing further fun hnil => absurd hnil (hitem.ne_nil hne),
        listing_of_end hmark hc hvalue (by simp [hblank])]
      exact hblank
    · exact absurd hnil hne

end IsItem

/-! ## Statements and actions -/

/-- Where only separators follow there are nothing but blanks up to the first one. -/
theorem all_isBlank_of_skipMarks (h : skipMarks c text = []) (hc : Text.isSeparator c) :
    (text.takeWhile fun d => !Text.isSeparator d).all Text.isBlank := by
  refine List.all_eq_true.mpr fun d hd => ?_
  have hmember := List.dropWhile_eq_nil_iff.mp h d ((List.takeWhile_prefix _).subset hd)
  have hseparator := List.mem_takeWhile_imp hd
  by_contra hblank
  have heq : d = c := by simpa [hblank] using hmember
  rw [heq, hc] at hseparator
  cases hseparator

theorem isItem_statement : IsItem ',' statement where
  explains := explains_clause.captured.map _
  settled := settled_statement (by decide)
  productive := productive_statement
  fails text hnone n hn := by
    rw [statement, rest?_map, rest?_captured] at hnone
    rw [statement, reach?_map, reach?_captured] at hn
    exact length_le_of_clause hnone hn
  refuses text hmarks := by
    rw [statement, rest?_map, rest?_captured]
    exact rest?_clause_eq_none_iff.mpr (all_isBlank_of_skipMarks hmarks (by decide))

theorem rest?_action_eq_none_iff : action.rest? text = none ↔ trigger.rest? text = none := by
  rw [action, rest?_rule, rest?_map, rest?_seq]
  cases trigger.rest? text with
  | none => simp
  | some last =>
      obtain ⟨rest, hrest, -⟩ := exists_rest?_separatedList "," statement (Text.skipBlanks last)
      simp [hrest]

theorem isItem_action : IsItem ';' action where
  explains := by
    have hstatements : Explains (separatedList "," statement) :=
      isItem_statement.explains_separatedList rfl (by decide)
    exact ((hstatements.seq_word _ _).map _).rule _
  settled := settled_action
  productive := productive_action
  fails text hnone n hn := by
    have htrigger := rest?_action_eq_none_iff.mp hnone
    have hreach : trigger.reach? text = some text.length := by
      rw [trigger, word, reach?_token_of_rest?, ← word, ← trigger, htrigger]
      rfl
    rw [action, rest?_rule, rest?_map] at hnone
    rw [action, reach?_rule, rest?_map, hnone, reach?_map, reach?_seq, htrigger, hreach] at hn
    exact Nat.le_of_eq (Option.some.inj hn)
  refuses text hmarks := by
    have hword := takeWhile_isNameChar_of_blank (all_isBlank_of_skipMarks hmarks (by decide))
    rw [rest?_action_eq_none_iff, trigger, word, rest?_run, hword]
    rfl

/-- **Lists of actions.** -/
theorem explains_actions : Explains (separatedList ";" action) :=
  isItem_action.explains_separatedList rfl (by decide)

end ObjectActions.Script
