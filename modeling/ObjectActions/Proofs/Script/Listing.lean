import ObjectActions.Proofs.Script.Separators

/-!
# Lists between separators

`Script.separatedList` reads items between separators that may be repeated and may stand
at the end.  The grammar does so in three layers, and each of them skips blanks of its own.
`listing` says what comes out of it, apart from blanks:

* where no item can be read, nothing is read but separators (`listing_of_none`);
* behind an item the list goes on if a separator follows (`listing_of_mark`), however
  often it is repeated, and ends otherwise (`listing_of_end`).

The main result is `listing_append`: if the items are settled before their separator,
then a list with a separator and more text behind it is the first list followed by the list
that the other text begins with, as long as the first list takes up its whole text, and
stops where it stopped before otherwise.
-/

namespace ObjectActions.Script

open Grammar

variable {α : Type} {mark : String} {c : Char} {item : Grammar Rule α}

/-! ## Rows of separators -/

/-- What is left of a text after the blanks and the separators it begins with. -/
def skipMarks (c : Char) (text : List Char) : List Char :=
  text.dropWhile fun d => Text.isBlank d || d == c

@[simp] theorem skipMarks_nil : skipMarks c [] = [] := rfl

theorem length_skipMarks_le (text : List Char) : (skipMarks c text).length ≤ text.length :=
  (List.dropWhile_sublist _).length_le

theorem skipMarks_eq_self {text : List Char}
    (h : ∀ d ∈ text.head?, Text.isBlank d = false ∧ d ≠ c) : skipMarks c text = text := by
  cases text with
  | nil => rfl
  | cons d rest => simp [skipMarks, h d rfl]

theorem head?_skipMarks (text : List Char) :
    ∀ d ∈ (skipMarks c text).head?, Text.isBlank d = false ∧ d ≠ c := by
  intro d hd
  have hdrop := List.head?_dropWhile_not (fun d => Text.isBlank d || d == c) text
  unfold skipMarks at hd
  rw [Option.mem_def] at hd
  rw [hd] at hdrop
  simpa using hdrop

@[simp] theorem skipMarks_skipMarks (text : List Char) :
    skipMarks c (skipMarks c text) = skipMarks c text :=
  skipMarks_eq_self (head?_skipMarks text)

@[simp] theorem skipBlanks_skipMarks (text : List Char) :
    Text.skipBlanks (skipMarks c text) = skipMarks c text :=
  Text.skipBlanks_eq_self fun d hd => (head?_skipMarks text d hd).1

@[simp] theorem skipMarks_skipBlanks (text : List Char) :
    skipMarks c (Text.skipBlanks text) = skipMarks c text := by
  induction text with
  | nil => rfl
  | cons d rest ih =>
      by_cases hd : Text.isBlank d = true
      · rw [Text.skipBlanks_cons_of_isBlank hd, ih]
        simp [skipMarks, hd]
      · rw [Text.skipBlanks_cons_of_not (by simpa using hd)]

/-- A separator that comes first is skipped. -/
@[simp] theorem skipMarks_cons_self (text : List Char) :
    skipMarks c (c :: text) = skipMarks c text := by
  simp [skipMarks]

/-- Only blanks are skipped where no separator comes first. -/
theorem skipMarks_of_head?_ne {text : List Char} (h : (Text.skipBlanks text).head? ≠ some c) :
    skipMarks c text = Text.skipBlanks text := by
  rw [← skipMarks_skipBlanks]
  refine skipMarks_eq_self fun d hd => ⟨Text.isBlank_head_skipBlanks text d hd, ?_⟩
  rintro rfl
  exact h hd

theorem skipMarks_append_of_ne_nil {first : List Char} (h : skipMarks c first ≠ [])
    (second : List Char) : skipMarks c (first ++ second) = skipMarks c first ++ second :=
  Text.dropWhile_append_of_ne_nil h second

theorem skipMarks_append_of_eq_nil {first : List Char} (h : skipMarks c first = [])
    (second : List Char) : skipMarks c (first ++ second) = skipMarks c second := by
  unfold skipMarks at h ⊢
  rw [List.dropWhile_append, if_pos (by simp [h])]

/-! ## Reading separators -/

theorem productive_separator (hmark : mark.toList = [c]) :
    (Grammar.literal mark : Grammar Rule Unit).Productive :=
  productive_literal (by simp [hmark])

theorem productive_separators_item (hmark : mark.toList = [c]) :
    (separators mark *> item).Productive :=
  ((((productive_separator hmark).seq _).map _).seq _).map _

section Reading

variable (hmark : mark.toList = [c]) (hc : Text.isSeparator c)
include hmark hc

theorem after?_separator (text : List Char) :
    after? mark.toList text = if text.head? = some c then some text.tail else none := by
  have halpha : c.isAlpha = false := by
    rcases Text.isSeparator_iff.mp hc with rfl | rfl <;> decide
  rw [hmark, after?_mark halpha]

theorem skipBlanks_items_separator (text : List Char) :
    Text.skipBlanks (items (Grammar.literal mark : Grammar Rule Unit) text).2 =
      skipMarks c text := by
  have hprod := productive_separator hmark
  induction text using hprod.items_induction with
  | stop text hread =>
      rw [items_of_none hread, skipMarks_of_head?_ne]
      intro hhead
      simp [read?, after?_separator hmark hc, hhead] at hread
  | step text value rest hread ih =>
      rw [items_of_some hprod hread, ih]
      rw [read?, after?_separator hmark hc] at hread
      split at hread
      · next hhead =>
          obtain ⟨tail, htail⟩ := List.head?_eq_some_iff.mp hhead
          simp only [htail, List.tail_cons, Option.map_some, Option.some.injEq,
            Prod.mk.injEq] at hread
          rw [← skipMarks_skipBlanks text, htail, skipMarks_cons_self, hread.2]
      · cases hread

/-- An item behind separators. -/
theorem read?_separators_item (text : List Char) :
    (separators mark *> item).read? text =
      if text.head? = some c then item.read? (skipMarks c text) else none := by
  have hmany := skipBlanks_items_separator hmark hc (Text.skipBlanks text.tail)
  rw [skipMarks_skipBlanks] at hmany
  rw [read?_seqRight, separators, oneOrMore, read?_map, read?_seq, read?,
    after?_separator hmark hc]
  by_cases h : text.head? = some c
  · obtain ⟨rest, rfl⟩ := List.head?_eq_some_iff.mp h
    rw [List.tail_cons] at hmany
    simp only [h, if_true, Option.map_some, Option.bind_some, List.tail_cons, read?_many, hmany,
      skipMarks_cons_self]
  · simp [h]

end Reading

/-! ## Reading lists -/

/-- The items of a list at the front of a text, and what is left of the text behind the
blanks that follow it. -/
def listing (mark : String) (item : Grammar Rule α) (text : List Char) : List α × List Char :=
  ((separatedList mark item).read? text).elim ([], text) fun result =>
    (result.1, Text.skipBlanks result.2)

/-- Induction over the items of a list. -/
theorem listing_induction (hprod : item.Productive) {motive : List Char → Prop}
    (none : ∀ text, item.read? text = none → motive text)
    (mark : ∀ text value rest, item.read? text = some (value, rest) →
      (Text.skipBlanks rest).head? = some c → motive (skipMarks c rest) → motive text)
    (last : ∀ text value rest, item.read? text = some (value, rest) →
      (Text.skipBlanks rest).head? ≠ some c → motive text)
    (text : List Char) : motive text := by
  induction hlength : text.length using Nat.strongRecOn generalizing text with
  | ind length ih =>
      cases hread : item.read? text with
      | none => exact none text hread
      | some result =>
          obtain ⟨value, rest⟩ := result
          by_cases h : (Text.skipBlanks rest).head? = some c
          · have hlt := hprod hread
            have hskip := length_skipMarks_le (c := c) rest
            exact mark text value rest hread h (ih _ (by omega) _ rfl)
          · exact last text value rest hread h

theorem read?_separatedList (mark : String) (item : Grammar Rule α) (text : List Char) :
    ∃ rest, (separatedList mark item).read? text = some ((listing mark item text).1, rest) ∧
      Text.skipBlanks rest = (listing mark item text).2 := by
  obtain ⟨result, hread⟩ : ∃ result, (separatedList mark item).read? text = some result := by
    rw [separatedList, read?_map, read?_seq, read?_optional]
    simp [read?_many]
  refine ⟨result.2, ?_, ?_⟩ <;> rw [listing, hread] <;> rfl

theorem listing_isSuffix (mark : String) (item : Grammar Rule α) (text : List Char) :
    (listing mark item text).2 <:+ text := by
  obtain ⟨rest, hread, hrest⟩ := read?_separatedList mark item text
  exact hrest ▸ (skipBlanks_isSuffix rest).trans (read?_isSuffix _ hread)

section Listing

variable (hmark : mark.toList = [c]) (hc : Text.isSeparator c)
include hmark hc

/-- Nothing but separators is read where no item can be read. -/
theorem listing_of_none {text : List Char} (hread : item.read? text = none) :
    listing mark item text = ([], skipMarks c text) := by
  have hmarks := skipBlanks_items_separator hmark hc (Text.skipBlanks text)
  rw [skipMarks_skipBlanks] at hmarks
  have hseparated : (separated mark item).read? text = none := by
    rw [separated, read?_map, read?_seq, hread]
    rfl
  rw [listing, separatedList, read?_map, read?_seq, read?_optional, hseparated]
  simp [read?_many, hmarks]

/-- Behind an item the list goes on with items that follow separators. -/
theorem listing_of_some {text rest : List Char} {value : α}
    (hread : item.read? text = some (value, rest)) :
    listing mark item text =
      (value :: (items (separators mark *> item) (Text.skipBlanks rest)).1,
        skipMarks c (items (separators mark *> item) (Text.skipBlanks rest)).2) := by
  have hseparated : (separated mark item).read? text =
      some (value :: (items (separators mark *> item) (Text.skipBlanks rest)).1,
        (items (separators mark *> item) (Text.skipBlanks rest)).2) := by
    rw [separated, read?_map, read?_seq, hread]
    simp only [read?_many, Option.map_some, Option.bind_some]
  rw [listing, separatedList, read?_map, read?_seq, read?_optional, hseparated]
  generalize items (separators mark *> item) (Text.skipBlanks rest) = further
  have hmarks := skipBlanks_items_separator hmark hc (Text.skipBlanks further.2)
  rw [skipMarks_skipBlanks] at hmarks
  simp [read?_many, hmarks]

/-- The items behind an item are the list that begins behind the separators. -/
theorem items_separators_of_mark {text : List Char} (h : (Text.skipBlanks text).head? = some c) :
    (items (separators mark *> item) text).1 = (listing mark item (skipMarks c text)).1 ∧
      skipMarks c (items (separators mark *> item) text).2 =
        (listing mark item (skipMarks c text)).2 := by
  have hfurther := @productive_separators_item _ _ _ item hmark
  have hitem := @read?_separators_item _ _ _ item hmark hc (Text.skipBlanks text)
  rw [if_pos h, skipMarks_skipBlanks] at hitem
  cases hread : item.read? (skipMarks c text) with
  | none =>
      rw [hread] at hitem
      rw [items_of_none hitem, listing_of_none hmark hc hread, skipMarks_skipMarks]
      exact ⟨rfl, rfl⟩
  | some result =>
      obtain ⟨value, rest⟩ := result
      rw [hread] at hitem
      have hskip := items_skipBlanks hfurther rest
      rw [items_of_some hfurther hitem, listing_of_some hmark hc hread]
      refine ⟨by rw [hskip.1], ?_⟩
      rw [← skipMarks_skipBlanks, ← hskip.2, skipMarks_skipBlanks]

/-- A separator is followed by more of the list. -/
theorem listing_of_mark {text rest : List Char} {value : α}
    (hread : item.read? text = some (value, rest))
    (h : (Text.skipBlanks rest).head? = some c) :
    listing mark item text =
      (value :: (listing mark item (skipMarks c rest)).1,
        (listing mark item (skipMarks c rest)).2) := by
  have hfurther := @items_separators_of_mark _ _ _ item hmark hc (Text.skipBlanks rest) (by simpa)
  rw [skipMarks_skipBlanks] at hfurther
  rw [listing_of_some hmark hc hread, hfurther.1, hfurther.2]

/-- Anything else ends the list. -/
theorem listing_of_end {text rest : List Char} {value : α}
    (hread : item.read? text = some (value, rest))
    (h : (Text.skipBlanks rest).head? ≠ some c) :
    listing mark item text = ([value], Text.skipBlanks rest) := by
  have hfurther := @read?_separators_item _ _ _ item hmark hc
    (Text.skipBlanks (Text.skipBlanks rest))
  rw [if_neg (by simpa using h)] at hfurther
  rw [listing_of_some hmark hc hread, items_of_none hfurther, skipMarks_skipBlanks,
    skipMarks_of_head?_ne h]

end Listing

/-! ## Lists in a row -/

theorem mark_ne_quote (hc : Text.isSeparator c) : c ≠ '"' := by
  rcases Text.isSeparator_iff.mp hc with rfl | rfl <;> decide

theorem head?_append_of_ne_nil {first : List Char} (h : first ≠ []) (second : List Char) :
    (first ++ second).head? = first.head? := by
  cases first with
  | nil => exact absurd rfl h
  | cons d rest => rfl

/-- **Lists in a row.**  A list that takes up its text is continued by the list behind the
next separator, and a list that does not stops where it stopped. -/
theorem listing_append (h : item.Settled c) (hprod : item.Productive)
    (hmark : mark.toList = [c]) (hc : Text.isSeparator c)
    {text : List Char} (more : List Char)
    (hread : item.read? text ≠ none) (hquote : ¬ OpensQuote (listing mark item text).2) :
    listing mark item (text ++ c :: more) =
      if (listing mark item text).2 = [] then
        ((listing mark item text).1 ++ (listing mark item (skipMarks c more)).1,
          (listing mark item (skipMarks c more)).2)
      else
        ((listing mark item text).1, (listing mark item text).2 ++ c :: more) := by
  have hblank := isBlank_of_isSeparator hc
  induction text using listing_induction (c := c) hprod with
  | none text hnone => exact absurd hnone hread
  | last text value rest hsome hlast =>
      rw [listing_of_end hmark hc hsome hlast] at hquote ⊢
      have hsome' := h.read?_of_some hsome (by simpa using hquote) more
      have hskip := Text.skipBlanks_append_cons hblank rest more
      by_cases hrest : Text.skipBlanks rest = []
      · have hmarks : skipMarks c (rest ++ c :: more) = skipMarks c more := by
          rw [← skipMarks_skipBlanks, hskip, hrest, List.nil_append, skipMarks_cons_self]
        rw [listing_of_mark hmark hc hsome' (by simp [hskip, hrest]), hmarks, if_pos hrest]
        rfl
      · have hlast' : (Text.skipBlanks (rest ++ c :: more)).head? ≠ some c := by
          rw [hskip, head?_append_of_ne_nil hrest]
          exact hlast
        rw [listing_of_end hmark hc hsome' hlast', hskip, if_neg hrest]
  | mark text value rest hsome hnext ih =>
      rw [listing_of_mark hmark hc hsome hnext] at hquote ⊢
      have hopen : ¬ OpensQuote rest := by
        rw [OpensQuote, hnext, Option.some.injEq]
        exact mark_ne_quote hc
      have hsome' := h.read?_of_some hsome hopen more
      have hne : Text.skipBlanks rest ≠ [] := by
        intro hnil
        simp [hnil] at hnext
      have hnext' : (Text.skipBlanks (rest ++ c :: more)).head? = some c := by
        rw [Text.skipBlanks_append_cons hblank, head?_append_of_ne_nil hne, hnext]
      rw [listing_of_mark hmark hc hsome' hnext']
      by_cases hmarks : skipMarks c rest = []
      · -- only separators follow
        have hnil : listing mark item [] = ([], []) :=
          listing_of_none hmark hc hprod.read?_nil
        rw [skipMarks_append_of_eq_nil hmarks, skipMarks_cons_self, hmarks, hnil]
        simp
      · rw [skipMarks_append_of_ne_nil hmarks]
        cases hfurther : item.read? (skipMarks c rest) with
        | none =>
            have hfurther' := h.read?_of_none hfurther more
            rw [listing_of_none hmark hc hfurther, listing_of_none hmark hc hfurther',
              skipMarks_skipMarks, skipMarks_append_of_ne_nil (by simpa), skipMarks_skipMarks,
              if_neg hmarks]
        | some result =>
            rw [ih (by simp [hfurther]) hquote]
            split <;> simp_all

end ObjectActions.Script
