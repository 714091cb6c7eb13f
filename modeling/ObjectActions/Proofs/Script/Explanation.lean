import ObjectActions.Proofs.Script.FormReach

/-!
# What a failed attempt says

When a part of a script has been read and something is left behind it, the furthest attempt
splits what is left in two: a front up to where the attempt begins, which may be empty, and the
rest of the text.  A grammar `Explains` what it leaves if three things hold:

* without the rest of the text the front is left as it was, so that a text that is cut off at the
  attempt is read exactly if the front is empty;
* a front does not begin with a separator, so the attempt belongs to what stands before the next
  separator;
* a text that is cut off behind a front can be completed to one that is read as a whole.

The three hold of a grammar behind a keyword or a trigger if they hold of the grammar
(`Explains.seq_word`).
-/

namespace ObjectActions.Script

open Grammar

variable {α β : Type} {text more left front : List Char}

/-- Whether a grammar has read a text up to a front and the end of the text, and its furthest
attempt begins at that end, unless the front is empty. -/
structure Leaves (grammar : Grammar Rule α) (text more left front : List Char) : Prop where
  read : grammar.rest? (text ++ more) = some left
  left : Text.skipBlanks left = front ++ more
  reach : front ≠ [] → grammar.reach? (text ++ more) = some more.length

/-- Whether a grammar can take up a whole text, apart from blanks at its end. -/
def TakesUp (grammar : Grammar Rule α) (text : List Char) : Prop :=
  ∃ last, grammar.rest? text = some last ∧ Text.skipBlanks last = []

/-- Whether the furthest attempt of a grammar tells what could have followed. -/
structure Explains (grammar : Grammar Rule α) : Prop where
  cut : ∀ ⦃text more left front⦄, Leaves grammar text more left front →
    ∃ last, grammar.rest? text = some last ∧ Text.skipBlanks last = front
  stop : ∀ ⦃text more left front⦄, Leaves grammar text more left front →
    ∀ c ∈ front.head?, Text.isSeparator c = false
  complete : ∀ ⦃text more left front⦄, Leaves grammar text more left front → front ≠ [] →
    Text.skipBlanks (text ++ more) = text ++ more →
    ∃ further, IsSolid further ∧ TakesUp grammar (text ++ further)

namespace Leaves

variable {grammar : Grammar Rule α}

theorem length_le (h : Leaves grammar text more left front) :
    front.length + more.length ≤ left.length := by
  have hskip := Text.length_skipBlanks_le left
  rwa [h.left, List.length_append] at hskip

theorem front_length_le (h : Leaves grammar text more left front) :
    front.length ≤ text.length := by
  have hle := h.length_le
  have hlength := (isSuffix_of_rest? h.read).length_le
  rw [List.length_append] at hlength
  omega

theorem ne_nil (h : Leaves grammar text more left front) (hne : front ≠ []) : text ≠ [] := by
  have hle := h.front_length_le
  have hpos := List.length_pos_iff.mpr hne
  exact List.length_pos_iff.mp (by omega)

/-- Only what is left and where attempts fail matters. -/
theorem congr {other : Grammar Rule β} (hrest : ∀ text, grammar.rest? text = other.rest? text)
    (hreach : ∀ text, grammar.reach? text = other.reach? text)
    (h : Leaves grammar text more left front) : Leaves other text more left front where
  read := hrest _ ▸ h.read
  left := h.left
  reach hne := hreach _ ▸ h.reach hne

theorem of_rule {name : Rule} (h : Leaves (.rule name grammar) text more left front) :
    Leaves grammar text more left front where
  read := h.read
  left := h.left
  reach hne := reach?_of_rule (h.reach hne) (h.ne_nil hne)

end Leaves

namespace Explains

variable {grammar : Grammar Rule α}

theorem congr {other : Grammar Rule β} (h : Explains grammar)
    (hrest : ∀ text, other.rest? text = grammar.rest? text)
    (hreach : ∀ text, other.reach? text = grammar.reach? text) : Explains other where
  cut _ _ _ _ hleaves := by
    obtain ⟨last, hlast, hfront⟩ := h.cut (hleaves.congr hrest hreach)
    exact ⟨last, (hrest _).trans hlast, hfront⟩
  stop _ _ _ _ hleaves := h.stop (hleaves.congr hrest hreach)
  complete _ _ _ _ hleaves hne hskip := by
    obtain ⟨further, hsolid, last, hlast, hblank⟩ :=
      h.complete (hleaves.congr hrest hreach) hne hskip
    exact ⟨further, hsolid, last, (hrest _).trans hlast, hblank⟩

theorem map (h : Explains grammar) (f : α → β) : Explains (.map f grammar) :=
  h.congr (fun _ => rest?_map f grammar) fun _ => reach?_map f grammar

theorem captured (h : Explains grammar) : Explains grammar.captured :=
  h.congr (fun _ => rest?_captured grammar) fun _ => reach?_captured grammar

theorem rule (h : Explains grammar) (name : Rule) : Explains (.rule name grammar) where
  cut _ _ _ _ hleaves := h.cut hleaves.of_rule
  stop _ _ _ _ hleaves := h.stop hleaves.of_rule
  complete _ _ _ _ hleaves := h.complete hleaves.of_rule

end Explains

/-! ## Behind a word -/

section Word

variable {rule : Rule} {value? : String → Option α} {second : Grammar Rule β}

/-- A word is read before what is left begins, and what stands behind it leaves the same. -/
theorem Leaves.exists_middle (h : Leaves (.seq (word rule value?) second) text more left front) :
    ∃ middle, (word rule value?).rest? (text ++ more) = some (middle ++ more) ∧
      Text.skipBlanks (middle ++ more) = Text.skipBlanks middle ++ more ∧
      Leaves second (Text.skipBlanks middle) more left front := by
  have hread := h.read
  rw [rest?_seq] at hread
  obtain ⟨last, hword, hsecond⟩ := Option.bind_eq_some_iff.mp hread
  have hle := h.length_le
  have hlength := (isSuffix_of_rest? hsecond).length_le
  have hskip := Text.length_skipBlanks_le last
  obtain ⟨middle, rfl, -⟩ := exists_append_of_rest? hword (by omega)
  have hmiddle : Text.skipBlanks (middle ++ more) = Text.skipBlanks middle ++ more :=
    skipBlanks_append_of_length_le (by omega)
  refine ⟨middle, hword, hmiddle, hmiddle ▸ hsecond, h.left, fun hne => ?_⟩
  rcases exists_of_reach?_seq (h.reach hne) with hreach | ⟨middle', -, hword', -, hreach⟩
  · -- the word has been read, so nothing was tried in vain before it
    rw [word, reach?_token_of_rest?, ← word, hword] at hreach
    cases hreach
  · rw [hword, Option.some.injEq] at hword'
    rwa [List.append_cancel_right hword']

end Word

theorem Explains.seq_word {second : Grammar Rule β} (h : Explains second) (rule : Rule)
    (value? : String → Option α) : Explains (.seq (word rule value?) second) where
  cut text more left front hleaves := by
    obtain ⟨middle, hword, -, hsecond⟩ := hleaves.exists_middle
    obtain ⟨last, hlast, hfront⟩ := h.cut hsecond
    have hcut : (word rule value?).rest? text = some middle := cuts_run _ _ _ hword
    exact ⟨last, by rw [rest?_seq, hcut, Option.bind_some, hlast], hfront⟩
  stop text more left front hleaves := by
    obtain ⟨middle, -, -, hsecond⟩ := hleaves.exists_middle
    exact h.stop hsecond
  complete text more left front hleaves hne _ := by
    obtain ⟨middle, hword, hmiddle, hsecond⟩ := hleaves.exists_middle
    have hskip := Text.skipBlanks_skipBlanks (middle ++ more)
    rw [hmiddle] at hskip
    obtain ⟨further, hsolid, last, hlast, hblank⟩ := h.complete hsecond hne hskip
    have hmiddleNe : middle ≠ [] := by
      rintro rfl
      exact hsecond.ne_nil hne rfl
    have hword' : (word rule value?).rest? (text ++ further) = some (middle ++ further) :=
      rest?_run_append _ _ _ hword hmiddleNe further
    refine ⟨further, hsolid, last, ?_, hblank⟩
    rw [rest?_seq, hword', Option.bind_some, hsolid.skipBlanks_after, hlast]

end ObjectActions.Script
