import ObjectActions.Proofs.Text.Cutting

/-!
# Texts with single blanks

`Text.squeeze` brings a text into a form in which only its pieces matter: a row of blanks between
two pieces becomes one space, and blanks at the end are dropped.  Two texts have the same pieces
exactly if they are squeezed into the same text, blanks in front aside (`squeeze_skipBlanks`).

Cutting a text comes down to cutting the squeezed one: `skipBlanks_squeeze` for blanks,
`takeWhile_squeeze` and `dropWhile_squeeze` for rows without blanks, and
`trimRight_takeWhile_squeeze` for rows that may hold blanks but do not end with one.
-/

namespace ObjectActions.Text

/-- The pieces of a text between its blanks. -/
def pieces (text : List Char) : List (List Char) :=
  (text.splitOnP isBlank).filter (· ≠ [])

/-- The text with one space for each row of blanks, and without the blanks at its end. -/
def squeeze : List Char → List Char
  | [] => []
  | c :: rest =>
      if isBlank c then
        if rest.head?.all isBlank then squeeze rest else ' ' :: squeeze rest
      else c :: squeeze rest

@[simp] theorem squeeze_nil : squeeze [] = [] := rfl

theorem squeeze_cons_of_not {c : Char} (h : isBlank c = false) (rest : List Char) :
    squeeze (c :: rest) = c :: squeeze rest := by
  simp [squeeze, h]

/-- A blank before another one, or at the end, leaves no trace. -/
theorem squeeze_cons_of_blanks {c : Char} (h : isBlank c = true) {rest : List Char}
    (hrest : rest.head?.all isBlank = true) : squeeze (c :: rest) = squeeze rest := by
  simp [squeeze, h, hrest]

/-- The last blank before a piece becomes a space. -/
theorem squeeze_cons_of_last {c : Char} (h : isBlank c = true) {rest : List Char}
    (hrest : rest.head?.all isBlank = false) : squeeze (c :: rest) = ' ' :: squeeze rest := by
  simp [squeeze, h, hrest]

example : squeeze " a  b ".toList = " a b".toList := by cbv

/-- Squeezing makes no new characters but spaces. -/
theorem mem_of_mem_squeeze {c : Char} {text : List Char} (h : c ∈ squeeze text) :
    c ∈ text ∨ c = ' ' := by
  induction text with
  | nil => cases h
  | cons d rest ih => grind [squeeze]

/-- Squeezing drops nothing but blanks. -/
theorem mem_squeeze {c : Char} {text : List Char} (h : isBlank c = false) (hmem : c ∈ text) :
    c ∈ squeeze text := by
  induction text with
  | nil => cases hmem
  | cons d rest ih => grind [squeeze]

/-- What begins with a blank still does, or nothing is left. -/
theorem all_head?_squeeze (text : List Char) :
    (squeeze text).head?.all isBlank = text.head?.all isBlank := by
  induction text with
  | nil => rfl
  | cons c rest ih =>
      cases hc : isBlank c with
      | false => simp [squeeze_cons_of_not hc, hc]
      | true =>
          cases hrest : rest.head?.all isBlank with
          | true =>
              rw [squeeze_cons_of_blanks hc hrest, ih, hrest, List.head?_cons, Option.all_some, hc]
          | false =>
              rw [squeeze_cons_of_last hc hrest]
              simp [hc, show isBlank ' ' = true by decide]

/-! ## Cutting -/

/-- Blanks are skipped before and after squeezing alike. -/
theorem skipBlanks_squeeze (text : List Char) :
    skipBlanks (squeeze text) = squeeze (skipBlanks text) := by
  induction text with
  | nil => rfl
  | cons c rest ih =>
      cases hc : isBlank c with
      | false => rw [squeeze_cons_of_not hc, skipBlanks_cons_of_not hc, skipBlanks_cons_of_not hc,
          squeeze_cons_of_not hc]
      | true =>
          rw [skipBlanks_cons_of_isBlank hc, ← ih]
          cases hrest : rest.head?.all isBlank with
          | true => rw [squeeze_cons_of_blanks hc hrest]
          | false => rw [squeeze_cons_of_last hc hrest, skipBlanks_cons_of_isBlank (by decide)]

variable {member : Char → Bool}

/-- No row without blanks begins with a blank. -/
theorem cut_of_all_head? (h : ∀ c, isBlank c = true → member c = false) {text : List Char}
    (hhead : text.head?.all isBlank = true) :
    text.takeWhile member = [] ∧ text.dropWhile member = text := by
  cases text with
  | nil => exact ⟨rfl, rfl⟩
  | cons c rest =>
      have hc : member c = false := h c hhead
      simp [hc]

/-- A row without blanks is the same after squeezing. -/
theorem takeWhile_squeeze (h : ∀ c, isBlank c = true → member c = false) (text : List Char) :
    (squeeze text).takeWhile member = text.takeWhile member := by
  induction text with
  | nil => rfl
  | cons c rest ih =>
      cases hc : isBlank c with
      | false => rw [squeeze_cons_of_not hc, List.takeWhile_cons, List.takeWhile_cons, ih]
      | true =>
          have hhead : (c :: rest).head?.all isBlank = true := hc
          rw [(cut_of_all_head? h hhead).1,
            (cut_of_all_head? h ((all_head?_squeeze _).trans hhead)).1]

/-- What follows a row without blanks is squeezed. -/
theorem dropWhile_squeeze (h : ∀ c, isBlank c = true → member c = false) (text : List Char) :
    (squeeze text).dropWhile member = squeeze (text.dropWhile member) := by
  induction text with
  | nil => rfl
  | cons c rest ih =>
      cases hc : isBlank c with
      | false =>
          rw [squeeze_cons_of_not hc, List.dropWhile_cons, List.dropWhile_cons, ih]
          split
          · rfl
          · rw [squeeze_cons_of_not hc]
      | true =>
          have hhead : (c :: rest).head?.all isBlank = true := hc
          rw [(cut_of_all_head? h hhead).2,
            (cut_of_all_head? h ((all_head?_squeeze _).trans hhead)).2]

/-- A row that may hold blanks is squeezed, blanks at its end aside. -/
theorem trimRight_takeWhile_squeeze (h : ∀ c, isBlank c = true → member c = true)
    (text : List Char) :
    trimRight ((squeeze text).takeWhile member) = squeeze (text.takeWhile member) := by
  induction text with
  | nil => rfl
  | cons c rest ih =>
      cases hc : isBlank c with
      | false =>
          rw [squeeze_cons_of_not hc, List.takeWhile_cons, List.takeWhile_cons]
          cases member c with
          | false => rfl
          | true =>
              simp only [if_true, trimRight, ih, squeeze_cons_of_not hc, hc]
              split <;> simp_all
      | true =>
          rw [List.takeWhile_cons_of_pos (h c hc)]
          -- of a run of blanks the last one stands for all of them
          cases hrest : rest.head?.all isBlank with
          | true =>
              have htake : (rest.takeWhile member).head?.all isBlank = true := by
                cases rest with
                | nil => rfl
                | cons d rest => simpa [h d hrest] using hrest
              rw [squeeze_cons_of_blanks hc hrest, squeeze_cons_of_blanks hc htake, ih]
          | false =>
              rw [squeeze_cons_of_last hc hrest, List.takeWhile_cons_of_pos (h ' ' (by decide)),
                trimRight, ih]
              cases rest with
              | nil => cases hrest
              | cons d rest =>
                  have hd : isBlank d = false := hrest
                  cases hmember : member d with
                  | false => simp [hmember, squeeze, hc, show isBlank ' ' = true by decide]
                  | true =>
                      have hkept : (d :: rest.takeWhile member).head?.all isBlank = false := hd
                      rw [List.takeWhile_cons_of_pos hmember, squeeze_cons_of_last hc hkept,
                        squeeze_cons_of_not hd]

/-- A text that ends with a piece is squeezed apart from what follows it. -/
theorem squeeze_append_of_not {c : Char} (h : isBlank c = false) (first second : List Char) :
    squeeze (first ++ c :: second) = squeeze (first ++ [c]) ++ squeeze second := by
  induction first with
  | nil => simp [squeeze_cons_of_not h]
  | cons d first ih =>
      rw [List.cons_append, List.cons_append]
      cases hd : isBlank d with
      | false => rw [squeeze_cons_of_not hd, squeeze_cons_of_not hd, ih, List.cons_append]
      | true =>
          have hhead : (first ++ c :: second).head? = (first ++ [c]).head? := by
            cases first <;> rfl
          cases hblanks : (first ++ [c]).head?.all isBlank with
          | true =>
              rw [squeeze_cons_of_blanks hd (hhead ▸ hblanks), squeeze_cons_of_blanks hd hblanks,
                ih]
          | false =>
              rw [squeeze_cons_of_last hd (hhead ▸ hblanks), squeeze_cons_of_last hd hblanks, ih,
                List.cons_append]

/-! ## Blanks at the end -/

/-- What is left after trimming ends with a character that is no blank. -/
theorem exists_of_trimRight_ne_nil {text : List Char} (h : trimRight text ≠ []) :
    ∃ front c, trimRight text = front ++ [c] ∧ isBlank c = false := by
  induction text with
  | nil => exact absurd rfl h
  | cons d rest ih =>
      rw [trimRight] at h ⊢
      split at h
      · next hrest =>
          cases hd : isBlank d with
          | true => simp [hd] at h
          | false => exact ⟨[], d, by simp, hd⟩
      · next hrest =>
          obtain ⟨front, c, heq, hc⟩ := ih hrest
          exact ⟨d :: front, c, by simp [heq], hc⟩

/-- Nothing is left after trimming of blanks alone. -/
theorem trimRight_eq_nil_iff {text : List Char} : trimRight text = [] ↔ text.all isBlank := by
  obtain ⟨blanks, hblanks, hsplit⟩ := trimRight_append text
  constructor
  · intro hnil
    rw [hnil, List.nil_append] at hsplit
    exact hsplit ▸ hblanks
  · intro hall
    by_contra hne
    obtain ⟨front, c, heq, hc⟩ := exists_of_trimRight_ne_nil hne
    have hmem : c ∈ text := by
      rw [← hsplit, heq]
      simp
    rw [List.all_eq_true.mp hall c hmem] at hc
    cases hc

theorem trimRight_append_of_not {c : Char} (h : isBlank c = false) (front : List Char) :
    trimRight (front ++ [c]) = front ++ [c] := by
  induction front with
  | nil => simp [trimRight, h]
  | cons d front ih =>
      rw [List.cons_append, trimRight, ih]
      split
      · next hnil => simp at hnil
      · rfl

/-- After trimming, nothing is left to trim. -/
@[simp] theorem trimRight_trimRight (text : List Char) :
    trimRight (trimRight text) = trimRight text := by
  by_cases hempty : trimRight text = []
  · rw [hempty]
    rfl
  · obtain ⟨front, c, heq, hc⟩ := exists_of_trimRight_ne_nil hempty
    rw [heq, trimRight_append_of_not hc]

/-- Nothing is left of blanks. -/
theorem squeeze_of_all_isBlank {text : List Char} (h : text.all isBlank) : squeeze text = [] := by
  induction text with
  | nil => rfl
  | cons c rest ih =>
      rw [List.all_cons, Bool.and_eq_true] at h
      have hhead : rest.head?.all isBlank = true := by
        cases rest with
        | nil => rfl
        | cons d rest => exact (Bool.and_eq_true _ _ ▸ h.2).1
      rw [squeeze_cons_of_blanks h.1 hhead, ih h.2]

/-- Blanks at the end are dropped by squeezing as well. -/
theorem squeeze_trimRight (text : List Char) : squeeze (trimRight text) = squeeze text := by
  obtain ⟨blanks, hblanks, hsplit⟩ := trimRight_append text
  by_cases hempty : trimRight text = []
  · rw [hempty, List.nil_append] at hsplit
    rw [hempty, ← hsplit, squeeze_of_all_isBlank hblanks, squeeze_nil]
  · obtain ⟨front, c, heq, hc⟩ := exists_of_trimRight_ne_nil hempty
    have happend := squeeze_append_of_not hc front blanks
    rw [squeeze_of_all_isBlank hblanks, List.append_nil] at happend
    calc squeeze (trimRight text)
        = squeeze (front ++ c :: blanks) := by rw [heq, happend]
      _ = squeeze text := by
          rw [← hsplit, heq, List.append_assoc]
          rfl

/-! ## Pieces -/

/-- A blank ends an empty piece in front of the others, and any other character belongs to the
first piece. -/
private theorem exists_splitOnP_of_cons {c : Char} {rest first : List Char}
    {further : List (List Char)} (h : (c :: rest).splitOnP isBlank = first :: further) :
    ∃ next others, rest.splitOnP isBlank = next :: others ∧
      (isBlank c = true ∧ first = [] ∧ further = next :: others ∨
        isBlank c = false ∧ first = c :: next ∧ further = others) := by
  obtain ⟨next, others, hsplit⟩ := List.exists_cons_of_ne_nil (List.splitOnP_ne_nil isBlank rest)
  rw [List.splitOnP_cons_eq_if_modifyHead, hsplit, List.modifyHead_cons] at h
  refine ⟨next, others, hsplit, ?_⟩
  cases hc : isBlank c with
  | true =>
      rw [hc, if_pos rfl, List.cons.injEq] at h
      exact .inl ⟨rfl, h.1.symm, h.2.symm⟩
  | false =>
      rw [hc, if_neg Bool.false_ne_true, List.cons.injEq] at h
      exact .inr ⟨rfl, h.1.symm, h.2.symm⟩

/-- The first piece is empty exactly if a text begins with a blank or is empty. -/
private theorem isEmpty_of_splitOnP {text first : List Char} {further : List (List Char)}
    (h : text.splitOnP isBlank = first :: further) :
    first.isEmpty = text.head?.all isBlank := by
  cases text with
  | nil =>
      cases h
      rfl
  | cons c rest =>
      obtain ⟨next, others, -, ⟨hc, rfl, -⟩ | ⟨hc, rfl, -⟩⟩ := exists_splitOnP_of_cons h <;>
        simp [hc]

/-- A text is squeezed into its pieces with one space between each two, and one in front if the
text begins with a blank. -/
private theorem squeeze_eq_intercalate {text first : List Char} {further : List (List Char)}
    (h : text.splitOnP isBlank = first :: further) :
    squeeze text = [' '].intercalate (first :: further.filter (· ≠ [])) := by
  induction text generalizing first further with
  | nil =>
      cases h
      rfl
  | cons c rest ih =>
      obtain ⟨next, others, hsplit, ⟨hc, rfl, rfl⟩ | ⟨hc, rfl, rfl⟩⟩ := exists_splitOnP_of_cons h
      · have hnext := isEmpty_of_splitOnP hsplit
        cases hblanks : rest.head?.all isBlank with
        | true =>
            rw [hblanks, List.isEmpty_iff] at hnext
            rw [squeeze_cons_of_blanks hc hblanks, ih hsplit, hnext]
            rfl
        | false =>
            rw [hblanks] at hnext
            have hne : next ≠ [] := by simpa using hnext
            rw [squeeze_cons_of_last hc hblanks, ih hsplit, List.filter_cons_of_pos (by simpa),
              List.intercalate_cons_cons]
            rfl
      · rw [squeeze_cons_of_not hc, ih hsplit]
        cases further.filter (· ≠ []) with
        | nil => simp
        | cons other others => simp

/-- Blanks in front are part of no piece. -/
theorem pieces_cons_of_isBlank {c : Char} (h : isBlank c = true) (rest : List Char) :
    pieces (c :: rest) = pieces rest := by
  rw [pieces, pieces, List.splitOnP_cons_eq_if_modifyHead, h, if_pos rfl,
    List.filter_cons_of_neg (by simp)]

/-- Squeezing changes at most how many empty pieces there are. -/
private theorem splitOnP_squeeze {text first : List Char} {further : List (List Char)}
    (h : text.splitOnP isBlank = first :: further) :
    ∃ further', (squeeze text).splitOnP isBlank = first :: further' ∧
      further'.filter (· ≠ []) = further.filter (· ≠ []) := by
  induction text generalizing first further with
  | nil => exact ⟨further, h, rfl⟩
  | cons c rest ih =>
      obtain ⟨next, others, hsplit, ⟨hc, rfl, rfl⟩ | ⟨hc, rfl, rfl⟩⟩ := exists_splitOnP_of_cons h
      · obtain ⟨others', hothers', hfilter⟩ := ih hsplit
        have hnext := isEmpty_of_splitOnP hsplit
        cases hblanks : rest.head?.all isBlank with
        | true =>
            rw [hblanks, List.isEmpty_iff] at hnext
            subst hnext
            refine ⟨others', ?_, ?_⟩
            · rw [squeeze_cons_of_blanks hc hblanks, hothers']
            · rw [hfilter, List.filter_cons_of_neg (by simp)]
        | false =>
            refine ⟨next :: others', ?_, ?_⟩
            · rw [squeeze_cons_of_last hc hblanks, List.splitOnP_cons_eq_if_modifyHead, hothers']
              rfl
            · rw [List.filter_cons, List.filter_cons, hfilter]
      · obtain ⟨others', hothers', hfilter⟩ := ih hsplit
        refine ⟨others', ?_, hfilter⟩
        rw [squeeze_cons_of_not hc, List.splitOnP_cons_eq_if_modifyHead, hothers', hc]
        rfl

/-- Squeezing keeps the pieces. -/
@[simp] theorem pieces_squeeze (text : List Char) : pieces (squeeze text) = pieces text := by
  obtain ⟨first, further, hsplit⟩ := List.exists_cons_of_ne_nil (List.splitOnP_ne_nil isBlank text)
  obtain ⟨further', hsqueeze, hfilter⟩ := splitOnP_squeeze hsplit
  rw [pieces, pieces, hsqueeze, hsplit, List.filter_cons, List.filter_cons, hfilter]

/-- Texts with the same pieces are squeezed into the same text, blanks in front aside. -/
theorem squeeze_skipBlanks (text : List Char) :
    squeeze (skipBlanks text) = [' '].intercalate (pieces text) := by
  induction text with
  | nil => rfl
  | cons c rest ih =>
      obtain ⟨next, others, hsplit⟩ :=
        List.exists_cons_of_ne_nil (List.splitOnP_ne_nil isBlank rest)
      cases hc : isBlank c with
      | true =>
          rw [skipBlanks_cons_of_isBlank hc, ih, pieces_cons_of_isBlank hc]
      | false =>
          have hcons : (c :: rest).splitOnP isBlank = (c :: next) :: others := by
            rw [List.splitOnP_cons_eq_if_modifyHead, hsplit, hc]
            rfl
          rw [skipBlanks_cons_of_not hc, squeeze_eq_intercalate hcons, pieces, hcons,
            List.filter_cons_of_pos (by simp)]

end ObjectActions.Text
