import ObjectActions.Proofs.Script.ClauseReach
import ObjectActions.Proofs.Script.Places
import ObjectActions.Proofs.Script.Spacing

/-!
# Texts that are not understood

A clause that begins with none of the keywords is not understood.  Of the keywords only `warp`
asks for something behind it, so a clause is not understood either if it begins with `warp` and no
place stands there.  `IsUnrecognized` says this, together with what the text of such a clause
cannot hold, without reading anything.

The two directions are `read?_clause_of_isUnrecognized`, that such a text is read as one
clause up to its end, and `exists_isUnrecognized`, that nothing else is ever taken for a clause
that is not understood.
-/

namespace ObjectActions.Script

open Grammar

variable {text rest : List Char}

/-! ## Keywords without what belongs to them -/

/-- Whether a text begins with no keyword, or with `warp` and no place behind it. -/
def Unread (text : List Char) : Prop :=
  (∀ k : Keyword, frontWord text ≠ k.word.toList) ∨
    frontWord text = Keyword.warp.word.toList ∧
      ¬ BeginsPlace (Text.skipBlanks (text.dropWhile Text.isNameChar))

theorem rest?_namedClause_warp (h : frontWord text = Keyword.warp.word.toList) :
    (namedClause .warp).rest? text =
      place.rest? (Text.skipBlanks (text.dropWhile Text.isNameChar)) := by
  rw [namedClause, rest?_rule, rest?_map, seqRight_eq_map, rest?_map, rest?_seq, rest?_keyword,
    if_pos h, Option.bind_some]

/-- No clause of a keyword is read exactly from the unread texts. -/
theorem forall_rest?_namedClause_iff :
    (∀ k, (namedClause k).rest? text = none) ↔ Unread text := by
  constructor
  · intro hnone
    by_cases hword : ∃ k : Keyword, frontWord text = k.word.toList
    · obtain ⟨k, hk⟩ := hword
      obtain rfl := eq_warp_of_rest? hk (hnone k)
      have hplace := hnone .warp
      rw [rest?_namedClause_warp hk, rest?_place_eq_none_iff] at hplace
      exact .inr ⟨hk, hplace⟩
    · exact .inl (not_exists.mp hword)
  · rintro hunread k
    by_cases hk : frontWord text = k.word.toList
    · rcases hunread with hnone | ⟨hwarp, hplace⟩
      · exact absurd hk (hnone k)
      · obtain rfl := Keyword.word_injective (String.toList_inj.mp (hk.symm.trans hwarp))
        rwa [rest?_namedClause_warp hk, rest?_place_eq_none_iff]
    · rw [rest?_eq_none_iff]
      exact read?_namedClause_of_ne hk

/-- Where no keyword is followed by what belongs to it the clause is not understood. -/
theorem read?_clause_of_unread (h : Unread text) :
    clause.read? text = invalidClause.read? text := by
  have hnone (k : Keyword) : (namedClause k).read? text = none :=
    rest?_eq_none_iff.mp (forall_rest?_namedClause_iff.mpr h k)
  unfold clause
  generalize Keyword.all = keywords
  induction keywords with
  | nil => rfl
  | cons k keywords ih =>
      rw [List.foldr_cons, orElse_eq_choice, read?, hnone k]
      exact ih

/-! ## Texts that are not understood -/

/-- Which texts are taken for commands that are not understood. -/
structure IsUnrecognized (text : List Char) : Prop where
  ne_nil : text ≠ []
  not_separator : ∀ c ∈ text, Text.isSeparator c = false
  not_blank_first : ∀ c ∈ text.head?, Text.isBlank c = false
  not_blank_last : ∀ c ∈ text.getLast?, Text.isBlank c = false
  unread : Unread text

/-- A text without separators that does not end with a blank is cut off as a whole. -/
theorem piece_invalidPhrase_eq_self (hseparator : ∀ c ∈ text, Text.isSeparator c = false)
    (hlast : ∀ c ∈ text.getLast?, Text.isBlank c = false) : invalidPhrase.piece text = text := by
  have hall : text.takeWhile (fun c => !Text.isSeparator c) = text :=
    List.takeWhile_eq_self_iff.mpr fun c hc => by simp [hseparator c hc]
  rw [invalidPhrase, Lexeme.piece, hall]
  rcases List.eq_nil_or_concat' text with rfl | ⟨front, c, rfl⟩
  · rfl
  · exact Text.trimRight_append_of_not (hlast c (by simp)) front

/-- A text that is not understood is read as one clause. -/
theorem read?_clause_of_isUnrecognized (h : IsUnrecognized text) :
    clause.read? text = some (.invalid (String.ofList text), []) := by
  have hpiece := piece_invalidPhrase_eq_self h.not_separator h.not_blank_last
  have hrest : invalidPhrase.rest text = [] := by rw [Lexeme.rest, hpiece, List.drop_length]
  rw [read?_clause_of_unread h.unread, read?_invalidClause, hpiece, hrest, if_neg h.ne_nil]

/-! ## The text of a clause -/

theorem BeginsPlace.of_isPrefix {more : List Char} (h : BeginsPlace text) (hmore : text <+: more) :
    BeginsPlace more := by
  obtain ⟨front, p, hfront, hplace⟩ := h
  exact ⟨front, p, hfront.trans hmore, hplace⟩

theorem skipBlanks_isPrefix (first second : List Char) :
    Text.skipBlanks first <+: Text.skipBlanks (first ++ second) := by
  rw [Text.skipBlanks_append]
  split
  · next hnil =>
      rw [hnil]
      exact List.nil_prefix
  · exact List.prefix_append _ _

/-- What follows a clause does not matter for its being understood if the clause ends where its
front word could not go on. -/
theorem Unread.of_append (hrest : ∀ c ∈ rest.head?, Text.isNameChar c = false)
    (h : Unread (text ++ rest)) : Unread text := by
  have htake : (text ++ rest).takeWhile Text.isNameChar = text.takeWhile Text.isNameChar := by
    cases rest with
    | nil => rw [List.append_nil]
    | cons c rest => exact Text.takeWhile_append_cons_of_not (hrest c rfl) text rest
  have hdrop : (text ++ rest).dropWhile Text.isNameChar =
      text.dropWhile Text.isNameChar ++ rest := by
    cases rest with
    | nil => rw [List.append_nil, List.append_nil]
    | cons c rest => exact Text.dropWhile_append_cons_of_not (hrest c rfl) text rest
  unfold Unread frontWord at h ⊢
  rw [htake, hdrop] at h
  exact h.imp_right fun ⟨hwarp, hplace⟩ =>
    ⟨hwarp, fun hbegins => hplace (hbegins.of_isPrefix (skipBlanks_isPrefix _ _))⟩

theorem isNameChar_head_rest_invalidPhrase (text : List Char) :
    ∀ c ∈ (invalidPhrase.rest text).head?, Text.isNameChar c = false := by
  intro c hc
  cases hblank : Text.isBlank c with
  | true =>
      have haddress := isAddressChar_of_isBlank hblank
      simp only [Text.isAddressChar, Bool.or_eq_false_iff] at haddress
      exact haddress.1
  | false =>
      have hskip : Text.skipBlanks (invalidPhrase.rest text) = invalidPhrase.rest text := by
        refine Text.skipBlanks_eq_self fun d hd => ?_
        obtain rfl := Option.mem_unique hc hd
        exact hblank
      rw [← hskip, skipBlanks_rest_invalidPhrase] at hc
      exact isNameChar_of_isSeparator (by simpa using head?_dropWhile text c hc)

/-- A clause that is not understood is cut from a text of which it takes away a front that is
not understood. -/
theorem exists_isUnrecognized {value : Clause} (hhead : ∀ c ∈ text.head?, Text.isBlank c = false)
    (hunread : Unread text) (hread : invalidClause.read? text = some (value, rest)) :
    ∃ front, text = front ++ rest ∧ IsUnrecognized front ∧
      value = .invalid (String.ofList front) := by
  rw [read?_invalidClause] at hread
  split at hread
  · cases hread
  · next hne =>
      cases hread
      have hsplit := (invalidPhrase.piece_append_rest text).symm
      refine ⟨invalidPhrase.piece text, hsplit, ?_, rfl⟩
      have hfirst := Text.isBlank_head_skipBlanks (invalidPhrase.piece text)
      rw [skipBlanks_piece hhead] at hfirst
      obtain ⟨front, c, hlast, hblank⟩ := Text.exists_of_trimRight_ne_nil hne
      rw [hsplit] at hunread
      -- the piece is what stands before the next separator, without the blanks at its end
      have hseparator : ∀ d ∈ invalidPhrase.piece text, Text.isSeparator d = false := by
        intro d hd
        obtain ⟨blanks, -, htrim⟩ :=
          Text.trimRight_append (text.takeWhile fun c => !Text.isSeparator c)
        have hmem := List.mem_takeWhile_imp (htrim ▸ List.mem_append_left blanks hd)
        simpa using hmem
      have hlast' : ∀ d ∈ (invalidPhrase.piece text).getLast?, Text.isBlank d = false := by
        intro d hd
        have hpiece : invalidPhrase.piece text = front ++ [c] := hlast
        rw [hpiece, List.getLast?_concat, Option.mem_some] at hd
        exact hd ▸ hblank
      exact ⟨hne, hseparator, hfirst, hlast',
        hunread.of_append (isNameChar_head_rest_invalidPhrase text)⟩

end ObjectActions.Script
