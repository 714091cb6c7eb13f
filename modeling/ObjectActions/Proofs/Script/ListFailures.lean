import ObjectActions.Proofs.Grammar.Reach
import ObjectActions.Proofs.Script.Listing

/-!
# What is tried in lists

Separators are literal, so a list reports nothing of its own: whatever it reports has been tried as
one of its items.  The equations follow the three ways in which a list goes on
(`listing_induction`):

* where no item can be read, the list reports what the item reports;
* behind an item with a separator, it reports that as well as what the list behind the separators
  reports;
* behind an item without a separator nothing more is tried.
-/

namespace ObjectActions.Script

open Grammar

variable {α : Type} {mark : String} {c : Char} {item : Grammar Rule α} {text rest : List Char}

/-! ## Separators -/

section Separators

variable (hmark : mark.toList = [c]) (hc : Text.isSeparator c)
include hmark

theorem failures_many_separator (text : List Char) :
    (many (literal mark) : Grammar Rule (List Unit)).failures text = none := by
  have hprod := productive_separator hmark
  induction text using hprod.items_induction with
  | stop text hread => rw [failures_many_of_none hread, failures]
  | step text value rest hread ih =>
      rw [failures_many_of_some hprod hread, ih]
      rfl

theorem failures_separators (text : List Char) : (separators mark).failures text = none := by
  rw [separators, oneOrMore, failures, failures_seq, failures, Frontier.furthest_none_left]
  cases (literal mark : Grammar Rule Unit).rest? text with
  | none => rfl
  | some rest => exact failures_many_separator hmark _

include hc

theorem rest?_separators (text : List Char) :
    ((separators mark).rest? text).map Text.skipBlanks =
      if text.head? = some c then some (skipMarks c text) else none := by
  have hmany := skipBlanks_items_separator hmark hc (Text.skipBlanks text.tail)
  rw [skipMarks_skipBlanks] at hmany
  rw [separators, oneOrMore, rest?_map, rest?_seq, rest?_literal, after?_separator hmark hc]
  by_cases h : text.head? = some c
  · obtain ⟨rest, rfl⟩ := List.head?_eq_some_iff.mp h
    rw [if_pos h, if_pos h, Option.bind_some, rest?_many, Option.map_some, hmany,
      List.tail_cons, skipMarks_cons_self]
  · rw [if_neg h, if_neg h]
    rfl

theorem failures_separators_item (text : List Char) :
    (separators mark *> item).failures text =
      if text.head? = some c then item.failures (skipMarks c text) else none := by
  have hrest := rest?_separators hmark hc text
  rw [seqRight_eq_map, failures, failures_seq, failures_separators hmark,
    Frontier.furthest_none_left]
  split at hrest
  · next h =>
      obtain ⟨last, hlast, hskip⟩ := Option.map_eq_some_iff.mp hrest
      rw [hlast, Option.bind_some, hskip, if_pos h]
  · next h =>
      rw [Option.map_eq_none_iff.mp hrest, Option.bind_none, if_neg h]

end Separators

/-! ## Lists -/

section List

variable (hmark : mark.toList = [c]) (hc : Text.isSeparator c)
include hmark

/-- What is tried in a list is tried in its first item or behind it. -/
theorem failures_separatedList (text : List Char) :
    (separatedList mark item).failures text =
      Frontier.furthest (item.failures text)
        ((item.rest? text).bind fun rest => (many (separators mark *> item)).failures rest) := by
  have hprod := @productive_separators_item _ _ _ item hmark
  rw [separatedList, failures, failures_seq, rest?_optional, Option.bind_some,
    failures_many_separator hmark, Frontier.furthest_none_right, failures, separated, failures,
    failures_seq]
  simp only [failures_many_skipBlanks hprod]

theorem failures_separatedList_of_none (h : item.rest? text = none) :
    (separatedList mark item).failures text = item.failures text := by
  rw [failures_separatedList hmark, h, Option.bind_none, Frontier.furthest_none_right]

include hc

theorem failures_separatedList_of_end (h : item.rest? text = some rest)
    (hend : (Text.skipBlanks rest).head? ≠ some c) :
    (separatedList mark item).failures text = item.failures text := by
  have hnone : (separators mark *> item).read? (Text.skipBlanks rest) = none := by
    rw [read?_separators_item hmark hc, if_neg hend]
  rw [failures_separatedList hmark, h, Option.bind_some, failures_many_of_none hnone,
    failures_separators_item hmark hc, if_neg hend, Frontier.furthest_none_right]

theorem failures_separatedList_of_mark (h : item.rest? text = some rest)
    (hnext : (Text.skipBlanks rest).head? = some c) :
    (separatedList mark item).failures text =
      Frontier.furthest (item.failures text)
        ((separatedList mark item).failures (skipMarks c rest)) := by
  have hprod := @productive_separators_item _ _ _ item hmark
  have hitem := @read?_separators_item _ _ _ item hmark hc (Text.skipBlanks rest)
  rw [if_pos hnext, skipMarks_skipBlanks] at hitem
  have htried := @failures_separators_item _ _ _ item hmark hc (Text.skipBlanks rest)
  rw [if_pos hnext, skipMarks_skipBlanks] at htried
  rw [failures_separatedList hmark text, h, Option.bind_some,
    failures_separatedList hmark (skipMarks c rest)]
  cases hread : item.read? (skipMarks c rest) with
  | none =>
      rw [hread] at hitem
      rw [failures_many_of_none hitem, htried, rest?_eq_none_iff.mpr hread, Option.bind_none,
        Frontier.furthest_none_right]
  | some result =>
      obtain ⟨value, last⟩ := result
      rw [hread] at hitem
      rw [failures_many_of_some hprod hitem, htried, rest?_of_read? hread, Option.bind_some]

end List

end ObjectActions.Script
