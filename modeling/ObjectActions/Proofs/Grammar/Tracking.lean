import ObjectActions.Grammar.Tracking
import ObjectActions.Proofs.Grammar.Reach

/-!
# What a record holds does not depend on what it held before

A record is handed through a whole text, and each part compares what has been added to it with what
it held.  In spite of this a part changes a record in one way only: it brings it together with
the failed attempts of its own (`some_track`).  These are the same whatever the record held before,
so `Grammar.failures` tells for each part by itself what the record will be.

One attempt that fails is the step (`some_leave`).  Where the record stands when the attempt has
failed decides what becomes of it: further on it stays, at the place of the attempt one added
name stays and others are replaced, and further back it is left behind.
-/

namespace ObjectActions

namespace Frontier

variable {ρ : Type} {before record : Frontier ρ} {name : ρ} {remaining : Nat}

/-! ## One failed attempt -/

/-- A record that has got further than an attempt is not changed by it. -/
theorem leave_of_lt (h : record.remaining < remaining) :
    before.leave name remaining record = record := by
  have hne : record.remaining ≠ remaining := Nat.ne_of_lt h
  simp [leave, countAt, clearedAt, enter, hne, Nat.not_lt_of_gt h]

/-- A record that has not got as far is replaced. -/
theorem leave_of_gt (h : remaining < record.remaining) :
    before.leave name remaining record = ⟨remaining, [name]⟩ := by
  have hne : record.remaining ≠ remaining := Nat.ne_of_gt h
  simp [leave, countAt, clearedAt, enter, hne, h]

/-- At the place of an attempt one added name stands for it, and it stands for any others. -/
theorem leave_of_eq {kept : List ρ} (h : before.countAt remaining = kept.length)
    (added : List ρ) :
    before.leave name remaining ⟨remaining, kept ++ added⟩ =
      ⟨remaining, kept ++ if added.length = 1 then added else [name]⟩ := by
  unfold leave countAt at *
  rw [h]
  simp only [if_true, List.length_append, Nat.add_sub_cancel_left]
  split
  · rfl
  · simp [clearedAt, enter]

theorem failed_of_lt {inner : Frontier ρ} (h : inner.remaining < remaining) :
    failed name remaining (some inner) = inner := by
  simp [failed, h]

theorem failed_of_eq (names : List ρ) :
    failed name remaining (some ⟨remaining, names⟩) =
      ⟨remaining, if names.length = 1 then names else [name]⟩ := by
  unfold failed
  simp only [Nat.lt_irrefl, if_false]
  split <;> rfl

/-- **One failed attempt.**  It brings the record together with what it stands for itself. -/
theorem some_leave {inner : Option (Frontier ρ)} (name : ρ)
    (hrecord : some record = furthest (some before) inner)
    (hinner : ∀ frontier ∈ inner, frontier.remaining ≤ remaining) :
    some (before.leave name remaining record) =
      furthest (some before) (some (failed name remaining inner)) := by
  obtain ⟨place, names⟩ := before
  rcases inner with - | ⟨innerPlace, innerNames⟩
  · rw [furthest_none_right] at hrecord
    obtain rfl := Option.some.inj hrecord
    change _ = furthest _ (some ⟨remaining, [name]⟩)
    rcases Nat.lt_trichotomy place remaining with hlt | rfl | hgt
    · rw [leave_of_lt hlt, furthest_of_lt hlt]
    · have hleave := @leave_of_eq _ ⟨place, names⟩ name place names (by simp [countAt]) []
      rw [List.append_nil] at hleave
      rw [hleave, furthest_of_eq]
      rfl
    · rw [leave_of_gt hgt, furthest_of_gt hgt]
  · rcases Nat.lt_or_eq_of_le (hinner _ rfl) with hlt | heq
    · -- something inside got further than the place of the attempt, and so did the record
      have hle : record.remaining ≤ innerPlace := by
        unfold furthest at hrecord
        grind
      rw [leave_of_lt (Nat.lt_of_le_of_lt hle hlt), failed_of_lt hlt, hrecord]
    · obtain rfl : innerPlace = remaining := heq
      rw [failed_of_eq]
      rcases Nat.lt_trichotomy place innerPlace with hlt | rfl | hgt
      · rw [furthest_of_lt hlt] at hrecord ⊢
        obtain rfl := Option.some.inj hrecord
        rw [leave_of_lt hlt]
      · rw [furthest_of_eq] at hrecord ⊢
        obtain rfl := Option.some.inj hrecord
        rw [leave_of_eq (by simp [countAt])]
      · rw [furthest_of_gt hgt] at hrecord ⊢
        obtain rfl := Option.some.inj hrecord
        have hleave := @leave_of_eq _ ⟨place, names⟩ name innerPlace []
          (by simp [countAt, Nat.ne_of_gt hgt]) innerNames
        exact congrArg some hleave

end Frontier

/-! ## All attempts -/

namespace Grammar

variable {ρ α : Type}

theorem some_trackItems {item? : List Char → Option (α × List Char)}
    {watch : List Char → Option (Frontier ρ)} {watched : List Char → Frontier ρ → Frontier ρ}
    (hwatch : ∀ text record, some (watched text record) =
      Frontier.furthest (some record) (watch text))
    (fuel : Nat) (text : List Char) (record : Frontier ρ) :
    some (trackItems item? watched fuel text record) =
      Frontier.furthest (some record) (itemFailures item? watch fuel text) := by
  induction fuel generalizing text record with
  | zero => rw [trackItems, itemFailures, Frontier.furthest_none_right]
  | succ fuel ih =>
      unfold trackItems itemFailures
      simp only
      cases item? (Text.skipBlanks text) with
      | none => exact hwatch _ record
      | some result =>
          simp only
          rw [ih, hwatch, Frontier.furthest_assoc]

/-- A record behind a failed attempt that nothing is tried inside of. -/
theorem some_leave_self (record : Frontier ρ) (name : ρ) (remaining : Nat) :
    some (record.leave name remaining record) =
      Frontier.furthest (some record) (some ⟨remaining, [name]⟩) :=
  Frontier.some_leave name (Frontier.furthest_none_right _).symm (by simp)

/-- **All attempts.**  A grammar brings the record together with its own failed attempts. -/
theorem some_track (grammar : Grammar ρ α) (text : List Char) (record : Frontier ρ) :
    some (grammar.track text record) =
      Frontier.furthest (some record) (grammar.failures text) := by
  induction grammar generalizing text record with
  | token name lexeme value? =>
      rw [track, failures]
      cases value? (String.ofList (lexeme.piece text)) with
      | none => exact some_leave_self record name text.length
      | some value => exact (Frontier.furthest_none_right _).symm
  | literal characters => rw [track, failures, Frontier.furthest_none_right]
  | finish name =>
      rw [track, failures]
      cases text.isEmpty with
      | true => exact (Frontier.furthest_none_right _).symm
      | false => exact some_leave_self record name text.length
  | rule name body ih =>
      rw [track, failures]
      cases body.read? text with
      | none =>
          refine Frontier.some_leave name (ih text record) fun frontier hfrontier => ?_
          exact body.reach?_le_length (by rw [reach?, hfrontier, Option.map_some])
      | some result => exact ih text record
  | seq first second ihfirst ihsecond =>
      rw [track, failures]
      cases first.read? text with
      | none => exact ihfirst text record
      | some result =>
          simp only
          rw [ihsecond, ihfirst, Frontier.furthest_assoc]
  | join first second ihfirst ihsecond =>
      rw [track, failures]
      cases first.read? text with
      | none => exact ihfirst text record
      | some result =>
          simp only
          rw [ihsecond, ihfirst, Frontier.furthest_assoc]
  | choice first second ihfirst ihsecond =>
      rw [track, failures]
      cases first.read? text with
      | none =>
          simp only
          rw [ihsecond, ihfirst, Frontier.furthest_assoc]
      | some result => exact ihfirst text record
  | optional body ih => exact ih text record
  | many item ih => exact some_trackItems ih _ text record
  | map f body ih => exact ih text record
  | captured body ih => exact ih text record

/-- A record that was begun with an empty one at the front of a text holds what the grammar
reports, if it reports something. -/
theorem track_of_failures {grammar : Grammar ρ α} {text : List Char} {frontier : Frontier ρ}
    (h : grammar.failures text = some frontier) {remaining : Nat} (hle : text.length ≤ remaining) :
    grammar.track text ⟨remaining, []⟩ = frontier := by
  have htrack := grammar.some_track text ⟨remaining, []⟩
  have hfrontier := grammar.reach?_le_length (by rw [reach?, h, Option.map_some])
  obtain ⟨place, names⟩ := frontier
  rw [h] at htrack
  rcases Nat.lt_or_eq_of_le (Nat.le_trans hfrontier hle) with hlt | heq
  · rw [Frontier.furthest_of_gt hlt] at htrack
    exact Option.some.inj htrack
  · obtain rfl : place = remaining := heq
    rw [Frontier.furthest_of_eq, List.nil_append] at htrack
    exact Option.some.inj htrack

end Grammar

end ObjectActions
