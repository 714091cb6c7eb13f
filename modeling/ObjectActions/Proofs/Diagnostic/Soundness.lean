import ObjectActions.Diagnostic
import ObjectActions.Proofs.Script.ListReach

/-!
# What a diagnostic promises

A diagnostic points at a place of a script that cannot be read, and lists what could have followed
there.  Both can be relied on:

* what stands before the place is the beginning of a script that can be read;
* the end of the input is listed exactly if what stands before the place can be read as it is.

The place is where the furthest failed attempt begins.  One attempt fails behind the last action
that could be read, where the end of the text was expected.  If no other attempt got further, then
the actions before the place are all there is before it.  Otherwise the list of actions leaves a
front between its last action and the place, and the list `Explains` it.
-/

namespace ObjectActions

theorem Rule.eq_endOfInput_of_description {rule : Rule} (h : rule.description = "end of input") :
    rule = .endOfInput := by
  have hkeyword (k : Keyword) : (k.word ++ " command" ≠ "end of input") ∧
      k.word ++ " kw" ≠ "end of input" := by
    rcases k with v | _
    · cases v <;> decide
    · decide
  cases rule with
  | endOfInput => rfl
  | command kind =>
      cases kind with
      | named k => exact absurd h (hkeyword k).1
      | invalid => exact absurd h (by decide)
  | keyword k => exact absurd h (hkeyword k).2
  | parameter p =>
      revert h
      cases p <;> decide
  | _ => exact absurd h (by decide)

namespace Diagnostic

theorem mem_listed {attempts : List Rule} {rule : Rule} :
    rule ∈ listed attempts ↔ rule ∈ attempts := by
  simp [listed, Rule.mem_all]

end Diagnostic

namespace Script

open Grammar

variable {text : List Char}

/-! ## Where scripts fail -/

theorem isSome_written?_iff :
    (written? text).isSome ↔ (listedActions (Text.skipBlanks text)).2 = [] := by
  rw [written?_eq]
  split <;> simp_all

theorem avoids_listedActions : (separatedList ";" action).Avoids Rule.endOfInput := by decide

/-- The end of the text is expected behind the last action, and nothing before it. -/
theorem exists_failures_actions (h : (listedActions text).2 ≠ []) :
    ∃ frontier, actions.failures text = some frontier ∧
      frontier.remaining ≤ (listedActions text).2.length ∧
      (.endOfInput ∈ frontier.names ↔ frontier.remaining = (listedActions text).2.length) ∧
      (frontier.remaining ≠ (listedActions text).2.length →
        (separatedList ";" action).reach? text = some frontier.remaining) := by
  obtain ⟨rest, hread, hrest⟩ := read?_separatedList ";" action text
  obtain ⟨frontier, hfrontier, hle, hmem, hother⟩ :=
    exists_furthest_of_not_lists (avoids_listedActions.not_lists text) (listedActions text).2.length
  refine ⟨frontier, ?_, hle, hmem, fun hne => ?_⟩
  · have hend : (listedActions text).2.isEmpty = false := by
      rw [← Bool.not_eq_true, List.isEmpty_iff]
      exact h
    rw [actions, seqLeft_eq_map, failures, failures, hread]
    simp only [hrest, failures]
    rw [← listedActions, hend]
    exact hfrontier
  · rw [reach?, hother hne, Option.map_some]

/-- A script that cannot be read has a failed attempt. -/
theorem exists_failures_of_written? (h : written? text = none) :
    ∃ frontier, actions.failures (Text.skipBlanks text) = some frontier ∧
      frontier.remaining ≤ text.length := by
  have hfails : (listedActions (Text.skipBlanks text)).2 ≠ [] := by
    intro hnil
    have hsome := isSome_written?_iff.mpr hnil
    rw [h] at hsome
    cases hsome
  obtain ⟨frontier, hfrontier, -⟩ := exists_failures_actions hfails
  have hle := actions.reach?_le_length (by rw [reach?, hfrontier, Option.map_some])
  exact ⟨frontier, hfrontier, hle.trans (Text.length_skipBlanks_le text)⟩

/-- The text up to the furthest attempt and the rest of it: the list of actions leaves a front
before the attempt, unless it is the attempt to find the end of the text. -/
theorem exists_leaves_actions (h : (listedActions text).2 ≠ []) :
    ∃ before more front left frontier, text = before ++ more ∧
      Leaves (separatedList ";" action) before more left front ∧
      actions.failures text = some frontier ∧ frontier.remaining = more.length ∧
      (.endOfInput ∈ frontier.names ↔ front = []) := by
  obtain ⟨frontier, hfrontier, hle, hmem, hother⟩ := exists_failures_actions h
  obtain ⟨left, hread, hleft⟩ := exists_rest?_separatedList ";" action text
  rw [← listedActions] at hleft
  have hsuffix := listing_isSuffix ";" action text
  rw [← listedActions] at hsuffix
  obtain ⟨before, more, rfl, hmore⟩ :=
    exists_append_of_le_length (hle.trans hsuffix.length_le)
  obtain ⟨front, hfront, -⟩ := exists_append_of_isSuffix hsuffix (by omega)
  rw [hfront, List.length_append] at hmem hother
  refine ⟨before, more, front, left, frontier, rfl, ⟨hread, hleft.trans hfront, fun hne => ?_⟩,
    hfrontier, hmore.symm, ?_⟩
  · have hpos := List.length_pos_iff.mpr hne
    rw [hother (by omega), hmore]
  · rw [hmem, ← List.length_eq_zero_iff]
    omega

/-! ## Beginnings of scripts -/

section Beginning

variable {before more front left : List Char}

variable (h : Leaves (separatedList ";" action) before more left front)
  (hskip : Text.skipBlanks (before ++ more) = before ++ more)
include h hskip

/-- What stands before the furthest attempt is a script exactly if nothing is left in front. -/
theorem isSome_written?_beginning : (written? before).isSome ↔ front = [] := by
  have hbefore : Text.skipBlanks before = before := by
    by_cases hnil : before = []
    · rw [hnil]
      rfl
    · have happend := skipBlanks_append_of_self hnil hskip []
      rwa [List.append_nil] at happend
  obtain ⟨last, hlast, rfl⟩ := explains_actions.cut h
  rw [isSome_written?_iff, hbefore, listedActions, listing_snd_of_rest? hlast]

/-- What stands before the furthest attempt can be completed to a script. -/
theorem exists_written?_append :
    ∃ further, (∀ c ∈ further, Text.isAddressChar c = true) ∧
      (written? (before ++ further)).isSome := by
  by_cases hfront : front = []
  · refine ⟨[], by simp, ?_⟩
    rw [List.append_nil]
    exact (isSome_written?_beginning h hskip).mpr hfront
  · obtain ⟨further, hsolid, last, hlast, hblank⟩ := explains_actions.complete h hfront hskip
    refine ⟨further, hsolid.2, ?_⟩
    rw [isSome_written?_iff, skipBlanks_append_of_self (h.ne_nil hfront) hskip further,
      listedActions, listing_snd_of_rest? hlast, hblank]

end Beginning

end Script

namespace Diagnostic

open Script

/-- Blanks in front of a script say nothing. -/
theorem written?_blanks_append {blanks : List Char} (h : Text.skipBlanks blanks = [])
    (text : List Char) : written? (blanks ++ text) = written? text := by
  unfold written?
  rw [Text.skipBlanks_append_of_eq_nil h]

theorem ofText?_of_failures {text : List Char} {frontier : Frontier Rule}
    (h : written? text = none)
    (hfrontier : actions.failures (Text.skipBlanks text) = some frontier) :
    ofText? text =
      some ⟨text, text.length - frontier.remaining, listed frontier.names⟩ := by
  unfold ofText?
  rw [h]
  simp only [hfrontier, Option.getD_some]

/-- **Diagnostics of texts.** -/
theorem exists_ofText? {text : List Char} (h : written? text = none) :
    ∃ d, ofText? text = some d ∧ d.text = text ∧ d.position ≤ text.length ∧
      (∃ further, (∀ c ∈ further, Text.isAddressChar c = true) ∧
        (written? (d.before ++ further)).isSome) ∧
      (.endOfInput ∈ d.expected ↔ (written? d.before).isSome) := by
  have hfails : (listedActions (Text.skipBlanks text)).2 ≠ [] := by
    intro hnil
    have hsome := isSome_written?_iff.mpr hnil
    rw [h] at hsome
    cases hsome
  obtain ⟨before, more, front, left, frontier, hsplit, hleaves, hfrontier, hremaining, hmem⟩ :=
    exists_leaves_actions hfails
  have hskip : Text.skipBlanks (before ++ more) = before ++ more := by
    rw [← hsplit, Text.skipBlanks_skipBlanks]
  obtain ⟨blanks, hblanks, htext⟩ := Text.exists_blanks_append text
  rw [hsplit] at htext
  -- attempts are counted behind the blanks in front, the place from the beginning
  have hposition : text.length - frontier.remaining = (blanks ++ before).length := by
    rw [hremaining, htext]
    simp only [List.length_append]
    omega
  have hbefore : Diagnostic.before
      ⟨text, text.length - frontier.remaining, listed frontier.names⟩ = blanks ++ before := by
    rw [Diagnostic.before, hposition, htext, ← List.append_assoc, List.take_left]
  obtain ⟨further, hfurther, hwritten⟩ := exists_written?_append hleaves hskip
  refine ⟨_, ofText?_of_failures h hfrontier, rfl, Nat.sub_le _ _, ⟨further, hfurther, ?_⟩, ?_⟩
  · rwa [hbefore, List.append_assoc, written?_blanks_append hblanks]
  · rw [hbefore, mem_listed, hmem, written?_blanks_append hblanks]
    exact (isSome_written?_beginning hleaves hskip).symm

/-- A script without meaningless characters is read as it is. -/
theorem isSome_ofScript?_ofList {text : List Char} (h : ∀ c ∈ text, Text.isNoise c = false) :
    (Action.ofScript? (String.ofList text)).isSome = (written? text).isSome := by
  rw [Action.ofScript?, Text.clean_ofList h, String.toList_ofList, Option.isSome_map]

/-- **Soundness.**  A script that cannot be read has a diagnostic.  What stands before its place
can be completed to a script that can be read, and the end of the input is expected there exactly
if it can be read without being completed. -/
theorem ofScript?_sound (script : String) (h : Action.ofScript? script = none) :
    ∃ d, ofScript? script = some d ∧ d.text = (Text.clean script).toList ∧
      d.position ≤ d.text.length ∧
      (∃ further : String, Text.clean further = further ∧
        (Action.ofScript? (String.ofList d.before ++ further)).isSome) ∧
      ("end of input" ∈ d.expected.map Rule.description ↔
        (Action.ofScript? (String.ofList d.before)).isSome) := by
  have hwritten : written? (Text.clean script).toList = none := Option.map_eq_none_iff.mp h
  obtain ⟨d, hd, htext, hposition, ⟨further, hfurther, hcompleted⟩, hend⟩ :=
    exists_ofText? hwritten
  have hfurther' : ∀ c ∈ further, Text.isNoise c = false :=
    fun c hc => isNoise_of_isAddressChar (hfurther c hc)
  have hbefore : ∀ c ∈ d.before, Text.isNoise c = false := by
    intro c hc
    have hmem : c ∈ d.text := (List.take_prefix _ _).subset hc
    rw [htext] at hmem
    exact Text.not_isNoise_of_mem_clean hmem
  refine ⟨d, hd, htext, htext ▸ hposition,
    ⟨String.ofList further, Text.clean_ofList hfurther', ?_⟩, ?_⟩
  · have happend : ∀ c ∈ d.before ++ further, Text.isNoise c = false := by
      intro c hc
      exact (List.mem_append.mp hc).elim (hbefore c) (hfurther' c)
    rw [← String.ofList_append, isSome_ofScript?_ofList happend]
    exact hcompleted
  · rw [isSome_ofScript?_ofList hbefore, ← hend, List.mem_map]
    constructor
    · rintro ⟨rule, hrule, hname⟩
      exact Rule.eq_endOfInput_of_description hname ▸ hrule
    · intro hrule
      exact ⟨_, hrule, rfl⟩

/-- A color that is missing behind its key can be filled in. -/
theorem ofScript?_sound_missing_color :
    Action.ofScript? "create light color=" = none ∧
      ∃ d, ofScript? "create light color=" = some d ∧
        d.text = (Text.clean "create light color=").toList ∧ d.position ≤ d.text.length ∧
        (∃ further : String, Text.clean further = further ∧
          (Action.ofScript? (String.ofList d.before ++ further)).isSome) ∧
        ("end of input" ∈ d.expected.map Rule.description ↔
          (Action.ofScript? (String.ofList d.before)).isSome) :=
  have hnone : Action.ofScript? "create light color=" = none := by decide +kernel
  ⟨hnone, ofScript?_sound "create light color=" hnone⟩

end Diagnostic

end ObjectActions
