import ObjectActions.Proofs.Script.Words

/-!
# The words of a color

Behind the verb `color` stand words in any order, out of letters and digits:

```text
tint                           the tint is set
a word that names a color      the color is set
any other word                 nothing is set, and the next word is read as if it were not there
```

`tint` counts as a flag only if it is spelled in lower case; otherwise it is a word that names no
color.  Words such as `name` or `tints`, with which another argument could begin, are words like any
other.  So the command is missing exactly if one of the first two rows applies to two words
(`ofScript?_colorWords`).
-/

namespace ObjectActions.Script

theorem color_sets_tint : Verb.color.Sets .tint := by decide

theorem color_sets_color : Verb.color.Sets .color := by decide

/-- What a word says behind the verb `color`. -/
def colorWord (word : String) : Argument .color :=
  if word = "tint" then some ⟨.tint, true, color_sets_tint⟩
  else (Color.resolve? word).map fun c => ⟨.color, c, color_sets_color⟩

theorem conveys_colorWord {word : String} (h : IsRow Char.isAlphanum word.toList) :
    Conveys .color word (colorWord word) := by
  have hsortable : Verb.color.Sortable := by simp [Verb.Sortable]
  rw [colorWord]
  split
  · next htint =>
      rw [htint]
      exact @conveys_of_mem_table .color hsortable .tint [("tint", some true)] color_sets_tint
        (by simp [Verb.usages]) "tint" (some true) (by simp)
  · next htint =>
      refine @conveys_of_row .color .color Char.isAlphanum Color.resolve? color_sets_color
        (by simp [Verb.usages]) (fun c hc => by simp [Text.isNameChar, hc]) word h ?_
      intro a table mem hmem
      simp only [Verb.usages, List.mem_cons, reduceCtorEq, Usage.word.injEq, List.not_mem_nil,
        or_false, false_or] at hmem
      obtain ⟨rfl, htable⟩ := hmem
      rw [eq_of_heq htable]
      simpa using htint

theorem colorWord_eq_tint_iff {word : String} {flag : Bool} :
    (∃ mem, colorWord word = some ⟨.tint, flag, mem⟩) ↔ word = "tint" ∧ flag = true := by
  by_cases htint : word = "tint"
  · simp [colorWord, htint, eq_comm]
  · simp [colorWord, htint, Option.map_eq_some_iff]

theorem colorWord_eq_color_iff {word : String} {c : Color} :
    (∃ mem, colorWord word = some ⟨.color, c, mem⟩) ↔
      word ≠ "tint" ∧ Color.resolve? word = some c := by
  by_cases htint : word = "tint"
  · simp [colorWord, htint]
  · simp [colorWord, htint, Option.map_eq_some_iff]

/-- A word behind the verb `color` sets nothing but the tint or the color. -/
theorem eq_tint_or_eq_color {word : String} {a : Attribute} (h : settles colorWord a word = true) :
    a = .tint ∨ a = .color := by
  obtain ⟨v, mem, hword⟩ := settles_eq_true_iff.mp h
  rw [colorWord] at hword
  split at hword
  · exact .inl (congrArg Setting.name (Option.some.inj hword)).symm
  · obtain ⟨c, -, heq⟩ := Option.map_eq_some_iff.mp hword
    exact .inr (congrArg Setting.name heq).symm

theorem countP_settles_tint (words : List String) :
    words.countP (settles colorWord .tint) = words.count "tint" := by
  rw [List.count_eq_countP]
  refine List.countP_congr fun word _ => ?_
  rw [settles_eq_true_iff, beq_iff_eq]
  exact (exists_congr fun _ => colorWord_eq_tint_iff).trans (by simp)

theorem countP_settles_color (words : List String) :
    words.countP (settles colorWord .color) =
      words.countP fun word => word ≠ "tint" ∧ (Color.resolve? word).isSome := by
  refine List.countP_congr fun word _ => ?_
  rw [settles_eq_true_iff, decide_eq_true_iff, Option.isSome_iff_exists]
  exact (exists_congr fun _ => colorWord_eq_color_iff).trans exists_and_left

/-- **The words of a color.**  The command is missing exactly if `tint` is written twice or two
other words name colors.  Otherwise it has the tint if `tint` is written, the color that one of the
other words names, and no target. -/
theorem ofScript?_colorWords {words : List String}
    (hwords : ∀ word ∈ words, IsRow Char.isAlphanum word.toList) :
    ∃ entry, Action.ofScript? (" ".intercalate ("create" :: "color" :: words)) =
        some [⟨.create, [entry]⟩] ∧
      (entry = none ↔ 2 ≤ words.count "tint" ∨
        2 ≤ words.countP fun word => word ≠ "tint" ∧ (Color.resolve? word).isSome) ∧
      ∀ command, entry = some command → ∃ record : Record Verb.color.attributes,
        command = .act .color record ∧
          record.get? .tint = (if "tint" ∈ words then some true else none) ∧
          (∀ c, record.get? .color = some c ↔
            ∃ word ∈ words, word ≠ "tint" ∧ Color.resolve? word = some c) ∧
          record.get? .targetName = none := by
  have hsortable : Verb.color.Sortable := by simp [Verb.Sortable]
  obtain ⟨entry, hscript, hnone, hsome⟩ := exists_entry_of_words hsortable .create
    fun word hword => conveys_colorWord (hwords word hword)
  refine ⟨entry, hscript, ?_, fun command hcommand => ?_⟩
  · rw [hnone, exists_two_le_countP_iff fun _ _ => eq_tint_or_eq_color, countP_settles_tint,
      countP_settles_color]
  · obtain ⟨record, rfl, hget⟩ := hsome command hcommand
    refine ⟨record, rfl, ?_, fun c => ?_, ?_⟩
    · have htint (flag : Bool) : record.get? .tint = some flag ↔ "tint" ∈ words ∧ flag = true := by
        rw [hget]
        constructor
        · rintro ⟨word, hword, hsaid⟩
          obtain ⟨rfl, hflag⟩ := colorWord_eq_tint_iff.mp hsaid
          exact ⟨hword, hflag⟩
        · rintro ⟨hword, hflag⟩
          exact ⟨_, hword, colorWord_eq_tint_iff.mpr ⟨rfl, hflag⟩⟩
      split
      · next hmem => exact (htint true).mpr ⟨hmem, rfl⟩
      · next hmem => exact Option.eq_none_iff_forall_ne_some.mpr fun flag h => hmem ((htint flag).mp h).1
    · rw [hget]
      exact exists_congr fun word => and_congr_right fun _ => colorWord_eq_color_iff
    · refine Option.eq_none_iff_forall_ne_some.mpr fun name hname => ?_
      obtain ⟨word, -, mem, hword⟩ := (hget _ _).mp hname
      have hsettles : settles colorWord .targetName word = true :=
        settles_eq_true_iff.mpr ⟨name, mem, hword⟩
      rcases eq_tint_or_eq_color hsettles with heq | heq <;> cases heq

/-- The flag, digits with a letter behind them, and two words that say nothing. -/
theorem ofScript?_colorWords_mixed :
    ∃ record : Record Verb.color.attributes,
      Action.ofScript? "create color Tint F00z tint name" =
          some [⟨.create, [some (.act .color record)]⟩] ∧
        record.get? .tint = some true ∧ record.get? .color = some ⟨0, 15, 0⟩ := by
  obtain ⟨entry, hscript, hnone, hsome⟩ :=
    @ofScript?_colorWords ["Tint", "F00z", "tint", "name"] (by decide)
  obtain ⟨command, rfl⟩ := Option.ne_none_iff_exists'.mp (mt hnone.mp (by decide))
  obtain ⟨record, rfl, htint, hcolor, -⟩ := hsome command rfl
  exact ⟨record, hscript, htint, (hcolor _).mpr ⟨"F00z", by decide⟩⟩

end ObjectActions.Script
