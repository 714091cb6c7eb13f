import ObjectActions.Proofs.Script.Words

/-!
# The words of a toggle

Behind the verbs `solid` and `visible` stand words in any order.  A word for a truth value, spelled
in lower case, is the value, and every other word is the name of the target, even if it begins with
a word for a truth value or is one in another case.  So the command is missing exactly if
two words are of the same kind (`ofScript?_toggleWords`).
-/

namespace ObjectActions.Script

variable {verb : Verb}

/-- The words for a truth value. -/
def spellings : Bool → List String
  | true => ["on", "true", "yes"]
  | false => ["off", "false", "no"]

/-- Whether a word stands for a truth value. -/
abbrev IsTruth (word : String) : Prop := word ∈ spellings true ++ spellings false

/-- What a word says behind a verb that sets a value and a target. -/
def toggleWord (hvalue : verb.Sets .value) (htarget : verb.Sets .targetName) (word : String) :
    Argument verb :=
  if word ∈ spellings true then some ⟨.value, true, hvalue⟩
  else if word ∈ spellings false then some ⟨.value, false, hvalue⟩
  else some ⟨.targetName, word, htarget⟩

section ToggleWord

variable {hvalue : verb.Sets .value} {htarget : verb.Sets .targetName} {word : String}

theorem notMem_spellings_not {flag : Bool} (h : word ∈ spellings flag) :
    word ∉ spellings (!flag) := by
  have hapart : ∀ flag, ∀ w ∈ spellings flag, w ∉ spellings (!flag) := by decide
  exact hapart flag word h

theorem toggleWord_eq_value_iff {flag : Bool} :
    (∃ mem, toggleWord hvalue htarget word = some ⟨.value, flag, mem⟩) ↔
      word ∈ spellings flag := by
  rw [toggleWord]
  by_cases htrue : word ∈ spellings true
  · have hfalse := notMem_spellings_not htrue
    cases flag <;> simp_all
  · by_cases hfalse : word ∈ spellings false <;> cases flag <;> simp_all

theorem toggleWord_eq_target_iff {name : String} :
    (∃ mem, toggleWord hvalue htarget word = some ⟨.targetName, name, mem⟩) ↔
      word = name ∧ ¬ IsTruth word := by
  rw [toggleWord, IsTruth, List.mem_append, not_or]
  by_cases htrue : word ∈ spellings true
  · simp [htrue]
  · by_cases hfalse : word ∈ spellings false <;> simp [htrue, hfalse, htarget]

/-- A word behind a toggle sets nothing but the value or the target. -/
theorem eq_value_or_eq_target {a : Attribute}
    (h : settles (toggleWord hvalue htarget) a word = true) : a = .value ∨ a = .targetName := by
  obtain ⟨v, mem, hword⟩ := settles_eq_true_iff.mp h
  rw [toggleWord] at hword
  split at hword
  · exact .inl (congrArg Setting.name (Option.some.inj hword)).symm
  · split at hword
    · exact .inl (congrArg Setting.name (Option.some.inj hword)).symm
    · exact .inr (congrArg Setting.name (Option.some.inj hword)).symm

theorem settles_value_iff :
    settles (toggleWord hvalue htarget) .value word = true ↔ IsTruth word := by
  rw [settles_eq_true_iff, IsTruth, List.mem_append]
  refine (exists_congr fun _ => toggleWord_eq_value_iff).trans ?_
  simp [or_comm]

theorem settles_target_iff :
    settles (toggleWord hvalue htarget) .targetName word = true ↔ ¬ IsTruth word := by
  rw [settles_eq_true_iff]
  exact (exists_congr fun _ => toggleWord_eq_target_iff).trans (by simp)

end ToggleWord

/-! ## Scripts -/

/-- The words for a truth value with what they stand for. -/
def truthTable : List (String × Option Bool) :=
  (spellings true).map (·, some true) ++ (spellings false).map (·, some false)

/-- The usages of a verb with a truth value and a target. -/
def toggleUsages (hvalue : verb.Sets .value) (htarget : verb.Sets .targetName) :
    List (Usage verb) :=
  [.parameter .name htarget, .word .value truthTable hvalue,
    .row .targetName Text.isNameChar some htarget]

/-- The two verbs with a truth value are used alike. -/
theorem exists_toggleUsages (hverb : verb ∈ [Verb.solid, Verb.visible]) :
    ∃ (hvalue : verb.Sets .value) (htarget : verb.Sets .targetName),
      verb.usages = toggleUsages hvalue htarget := by
  simp only [List.mem_cons, List.not_mem_nil, or_false] at hverb
  rcases hverb with rfl | rfl <;> exact ⟨by decide, by decide, rfl⟩

theorem conveys_toggleWord (hverb : verb.Sortable) {hvalue : verb.Sets .value}
    {htarget : verb.Sets .targetName} (husages : verb.usages = toggleUsages hvalue htarget)
    {word : String} (h : IsRow Text.isNameChar word.toList) :
    Conveys verb word (toggleWord hvalue htarget word) := by
  have htruth {flag : Bool} (hflag : (word, some flag) ∈ truthTable) :
      Conveys verb word (some ⟨.value, flag, hvalue⟩) :=
    @conveys_of_mem_table _ hverb .value truthTable hvalue
      (by simp [husages, toggleUsages]) word _ hflag
  rw [toggleWord]
  split
  · next htrue => exact htruth (by simp [truthTable, htrue])
  · next htrue =>
      split
      · next hfalse => exact htruth (by simp [truthTable, hfalse])
      · next hfalse =>
          refine @conveys_of_row _ .targetName Text.isNameChar some htarget
            (by simp [husages, toggleUsages]) (fun c hc => hc) word h ?_
          intro a table mem hmem
          simp only [husages, toggleUsages, List.mem_cons, reduceCtorEq, Usage.word.injEq,
            List.not_mem_nil, or_false, false_or] at hmem
          obtain ⟨rfl, htable⟩ := hmem
          rw [eq_of_heq htable]
          simp [truthTable, htrue, hfalse]

/-- **The words of a toggle.**  The command is missing exactly if two words stand for a truth value
or two words do not.  Otherwise its value is the one that a word stands for and its target is the
other word, and what no word says is not set. -/
theorem ofScript?_toggleWords (hverb : verb ∈ [Verb.solid, Verb.visible]) {words : List String}
    (hwords : ∀ word ∈ words, IsRow Text.isNameChar word.toList) :
    ∃ entry, Action.ofScript? (" ".intercalate ("create" :: verb.word :: words)) =
        some [⟨.create, [entry]⟩] ∧
      (entry = none ↔ 2 ≤ words.countP (IsTruth ·) ∨ 2 ≤ words.countP (¬ IsTruth ·)) ∧
      ∀ command, entry = some command → ∃ record : Record verb.attributes,
        command = .act verb record ∧
          (∀ flag, record.get? .value = some flag ↔ ∃ word ∈ words, word ∈ spellings flag) ∧
          ∀ name, record.get? .targetName = some name ↔ name ∈ words ∧ ¬ IsTruth name := by
  have hsortable : verb.Sortable := by
    simp only [List.mem_cons, List.not_mem_nil, or_false] at hverb
    rcases hverb with rfl | rfl <;> simp [Verb.Sortable]
  obtain ⟨hvalue, htarget, husages⟩ := exists_toggleUsages hverb
  obtain ⟨entry, hscript, hnone, hsome⟩ := exists_entry_of_words hsortable .create
    fun word hword => conveys_toggleWord hsortable husages (hwords word hword)
  have htruths : words.countP (settles (toggleWord hvalue htarget) .value) =
      words.countP (IsTruth ·) :=
    List.countP_congr fun word _ => by rw [settles_value_iff, decide_eq_true_iff]
  have hnames : words.countP (settles (toggleWord hvalue htarget) .targetName) =
      words.countP (¬ IsTruth ·) :=
    List.countP_congr fun word _ => by rw [settles_target_iff, decide_eq_true_iff]
  refine ⟨entry, hscript, ?_, fun command hcommand => ?_⟩
  · rw [hnone, exists_two_le_countP_iff fun _ _ => eq_value_or_eq_target, htruths, hnames]
  · obtain ⟨record, rfl, hget⟩ := hsome command hcommand
    refine ⟨record, rfl, fun flag => ?_, fun name => ?_⟩
    · rw [hget]
      exact exists_congr fun word => and_congr_right fun _ => toggleWord_eq_value_iff
    · rw [hget]
      constructor
      · rintro ⟨word, hword, hsaid⟩
        obtain ⟨rfl, htruth⟩ := toggleWord_eq_target_iff.mp hsaid
        exact ⟨hword, htruth⟩
      · rintro ⟨hword, htruth⟩
        exact ⟨name, hword, toggleWord_eq_target_iff.mpr ⟨rfl, htruth⟩⟩

/-- A name that begins with a word for a truth value, and a truth value behind it. -/
theorem ofScript?_toggleWords_mixed :
    ∃ record : Record Verb.visible.attributes,
      Action.ofScript? "create visible yes.On no" =
          some [⟨.create, [some (.act .visible record)]⟩] ∧
        record.get? .value = some false ∧ record.get? .targetName = some "yes.On" := by
  obtain ⟨entry, hscript, hnone, hsome⟩ :=
    @ofScript?_toggleWords .visible (by simp) ["yes.On", "no"] (by decide)
  obtain ⟨command, rfl⟩ := Option.ne_none_iff_exists'.mp (mt hnone.mp (by decide))
  obtain ⟨record, rfl, hvalue, htarget⟩ := hsome command rfl
  exact ⟨record, hscript, (hvalue _).mpr ⟨"no", by decide⟩, (htarget _).mpr (by decide)⟩

end ObjectActions.Script
