/-!
# Cleaning a script

Stored scripts sometimes hold the control characters U+007F and U+0080, which stand
for nothing.  They are taken out before anything else is done, so every position
and every quoted piece of text refers to the cleaned script.
-/

namespace ObjectActions.Text

/-- The two characters that carry no meaning anywhere in a script. -/
def isNoise (c : Char) : Bool :=
  c == '\x7f' || c == '\u0080'

/-- The script without its meaningless characters. -/
def clean (script : String) : String :=
  String.ofList (script.toList.filter fun c => !isNoise c)

/-- What is left holds no meaningless character. -/
theorem not_isNoise_of_mem_clean {script : String} {c : Char} (h : c ∈ (clean script).toList) :
    isNoise c = false := by
  rw [clean, String.toList_ofList, List.mem_filter] at h
  simpa using h.2

/-- Cleaning leaves a script without meaningless characters as it is. -/
theorem clean_ofList {text : List Char} (h : ∀ c ∈ text, isNoise c = false) :
    clean (String.ofList text) = String.ofList text := by
  rw [clean, String.toList_ofList, List.filter_eq_self.mpr fun c hc => by simp [h c hc]]

/-- Cleaning twice is cleaning once. -/
@[simp] theorem clean_clean (script : String) : clean (clean script) = clean script := by
  simp [clean]

end ObjectActions.Text
