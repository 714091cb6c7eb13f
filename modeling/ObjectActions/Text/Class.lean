/-!
# Classes of characters

An action string is read character by character, and every decision looks at the
class of one character: whether it is a blank, whether it can stand in a name, and
so on.  This module holds these classes, the two ways of cutting a text that rest
on them, and the comparison of words that ignores the case of ASCII letters.

All classes name ASCII characters only, so a letter outside ASCII is never part of
a name, a number or a keyword; it is an ordinary character of quoted text and of
commands that are not understood.
-/

namespace ObjectActions.Text

/-! ## The classes -/

/-- Space, tab, carriage return and line feed separate the items of a script. -/
def isBlank (c : Char) : Bool :=
  c == ' ' || c == '\t' || c == '\r' || c == '\n'

/-- A command ends before a comma and an action before a semicolon. -/
def isSeparator (c : Char) : Bool :=
  c == ',' || c == ';'

/-- Names of objects and pictures consist of letters, digits, `_`, `-` and `.`. -/
def isNameChar (c : Char) : Bool :=
  c.isAlphanum || c == '_' || c == '-' || c == '.'

/-- The punctuation that an address may hold beside the characters of a name. -/
def addressMarks : List Char :=
  ['/', ':', '?', '=', '&', '%', '~', '+', '#', '@', '!', '$', '*', '\'', '(', ')', '[', ']']

/-- Addresses of sounds, pictures and pages. -/
def isAddressChar (c : Char) : Bool :=
  isNameChar c || addressMarks.contains c

/-- Quoted text runs up to the next double quote, whatever else it holds. -/
def isQuotable (c : Char) : Bool :=
  c != '"'

/-! ## Cutting a text -/

/-- What is left of a text after the blanks it begins with. -/
def skipBlanks (text : List Char) : List Char :=
  text.dropWhile isBlank

/-- A text without the blanks it ends with. -/
def trimRight : List Char → List Char
  | [] => []
  | c :: rest =>
      match trimRight rest with
      | [] => if isBlank c then [] else [c]
      | kept => c :: kept

/-! ## Comparing words -/

/-- The characters of a word with its ASCII letters in lower case. -/
def lower (word : List Char) : List Char :=
  word.map Char.toLower

/-- Two words are alike when they differ at most in the case of ASCII letters. -/
def alike (first second : String) : Bool :=
  lower first.toList == lower second.toList

/-! ## Facts about cutting -/

@[simp] theorem skipBlanks_nil : skipBlanks [] = [] := rfl

theorem length_skipBlanks_le (text : List Char) : (skipBlanks text).length ≤ text.length :=
  (List.dropWhile_sublist isBlank).length_le

/-- After skipping, nothing is left to skip. -/
@[simp] theorem skipBlanks_skipBlanks (text : List Char) :
    skipBlanks (skipBlanks text) = skipBlanks text := by
  induction text with
  | nil => rfl
  | cons c rest ih =>
      unfold skipBlanks at ih ⊢
      by_cases h : isBlank c
      · simpa [List.dropWhile_cons, h] using ih
      · simp [h]

/-- A trimmed text followed by the blanks that were cut off is the text itself. -/
theorem trimRight_append (text : List Char) :
    ∃ blanks, blanks.all isBlank ∧ trimRight text ++ blanks = text := by
  induction text with
  | nil => exact ⟨[], rfl, rfl⟩
  | cons c rest ih =>
      obtain ⟨blanks, hblanks, hsplit⟩ := ih
      rw [trimRight]
      split
      · next hempty =>
          rw [hempty, List.nil_append] at hsplit
          subst hsplit
          by_cases hc : isBlank c
          · exact ⟨c :: blanks, by simp [hc, hblanks], by simp [hc]⟩
          · exact ⟨blanks, hblanks, by simp [hc]⟩
      · exact ⟨blanks, hblanks, by rw [List.cons_append, hsplit]⟩

end ObjectActions.Text
