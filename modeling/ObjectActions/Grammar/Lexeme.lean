import ObjectActions.Text.Class

/-!
# Cutting a token from a text

A token of a script is cut from the front of the text in one of three ways: as a
single character, as the longest run of one class of characters, or as the longest
phrase, which may hold blanks but does not end with one.  The cut never depends on
what the token means; whether the cut piece is acceptable is decided afterwards.

The main statement is `Lexeme.piece_append_rest`: cutting loses nothing.
-/

namespace ObjectActions

/-- The ways in which a token is cut from the front of a text. -/
inductive Lexeme where
  /-- The first character, if there is one. -/
  | letter
  /-- The longest run of characters of a class, which may be empty. -/
  | run (member : Char → Bool)
  /-- The longest run of characters of a class, less the blanks at its end. -/
  | phrase (member : Char → Bool)

namespace Lexeme

/-- The piece that is cut off the front of a text. -/
def piece : Lexeme → List Char → List Char
  | .letter, text => text.take 1
  | .run member, text => text.takeWhile member
  | .phrase member, text => Text.trimRight (text.takeWhile member)

/-- What is left of a text once the piece is cut off. -/
def rest (lexeme : Lexeme) (text : List Char) : List Char :=
  text.drop (lexeme.piece text).length

/-- The piece stands at the front of the text. -/
theorem piece_isPrefix (lexeme : Lexeme) (text : List Char) : lexeme.piece text <+: text := by
  cases lexeme with
  | letter => exact List.take_prefix 1 text
  | run member => exact List.takeWhile_prefix member
  | phrase member =>
      obtain ⟨blanks, -, hsplit⟩ := Text.trimRight_append (text.takeWhile member)
      have htrimmed : Text.trimRight (text.takeWhile member) <+: text.takeWhile member :=
        ⟨blanks, hsplit⟩
      exact htrimmed.trans <| List.takeWhile_prefix member

private theorem append_drop_of_isPrefix {piece text : List Char} (h : piece <+: text) :
    piece ++ text.drop piece.length = text := by
  obtain ⟨tail, rfl⟩ := h
  rw [List.drop_left]

/-- The piece and the rest together are the text. -/
theorem piece_append_rest (lexeme : Lexeme) (text : List Char) :
    lexeme.piece text ++ lexeme.rest text = text :=
  append_drop_of_isPrefix (lexeme.piece_isPrefix text)

end Lexeme

end ObjectActions
