import ObjectActions.Grammar.Basic

/-!
# Trees of parts

What a text was read as can be kept as a tree before it is put to use.  Every part with a name
becomes a node with its text, and the parts that were read inside it stand below it in their order;
fixed characters and blanks leave nothing but their text.

`Grammar.trees?` builds the trees.  It takes the same decisions as reading does, but it knows
nothing of values, except that a token is refused if there is none for it.
-/

namespace ObjectActions

/-- A part that was read: its name, its text and the parts inside it. -/
inductive Tree (ρ : Type) where
  | node (name : ρ) (text : String) (parts : List (Tree ρ))

namespace Tree

variable {ρ : Type}

/-- The name of a part. -/
def name : Tree ρ → ρ
  | node name _ _ => name

/-- The text that a part was read from. -/
def text : Tree ρ → String
  | node _ text _ => text

/-- The parts inside a part. -/
def parts : Tree ρ → List (Tree ρ)
  | node _ _ parts => parts

@[simp] theorem name_node (name : ρ) (text : String) (parts : List (Tree ρ)) :
    (node name text parts).name = name := rfl

@[simp] theorem text_node (name : ρ) (text : String) (parts : List (Tree ρ)) :
    (node name text parts).text = text := rfl

@[simp] theorem parts_node (name : ρ) (text : String) (parts : List (Tree ρ)) :
    (node name text parts).parts = parts := rfl

end Tree

namespace Grammar

variable {ρ : Type}

/-- The text between two places: what stands before the second one in the text of the first. -/
def between (text rest : List Char) : String :=
  String.ofList (text.take (text.length - rest.length))

/-- The parts that stand at the front of a text, and what is left of the text. -/
def trees? {α : Type} : Grammar ρ α → List Char → Option (List (Tree ρ) × List Char)
  | .token name lexeme value?, text =>
      match value? (String.ofList (lexeme.piece text)) with
      | none => none
      | some _ => some ([.node name (String.ofList (lexeme.piece text)) []], lexeme.rest text)
  | .literal characters, text => (after? characters.toList text).map fun rest => ([], rest)
  | .finish name, text => if text.isEmpty then some ([.node name "" []], text) else none
  | .rule name body, text =>
      match body.trees? text with
      | none => none
      | some (parts, rest) => some ([.node name (between text rest) parts], rest)
  | .seq first second, text =>
      match first.trees? text with
      | none => none
      | some (front, middle) =>
          match second.trees? (Text.skipBlanks middle) with
          | none => none
          | some (behind, rest) => some (front ++ behind, rest)
  | .join first second, text =>
      match first.trees? text with
      | none => none
      | some (front, middle) =>
          match second.trees? middle with
          | none => none
          | some (behind, rest) => some (front ++ behind, rest)
  | .choice first second, text =>
      match first.trees? text with
      | none => second.trees? text
      | some result => some result
  | .optional body, text => some ((body.trees? text).getD ([], text))
  | .many item, text =>
      let (parts, rest) := readItems item.trees? (text.length + 1) text
      some (parts.flatten, rest)
  | .map _ body, text => body.trees? text
  | .captured body, text => body.trees? text

end Grammar

end ObjectActions
