import ObjectActions.Grammar.Frontier

/-!
# Keeping a record of failed attempts

The frontier of a text is found while the text is read, with one record for the whole text.  The
record holds the place of the furthest failed attempts so far and their names.  Every attempt is
entered when it has failed: one further on replaces the record, one at its place is added, and any
other one is forgotten.

An attempt that fails compares the record with the one it was begun with.  If exactly one name has
been added at the place where it began, then it lets that name stand.  Otherwise it removes the
names that were added there and enters its own.

The record is handed from each part to the next one, whether or not the text was read in the end,
so what has been recorded early in a text is still there at its end.
-/

namespace ObjectActions

namespace Frontier

variable {ρ : Type}

/-- How many names a record holds for a place. -/
def countAt (record : Frontier ρ) (remaining : Nat) : Nat :=
  if record.remaining = remaining then record.names.length else 0

/-- A record that is open for a place: what it holds there from before stays, but nothing else
there does. -/
def clearedAt (record : Frontier ρ) (remaining kept : Nat) : Frontier ρ :=
  if record.remaining = remaining then ⟨remaining, record.names.take kept⟩
  else if remaining < record.remaining then ⟨remaining, []⟩
  else record

/-- A record with one more name at a place, unless it has got further. -/
def enter (record : Frontier ρ) (name : ρ) (remaining : Nat) : Frontier ρ :=
  if record.remaining = remaining then ⟨remaining, record.names ++ [name]⟩ else record

/-- The record when a part has failed that began with `remaining` characters left, given the
record at that time and the one when the part began. -/
def leave (before : Frontier ρ) (name : ρ) (remaining : Nat) (record : Frontier ρ) : Frontier ρ :=
  if record.countAt remaining - before.countAt remaining = 1 then record
  else (record.clearedAt remaining (before.countAt remaining)).enter name remaining

end Frontier

namespace Grammar

variable {ρ α : Type}

/-- The record behind a repetition, whose items are read by `item?` and recorded by `watch`. -/
def trackItems (item? : List Char → Option (α × List Char))
    (watch : List Char → Frontier ρ → Frontier ρ) :
    (fuel : Nat) → List Char → Frontier ρ → Frontier ρ
  | 0, _, record => record
  | fuel + 1, text, record =>
      let start := Text.skipBlanks text
      match item? start with
      | none => watch start record
      | some (_, rest) => trackItems item? watch fuel rest (watch start record)

/-- The record when a text has been read or refused, given the one before. -/
def track {α : Type} : Grammar ρ α → List Char → Frontier ρ → Frontier ρ
  | .token name lexeme value?, text, record =>
      match value? (String.ofList (lexeme.piece text)) with
      | none => record.leave name text.length record
      | some _ => record
  | .literal _, _, record => record
  | .finish name, text, record =>
      if text.isEmpty then record else record.leave name text.length record
  | .rule name body, text, record =>
      match body.read? text with
      | none => record.leave name text.length (body.track text record)
      | some _ => body.track text record
  | .seq first second, text, record =>
      match first.read? text with
      | none => first.track text record
      | some (_, rest) => second.track (Text.skipBlanks rest) (first.track text record)
  | .join first second, text, record =>
      match first.read? text with
      | none => first.track text record
      | some (_, rest) => second.track rest (first.track text record)
  | .choice first second, text, record =>
      match first.read? text with
      | none => second.track text (first.track text record)
      | some _ => first.track text record
  | .optional body, text, record => body.track text record
  | .many item, text, record => trackItems item.read? item.track (text.length + 1) text record
  | .map _ body, text, record => body.track text record
  | .captured body, text, record => body.track text record

end Grammar

end ObjectActions
