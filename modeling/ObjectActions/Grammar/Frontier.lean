import ObjectActions.Grammar.Basic

/-!
# Where a text stopped making sense

While a text is read, many parts of the grammar are tried in vain, most of them
because a later alternative is the right one.  The attempts that tell a reader
something are those that begin furthest into the text: up to there everything could
be understood in some way.  `Grammar.failures` collects them, as a `Frontier`: how
many characters were left, and which parts were tried there, in order.

A part that fails where it begins stands for the smaller parts tried inside it, as
`altitude` stands for the sign and the number it could have begun with.  If only one
smaller part was tried there, the smaller part is reported, because it says more.

Collecting never influences reading: every decision is taken by `Grammar.read?`.
-/

namespace ObjectActions

/-- The failed attempts that begin furthest into a text. -/
structure Frontier (ρ : Type) where
  /-- How many characters of the text were left where they begin. -/
  remaining : Nat
  /-- The names of the parts that were tried there, in order. -/
  names : List ρ
deriving DecidableEq, Repr

namespace Frontier

variable {ρ : Type}

/-- Of two frontiers the one further on; two at the same place are joined. -/
def furthest : Option (Frontier ρ) → Option (Frontier ρ) → Option (Frontier ρ)
  | none, second => second
  | some first, none => some first
  | some first, some second =>
      if first.remaining < second.remaining then some first
      else if second.remaining < first.remaining then some second
      else some ⟨first.remaining, first.names ++ second.names⟩

/-- The frontier of a part that failed with `remaining` characters left: one name where
it begins, unless something inside it got further or is more telling. -/
def failed (name : ρ) (remaining : Nat) : Option (Frontier ρ) → Frontier ρ
  | none => ⟨remaining, [name]⟩
  | some inner =>
      if inner.remaining < remaining then inner
      else if inner.names.length = 1 then inner
      else ⟨remaining, [name]⟩

@[simp] theorem furthest_none_left (second : Option (Frontier ρ)) :
    furthest none second = second := by
  cases second <;> rfl

@[simp] theorem furthest_none_right (first : Option (Frontier ρ)) :
    furthest first none = first := by
  cases first <;> rfl

theorem furthest_of_lt {first second : Frontier ρ} (h : first.remaining < second.remaining) :
    furthest (some first) (some second) = some first := by
  simp [furthest, h]

theorem furthest_of_gt {first second : Frontier ρ} (h : second.remaining < first.remaining) :
    furthest (some first) (some second) = some second := by
  simp [furthest, h, Nat.not_lt_of_gt h]

theorem furthest_of_eq (remaining : Nat) (first second : List ρ) :
    furthest (some ⟨remaining, first⟩) (some ⟨remaining, second⟩) =
      some ⟨remaining, first ++ second⟩ := by
  simp [furthest]

/-- The order in which three frontiers are brought together does not matter. -/
theorem furthest_assoc (first second third : Option (Frontier ρ)) :
    furthest (furthest first second) third = furthest first (furthest second third) := by
  cases first <;> cases second <;> cases third <;> grind [furthest]

end Frontier

namespace Grammar

variable {ρ α : Type}

/-- The frontier of a repetition, whose items are read by `item?` and watched by `watch`. -/
def itemFailures (item? : List Char → Option (α × List Char))
    (watch : List Char → Option (Frontier ρ)) :
    (fuel : Nat) → List Char → Option (Frontier ρ)
  | 0, _ => none
  | fuel + 1, text =>
      let start := Text.skipBlanks text
      match item? start with
      | none => watch start
      | some (_, rest) => Frontier.furthest (watch start) (itemFailures item? watch fuel rest)

/-- The failed attempts that begin furthest into a text. -/
def failures {α : Type} : Grammar ρ α → List Char → Option (Frontier ρ)
  | .token name lexeme value?, text =>
      match value? (String.ofList (lexeme.piece text)) with
      | none => some ⟨text.length, [name]⟩
      | some _ => none
  | .literal _, _ => none
  | .finish name, text => if text.isEmpty then none else some ⟨text.length, [name]⟩
  | .rule name body, text =>
      match body.read? text with
      | none => some (Frontier.failed name text.length (body.failures text))
      | some _ => body.failures text
  | .seq first second, text =>
      match first.read? text with
      | none => first.failures text
      | some (_, rest) =>
          Frontier.furthest (first.failures text) (second.failures (Text.skipBlanks rest))
  | .join first second, text =>
      match first.read? text with
      | none => first.failures text
      | some (_, rest) => Frontier.furthest (first.failures text) (second.failures rest)
  | .choice first second, text =>
      match first.read? text with
      | none => Frontier.furthest (first.failures text) (second.failures text)
      | some _ => first.failures text
  | .optional body, text => body.failures text
  | .many item, text => itemFailures item.read? item.failures (text.length + 1) text
  | .map _ body, text => body.failures text
  | .captured body, text => body.failures text

end Grammar

end ObjectActions
