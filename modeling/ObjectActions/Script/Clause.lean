import ObjectActions.Script.Place
import ObjectActions.Script.Statement

/-!
# Clauses

A clause is a keyword with arguments, of which each may say something about one
attribute.  The arguments of a verb are tried in the order in which they are listed
here: parameters first, so that a key before an equals sign is not taken for a name or
an address, then the words with a meaning of their own, and last the words that can be
anything.  A key that is not followed by an equals sign is a word like any other.

A flag or a keyword ends where its word ends: `loops` is not `loop`.  Keywords, keys,
kinds of light and effects are read in any case, flags and truth values as they are
spelled.  A color that does not resolve and the word `overlap` say nothing.
-/

namespace ObjectActions.Script

/-! ## Words -/

/-- A whole word out of the characters of names, with what it stands for. -/
def word {α : Type} (rule : Rule) (value? : String → Option α) : Grammar Rule α :=
  .token rule (.run Text.isNameChar) value?

/-- A keyword in any case. -/
def keyword (k : Keyword) : Grammar Rule Unit :=
  word (.keyword k) fun w => if Text.alike w k.word then some () else none

/-- A word that stands for `true`. -/
def flag (rule : Rule) (affirmative : String) : Grammar Rule Bool :=
  word rule fun w => if w = affirmative then some true else none

/-- A word that stands for `true`, or the same word after `no`, which stands for `false`. -/
def status (rule : Rule) (affirmative : String) : Grammar Rule Bool :=
  word rule fun w =>
    if w = affirmative then some true
    else if w = "no" ++ affirmative then some false
    else none

/-- The words for truth values. -/
def truthWords : List (String × Bool) :=
  [("on", true), ("true", true), ("yes", true), ("off", false), ("false", false), ("no", false)]

/-- A truth value. -/
def boolean : Grammar Rule Bool := word .boolean fun w => truthWords.lookup w

/-- One of some words in any case, as it is written. -/
def oneOfWords (rule : Rule) (words : List String) : Grammar Rule String :=
  word rule fun w => if words.any (Text.alike w) then some w else none

/-- A kind of light. -/
def lightType : Grammar Rule String := oneOfWords .lightType ["point", "spot"]

/-- An effect of a light. -/
def lightFx : Grammar Rule String :=
  oneOfWords .lightFx
    ["blink", "fadein", "fadeout", "fire", "flash", "flicker", "none", "pulse", "rainbow"]

/-- The name of an object. -/
def objectName : Grammar Rule String := word .objectName nonempty?

/-- The name of a picture or a mask. -/
def basicResource : Grammar Rule String := word .basicResource nonempty?

/-- An address. -/
def address : Grammar Rule String := .token .resourceTarget (.run Text.isAddressChar) nonempty?

/-- The name of a world, which begins with a letter. -/
def worldName : Grammar Rule String :=
  .token .worldName (.run Char.isAlphanum) fun w =>
    if w.toList.head?.any Char.isAlpha then some w else none

/-- A word for a color, with the color that it stands for, if it stands for one. -/
def colorName : Grammar Rule (Option Color) :=
  .map Color.resolve? (.token .colorName (.run Char.isAlphanum) nonempty?)

/-- Text between double quotes. -/
def quotedText : Grammar Rule String :=
  .rule .signText <|
    .map (fun parts => parts.2.1)
      (.join (.literal "\"") (.join (.token .textBody (.run Text.isQuotable) some) (.literal "\"")))

/-- A parameter: its key in any case, an equals sign and a value. -/
def parameter {α : Type} (p : Parameter) (value : Grammar Rule α) : Grammar Rule α :=
  .rule (.parameter p) (.literal p.key *> .literal "=" *> value)

/-! ## Arguments -/

/-- What an argument says about the attributes of a verb: one setting or nothing. -/
abbrev Argument (verb : Verb) : Type := Option (Setting verb.attributes)

/-- An argument that always sets an attribute. -/
def sets {verb : Verb} (a : Attribute) (value : Grammar Rule a.Value)
    (mem : a ∈ verb.attributes := by decide) : Grammar Rule (Argument verb) :=
  value.map fun v => some ⟨a, v, mem⟩

/-- An argument that sets an attribute if its value makes sense. -/
def maySet {verb : Verb} (a : Attribute) (value : Grammar Rule (Option a.Value))
    (mem : a ∈ verb.attributes := by decide) : Grammar Rule (Argument verb) :=
  value.map fun v => v.map fun v => ⟨a, v, mem⟩

/-- An argument that says nothing. -/
def ignored {α : Type} {verb : Verb} (value : Grammar Rule α) : Grammar Rule (Argument verb) :=
  value.map fun _ => none

/-- The target of a command as a parameter. -/
def target {verb : Verb} (mem : .targetName ∈ verb.attributes := by decide) :
    Grammar Rule (Argument verb) :=
  sets .targetName (parameter .name objectName) mem

/-- Any number of arguments after a keyword. -/
def manyArguments {verb : Verb} (k : Keyword) (argument : Grammar Rule (Argument verb)) :
    Grammar Rule (List (Argument verb)) :=
  keyword k *> .many argument

/-- At most one argument after a keyword. -/
def oneArgument {verb : Verb} (k : Keyword) (argument : Grammar Rule (Argument verb)) :
    Grammar Rule (List (Argument verb)) :=
  .map Option.toList (keyword k *> .optional argument)

/-- A verb and its arguments in the order in which they are written. -/
def verbArguments : (verb : Verb) → Grammar Rule (List (Argument verb))
  | .texture =>
      manyArguments (.verb .texture) <|
        target <|> sets .mask (parameter .mask basicResource)
          <|> sets .tag (parameter .tag basicResource) <|> sets .texture basicResource
  | .sound => oneArgument (.verb .sound) (sets .resource address)
  | .corona =>
      manyArguments (.verb .corona) <|
        target <|> sets .mask (parameter .mask basicResource)
          <|> sets .size (parameter .size integer) <|> sets .resource basicResource
  | .color =>
      manyArguments (.verb .color) <|
        target <|> sets .tint (flag .tintFlag "tint") <|> maySet .color colorName
  | .examine => (keyword (.verb .examine)).map fun _ => []
  | .solid =>
      manyArguments (.verb .solid) <|
        target <|> sets .value boolean <|> sets .targetName objectName
  | .name => oneArgument (.verb .name) (sets .targetName objectName)
  | .visible =>
      manyArguments (.verb .visible) <|
        target <|> sets .value boolean <|> sets .targetName objectName
  | .move =>
      manyArguments (.verb .move) <|
        target <|> sets .time (parameter .time number) <|> sets .wait (parameter .wait number)
          <|> sets .loop (status .loopStatus "loop") <|> sets .reset (status .resetStatus "reset")
          <|> sets .sync (status .syncStatus "sync") <|> sets .smooth (flag .smoothFlag "smooth")
          <|> sets .global (flag .globalFlag "global")
          <|> sets .distance (numberList.map Triple.ofOffsets)
  | .rotate =>
      manyArguments (.verb .rotate) <|
        target <|> sets .time (parameter .time number) <|> sets .wait (parameter .wait number)
          <|> sets .loop (status .loopStatus "loop") <|> sets .reset (status .resetStatus "reset")
          <|> sets .sync (status .syncStatus "sync")
          <|> sets .speed (numberList.map Triple.ofOffsets)
  | .scale =>
      manyArguments (.verb .scale) <|
        target <|> sets .factor (numberList.map Triple.ofFactors)
  | .light =>
      manyArguments (.verb .light) <|
        target <|> maySet .color (parameter .color colorName)
          <|> sets .brightness (parameter .brightness number)
          <|> sets .radius (parameter .radius number)
          <|> sets .lightType (parameter .type lightType) <|> sets .fx (parameter .fx lightFx)
          <|> sets .time (parameter .time number) <|> sets .angle (parameter .angle signedNumber)
          <|> sets .pitch (parameter .pitch signedNumber)
  | .noise =>
      manyArguments (.verb .noise) <|
        ignored (flag .overlapFlag "overlap") <|> sets .resource address
  | .picture =>
      manyArguments (.verb .picture) <|
        target <|> sets .update (parameter .update integer) <|> sets .resource address
  | .media =>
      manyArguments (.verb .media) <|
        target <|> sets .radius (parameter .radius number) <|> sets .resource address
  | .sign =>
      manyArguments (.verb .sign) <|
        target <|> maySet .color (parameter .color colorName)
          <|> maySet .bcolor (parameter .bcolor colorName) <|> sets .text quotedText
  | .teleport =>
      .map (fun parts => [parts.1, parts.2].filterMap id)
        (keyword (.verb .teleport) *>
          .seq (.optional (sets .worldName worldName)) (.optional (sets .coordinates place)))
  | .url => oneArgument (.verb .url) (sets .resource address)

/-! ## Clauses and statements -/

/-- A clause that begins with a keyword. -/
def namedClause : Keyword → Grammar Rule Clause
  | .verb verb =>
      .rule (.command (.named (.verb verb))) <|
        (verbArguments verb).map fun arguments => .act verb (arguments.filterMap id)
  | .warp => .rule (.command (.named .warp)) (.map .warp (keyword .warp *> place))

/-- Anything up to the next separator that does not begin or end with a blank. -/
def invalidClause : Grammar Rule Clause :=
  .map .invalid <|
    .token (.command .invalid) (.phrase fun c => !Text.isSeparator c) nonempty?

/-- A clause: the first keyword that fits decides, and what fits none is invalid. -/
def clause : Grammar Rule Clause :=
  Keyword.all.foldr (fun k rest => namedClause k <|> rest) invalidClause

/-- A clause with its text. -/
def statement : Grammar Rule Statement :=
  .map (fun parts => ⟨parts.1, parts.2⟩) (.captured clause)

end ObjectActions.Script
