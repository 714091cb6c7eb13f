import ObjectActions.Proofs.Script.ArgumentProvenance
import ObjectActions.Proofs.Script.PlaceEvaluation

/-!
# Arguments are evaluated to what was read

The grammar of a verb and the table `Evaluation.arms` list the arguments of the verb independently.
They fit together: each argument that the grammar can read has an arm under the name of its part,
and the arm says what was read (`builds_verbArguments`).  This takes one statement for each sort of
value, one for each way of setting an attribute with it (`buildsOne_sets` and its siblings), and the
comparison of the two tables, verb by verb.
-/

namespace ObjectActions.Script

open Grammar

variable {verb : Verb} {α : Type}

/-! ## Words -/

theorem eq_of_nonempty? {w v : String} (h : nonempty? w = some v) : v = w := by
  unfold nonempty? at h
  split at h
  · cases h
  · exact (Option.some.inj h).symm

/-- A row of characters that is not empty. -/
theorem evaluates_row (name : Rule) (member : Char → Bool) :
    Evaluates (.token name (.run member) nonempty?) name Evaluation.text := by
  refine (buildsOne_token _ _ _).mono ?_
  rintro part w ⟨hname, hvalue⟩
  exact ⟨hname, congrArg Except.ok (eq_of_nonempty? hvalue).symm⟩

/-- A word that is kept as it is written, if it will do. -/
theorem evaluates_keptWord (name : Rule) (lexeme : Lexeme) (p : String → Prop) [DecidablePred p] :
    Evaluates (.token name lexeme fun w => if p w then some w else none) name
      Evaluation.text := by
  refine (buildsOne_token _ _ _).mono ?_
  rintro part w ⟨hname, hvalue⟩
  refine ⟨hname, congrArg Except.ok ?_⟩
  split at hvalue
  · exact Option.some.inj hvalue
  · cases hvalue

theorem evaluates_oneOfWords (name : Rule) (words : List String) :
    Evaluates (oneOfWords name words) name Evaluation.text :=
  evaluates_keptWord _ _ fun w => words.any (Text.alike w) = true

theorem evaluates_worldName : Evaluates worldName .worldName Evaluation.text :=
  evaluates_keptWord _ _ fun w => w.toList.head?.any Char.isAlpha = true

theorem evaluates_colorName : Evaluates colorName .colorName Evaluation.color := by
  refine BuildsOne.map ((buildsOne_token _ _ _).mono ?_)
  rintro part w ⟨hname, hvalue⟩
  exact ⟨hname, by rw [eq_of_nonempty? hvalue, Evaluation.color]⟩

theorem evaluates_flag (name : Rule) (affirmative : String) :
    Evaluates (flag name affirmative) name Evaluation.flag := by
  refine (buildsOne_token _ _ _).mono ?_
  rintro part value ⟨hname, hvalue⟩
  refine ⟨hname, ?_⟩
  split at hvalue
  · cases hvalue
    rfl
  · cases hvalue

theorem evaluates_status (name : Rule) (affirmative : String) :
    Evaluates (status name affirmative) name (Evaluation.status affirmative) := by
  refine (buildsOne_token _ _ _).mono ?_
  rintro part value ⟨hname, hvalue⟩
  refine ⟨hname, ?_⟩
  unfold Evaluation.status
  split at hvalue
  · next haffirmative =>
      cases hvalue
      rw [haffirmative, decide_eq_true rfl]
  · next haffirmative =>
      split at hvalue
      · cases hvalue
        rw [decide_eq_false haffirmative]
      · cases hvalue

theorem evaluates_boolean : Evaluates boolean .boolean Evaluation.boolean := by
  refine (buildsOne_token _ _ _).mono ?_
  rintro part value ⟨hname, hvalue⟩
  exact ⟨hname, by rw [Evaluation.boolean, hvalue, need_some]⟩

/-! ## Quoted text and parameters -/

theorem unquote_ofList (text : List Char) :
    Evaluation.unquote (String.ofList ('"' :: (text ++ ['"']))) = String.ofList text := by
  simp [Evaluation.unquote]

theorem evaluates_quotedText :
    Evaluates quotedText .signText fun part => .ok (Evaluation.unquote part.text) := by
  refine (((builds_any _).rule _).of_shows shows_quotedText).mono ?_
  rintro part w ⟨_, htext, ⟨rfl, -⟩, hname, -⟩
  refine ⟨hname, ?_⟩
  show Except.ok (Evaluation.unquote part.text) = .ok w
  rw [htext, unquote_ofList, String.ofList_toList]

theorem evaluates_parameter {value : Grammar Rule α} {name : Rule}
    {evaluate : Tree Rule → Except Failure α} (h : Evaluates value name evaluate) (p : Parameter) :
    Evaluates (parameter p value) (.parameter p) (Evaluation.parameter evaluate) := by
  have hkey : Builds (.literal p.key *> .literal "=" : Grammar Rule Unit)
      fun parts _ => parts = [] := by
    refine Builds.map (((builds_literal _).seq (builds_literal _)).mono ?_)
    rintro _ _ ⟨_, _, rfl, rfl, rfl⟩
    rfl
  have hbody : Builds (.literal p.key *> .literal "=" *> value) fun parts v =>
      ∃ part, parts = [part] ∧ evaluate part = .ok v := by
    refine Builds.map ((hkey.seq h.alone).mono ?_)
    rintro _ ⟨_, v⟩ ⟨_, _, rfl, rfl, part, rfl, -, hvalue⟩
    exact ⟨part, rfl, hvalue⟩
  refine (hbody.rule _).mono ?_
  rintro part v ⟨hname, inner, hparts, hvalue⟩
  refine ⟨hname, ?_⟩
  rw [Evaluation.parameter, Evaluation.parameterValue, hparts, List.head?_cons, need_some, ok_bind,
    hvalue]

/-! ## Arguments -/

/-- Whether a part is evaluated to what an argument says. -/
def Means (verb : Verb) (part : Tree Rule) (said : Argument verb) : Prop :=
  Evaluation.argument verb part = .ok said

theorem means_of_arm {part : Tree Rule} {name : Rule} {arm : Evaluation.Arm verb}
    {said : Argument verb} (harm : (Evaluation.arms verb).lookup name = some arm)
    (hname : part.name = name) (h : arm part = .ok said) : Means verb part said := by
  rw [Means, Evaluation.argument, hname, harm]
  exact h

section Arms

variable {a : Attribute} {mem : a ∈ verb.attributes} {known : verb.attributes.contains a}
  {name : Rule}

theorem buildsOne_sets {value : Grammar Rule a.Value}
    {evaluate : Tree Rule → Except Failure a.Value}
    (h : Evaluates value name evaluate)
    (harm : (Evaluation.arms verb).lookup name = some (Evaluation.sets a evaluate known)) :
    BuildsOne (sets a value mem) (Means verb) := by
  refine BuildsOne.map (h.mono ?_)
  rintro part v ⟨hname, hvalue⟩
  refine means_of_arm harm hname ?_
  rw [Evaluation.sets, hvalue]
  rfl

theorem buildsOne_maySet {value : Grammar Rule (Option a.Value)}
    {evaluate : Tree Rule → Except Failure (Option a.Value)} (h : Evaluates value name evaluate)
    (harm : (Evaluation.arms verb).lookup name = some (Evaluation.maySet a evaluate known)) :
    BuildsOne (maySet a value mem) (Means verb) := by
  refine BuildsOne.map (h.mono ?_)
  rintro part v ⟨hname, hvalue⟩
  refine means_of_arm harm hname ?_
  rw [Evaluation.maySet, hvalue]
  rfl

theorem buildsOne_ignored {value : Grammar Rule α} {evaluate : Tree Rule → Except Failure α}
    (h : Evaluates value name evaluate)
    (harm : (Evaluation.arms verb).lookup name = some Evaluation.ignored) :
    BuildsOne (ignored value : Grammar Rule (Argument verb)) (Means verb) := by
  refine BuildsOne.map (h.mono ?_)
  rintro part v ⟨hname, -⟩
  exact means_of_arm harm hname rfl

end Arms

/-- Whether parts are a keyword and what is evaluated to some arguments. -/
def IsPhrase (verb : Verb) (parts : List (Tree Rule)) (said : List (Argument verb)) : Prop :=
  ∃ keyword further, parts = keyword :: further ∧ List.Forall₂ (Means verb) further said

theorem builds_keyword (k : Keyword) :
    Builds (keyword k) fun parts _ => ∃ part, parts = [part] :=
  (buildsOne_token _ _ _).alone.mono fun _ _ ⟨part, hparts, _⟩ => ⟨part, hparts⟩

theorem builds_manyArguments {argument : Grammar Rule (Argument verb)} (k : Keyword)
    (h : BuildsOne argument (Means verb)) : Builds (manyArguments k argument) (IsPhrase verb) := by
  refine Builds.map (((builds_keyword k).seq (Builds.many_alone h.alone)).mono ?_)
  rintro _ ⟨_, said⟩ ⟨_, further, rfl, ⟨part, rfl⟩, hfurther⟩
  exact ⟨part, further, rfl, hfurther⟩

theorem forall₂_of_optional {Stands : Tree Rule → α → Prop} {parts : List (Tree Rule)}
    {value : Option α}
    (h : value = none ∧ parts = [] ∨ ∃ a, value = some a ∧ Alone Stands parts a) :
    List.Forall₂ Stands parts value.toList := by
  rcases h with ⟨rfl, rfl⟩ | ⟨a, rfl, part, rfl, hstands⟩
  · exact .nil
  · exact .cons hstands .nil

theorem builds_oneArgument {argument : Grammar Rule (Argument verb)} (k : Keyword)
    (h : BuildsOne argument (Means verb)) : Builds (oneArgument k argument) (IsPhrase verb) := by
  refine Builds.map (Builds.map (((builds_keyword k).seq h.alone.optional).mono ?_))
  rintro _ ⟨_, said⟩ ⟨_, further, rfl, ⟨part, rfl⟩, hfurther⟩
  exact ⟨part, further, rfl, forall₂_of_optional hfurther⟩

theorem buildsOne_target {mem : .targetName ∈ verb.attributes}
    {known : verb.attributes.contains .targetName}
    (harm : (Evaluation.arms verb).lookup (.parameter .name) =
      some (Evaluation.sets .targetName (Evaluation.parameter Evaluation.text) known)) :
    BuildsOne (target mem) (Means verb) :=
  buildsOne_sets (evaluates_parameter (evaluates_row _ _) .name) harm

/-- The parts of a teleport: a world and a place, each if it is there. -/
theorem builds_journey :
    Builds (verbArguments .teleport) (IsPhrase .teleport) := by
  have hworld : BuildsOne (sets .worldName worldName) (Means .teleport) :=
    buildsOne_sets evaluates_worldName rfl
  have hplace : BuildsOne (sets .coordinates place) (Means .teleport) :=
    buildsOne_sets evaluates_place rfl
  have hboth := hworld.alone.optional.seq hplace.alone.optional
  refine Builds.map (Builds.map (((builds_keyword _).seq hboth).mono ?_))
  rintro _ ⟨_, world, coordinates⟩
    ⟨_, _, rfl, ⟨keyword, rfl⟩, worlds, places, rfl, hworlds, hplaces⟩
  refine ⟨keyword, worlds ++ places, rfl, ?_⟩
  have hforall := List.rel_append (forall₂_of_optional hworlds) (forall₂_of_optional hplaces)
  cases world <;> cases coordinates <;> exact hforall

/-- **Arguments.**  Whatever is read as the arguments of a verb is evaluated to these arguments. -/
theorem builds_verbArguments (verb : Verb) : Builds (verbArguments verb) (IsPhrase verb) := by
  have hname (name : Rule) := evaluates_row name Text.isNameChar
  have haddress := evaluates_row .resourceTarget Text.isAddressChar
  have htime := evaluates_parameter evaluates_number .time
  have hwait := evaluates_parameter evaluates_number .wait
  have hradius := evaluates_parameter evaluates_number .radius
  cases verb with
  | texture =>
      refine builds_manyArguments _ ((buildsOne_target rfl).choice ?_)
      refine (buildsOne_sets (evaluates_parameter (hname .basicResource) .mask) rfl).choice ?_
      refine (buildsOne_sets (evaluates_parameter (hname .basicResource) .tag) rfl).choice ?_
      exact buildsOne_sets (hname .basicResource) rfl
  | sound => exact builds_oneArgument _ (buildsOne_sets haddress rfl)
  | corona =>
      refine builds_manyArguments _ ((buildsOne_target rfl).choice ?_)
      refine (buildsOne_sets (evaluates_parameter (hname .basicResource) .mask) rfl).choice ?_
      refine (buildsOne_sets (evaluates_parameter evaluates_integer .size) rfl).choice ?_
      exact buildsOne_sets (hname .basicResource) rfl
  | color =>
      refine builds_manyArguments _ ((buildsOne_target rfl).choice ?_)
      refine (buildsOne_sets (evaluates_flag .tintFlag "tint") rfl).choice ?_
      exact buildsOne_maySet evaluates_colorName rfl
  | examine =>
      refine Builds.map ((builds_keyword _).mono ?_)
      rintro _ _ ⟨keyword, rfl⟩
      exact ⟨keyword, [], rfl, .nil⟩
  | solid | visible =>
      refine builds_manyArguments _ ((buildsOne_target rfl).choice ?_)
      refine (buildsOne_sets evaluates_boolean rfl).choice ?_
      exact buildsOne_sets (hname .objectName) rfl
  | name => exact builds_oneArgument _ (buildsOne_sets (hname .objectName) rfl)
  | move =>
      refine builds_manyArguments _ ((buildsOne_target rfl).choice ?_)
      refine (buildsOne_sets htime rfl).choice ((buildsOne_sets hwait rfl).choice ?_)
      refine (buildsOne_sets (evaluates_status .loopStatus "loop") rfl).choice ?_
      refine (buildsOne_sets (evaluates_status .resetStatus "reset") rfl).choice ?_
      refine (buildsOne_sets (evaluates_status .syncStatus "sync") rfl).choice ?_
      refine (buildsOne_sets (evaluates_flag .smoothFlag "smooth") rfl).choice ?_
      refine (buildsOne_sets (evaluates_flag .globalFlag "global") rfl).choice ?_
      exact buildsOne_sets (evaluates_numberList.map Triple.ofOffsets) rfl
  | rotate =>
      refine builds_manyArguments _ ((buildsOne_target rfl).choice ?_)
      refine (buildsOne_sets htime rfl).choice ((buildsOne_sets hwait rfl).choice ?_)
      refine (buildsOne_sets (evaluates_status .loopStatus "loop") rfl).choice ?_
      refine (buildsOne_sets (evaluates_status .resetStatus "reset") rfl).choice ?_
      refine (buildsOne_sets (evaluates_status .syncStatus "sync") rfl).choice ?_
      exact buildsOne_sets (evaluates_numberList.map Triple.ofOffsets) rfl
  | scale =>
      refine builds_manyArguments _ ((buildsOne_target rfl).choice ?_)
      exact buildsOne_sets (evaluates_numberList.map Triple.ofFactors) rfl
  | light =>
      refine builds_manyArguments _ ((buildsOne_target rfl).choice ?_)
      refine (buildsOne_maySet (evaluates_parameter evaluates_colorName .color) rfl).choice ?_
      refine (buildsOne_sets (evaluates_parameter evaluates_number .brightness) rfl).choice ?_
      refine (buildsOne_sets hradius rfl).choice ?_
      refine (buildsOne_sets (evaluates_parameter (evaluates_oneOfWords _ _) .type) rfl).choice ?_
      refine (buildsOne_sets (evaluates_parameter (evaluates_oneOfWords _ _) .fx) rfl).choice ?_
      refine (buildsOne_sets htime rfl).choice ?_
      refine (buildsOne_sets (evaluates_parameter evaluates_signedNumber .angle) rfl).choice ?_
      exact buildsOne_sets (evaluates_parameter evaluates_signedNumber .pitch) rfl
  | noise =>
      refine builds_manyArguments _
        ((buildsOne_ignored (evaluates_flag .overlapFlag "overlap") rfl).choice ?_)
      exact buildsOne_sets haddress rfl
  | picture =>
      refine builds_manyArguments _ ((buildsOne_target rfl).choice ?_)
      refine (buildsOne_sets (evaluates_parameter evaluates_integer .update) rfl).choice ?_
      exact buildsOne_sets haddress rfl
  | media =>
      refine builds_manyArguments _ ((buildsOne_target rfl).choice ?_)
      exact (buildsOne_sets hradius rfl).choice (buildsOne_sets haddress rfl)
  | sign =>
      refine builds_manyArguments _ ((buildsOne_target rfl).choice ?_)
      refine (buildsOne_maySet (evaluates_parameter evaluates_colorName .color) rfl).choice ?_
      refine (buildsOne_maySet (evaluates_parameter evaluates_colorName .bcolor) rfl).choice ?_
      exact buildsOne_sets evaluates_quotedText rfl
  | teleport => exact builds_journey
  | url => exact builds_oneArgument _ (buildsOne_sets haddress rfl)

end ObjectActions.Script
