import ObjectActions.Proofs.Grammar.Values
import ObjectActions.Proofs.Number.Finite
import ObjectActions.Proofs.Script.Separators

/-!
# Numbers in scripts that stay finite

Nothing limits how many digits a number in a script may have, so a script can ask for infinite
measures.  It takes a row of more than 308 digits to do so: from a text without such a row
(`Text.ShortRows`) only finite commands are read (`isFinite_of_ofScript?`).
-/

namespace ObjectActions

/-- Whether no more than 308 digits stand in a row anywhere in a text. -/
def Text.ShortRows (text : List Char) : Prop :=
  ∀ digits, digits <:+: text → (∀ c ∈ digits, c.isDigit = true) → digits.length ≤ 308

theorem Text.passesOn_shortRows : Grammar.PassesOn Text.ShortRows :=
  fun _ _ hsuffix h digits hdigits => h digits (hdigits.trans hsuffix.isInfix)

/-- Whether the values of a shape hold no number with a fraction. -/
def Shape.isPlain : Shape → Bool
  | measure | triple | place => false
  | _ => true

theorem Shape.isFinite_of_isPlain {shape : Shape} (h : shape.isPlain) (value : shape.Value) :
    shape.isFinite value = true := by
  cases shape with
  | measure | triple | place => cases h
  | text | count | flag | color => rfl

namespace Script

open Grammar Text

variable {verb : Verb}

/-! ## Numbers and places -/

theorem isFinite_turn (negative : Bool) (x : Binary64) :
    (turn negative x).isFinite = x.isFinite := by
  cases negative <;> rfl

theorem gives_number : Gives ShortRows number fun x => x.isFinite = true := by
  have hfinite {text : List Char} (htext : ShortRows text) (fraction : List Char)
      (hfraction : ∀ c ∈ fraction, c.isDigit = true) :
      (Digits.toBinary64 (text.takeWhile Char.isDigit) fraction).isFinite := by
    have hrow : ∀ c ∈ text.takeWhile Char.isDigit, c.isDigit = true :=
      fun _ hc => List.mem_takeWhile_imp hc
    exact Digits.isFinite_toBinary64 hrow hfraction
      (htext _ (List.takeWhile_prefix _).isInfix hrow)
  intro text x rest htext hread
  rw [read?_number, Option.or_eq_some_iff] at hread
  rcases hread with hread | ⟨-, hread⟩
  · rw [read?_fractionNumber] at hread
    split at hread
    · cases hread
      exact hfinite htext _ fun _ hc => List.mem_takeWhile_imp hc
    · cases hread
  · split at hread
    · cases hread
    · cases hread
      exact hfinite htext [] (by simp)

theorem gives_anything {α : Type} (grammar : Grammar Rule α) :
    Gives ShortRows grammar fun _ => True :=
  Gives.of_forall fun _ => trivial

theorem gives_signedNumber : Gives ShortRows signedNumber fun x => x.isFinite = true := by
  have hparts := Gives.join passesOn_shortRows (gives_anything (.optional sign)) gives_number
  refine ((hparts.mono fun parts h => ?_).map).rule _
  rw [isFinite_turn]
  exact h.2

theorem gives_forcedNumber : Gives ShortRows forcedNumber fun x => x.isFinite = true := by
  have hparts := Gives.join passesOn_shortRows (gives_anything sign) gives_number
  refine ((hparts.mono fun parts h => ?_).map).rule _
  rw [isFinite_turn]
  exact h.2

theorem gives_numberList :
    Gives ShortRows numberList fun xs => ∀ x ∈ xs, x.isFinite = true := by
  have hparts := Gives.seq passesOn_shortRows gives_signedNumber
    (Gives.many passesOn_shortRows gives_signedNumber)
  exact ((hparts.mono fun parts h => List.forall_mem_cons.mpr h).map).rule _

theorem isFinite_ofOffsets {xs : List Binary64} (h : ∀ x ∈ xs, x.isFinite = true) :
    (Triple.ofOffsets xs).isFinite := by
  have hzero : Binary64.zero.isFinite = true := by decide
  unfold Triple.ofOffsets
  split <;> simp_all [Triple.isFinite]

/-- Factors are kept within bounds, so only finite ones matter. -/
theorem isFinite_clampFactor {x : Binary64} (h : x.isFinite = true) :
    (Triple.clampFactor x).isFinite := by
  have hone : Binary64.one.isFinite = true := by decide
  have hleast : Triple.leastFactor.isFinite = true := by decide
  have hgreatest : Triple.greatestFactor.isFinite = true := by decide
  unfold Triple.clampFactor
  split
  · exact hone
  · split
    · exact hleast
    · split
      · exact hgreatest
      · exact h

theorem isFinite_ofFactors {xs : List Binary64} (h : ∀ x ∈ xs, x.isFinite = true) :
    (Triple.ofFactors xs).isFinite := by
  have hfactors : ∀ y ∈ xs.map Triple.clampFactor, y.isFinite = true := by
    intro y hy
    obtain ⟨x, hx, rfl⟩ := List.mem_map.mp hy
    exact isFinite_clampFactor (h x hx)
  have hone : Binary64.one.isFinite = true := by decide
  unfold Triple.ofFactors
  generalize xs.map Triple.clampFactor = factors at hfactors
  split <;> simp_all [Triple.isFinite]

theorem gives_axisNumber (rule : Rule) (letter : Grammar Rule Bool) :
    Gives ShortRows (axisNumber rule letter) fun x => x.isFinite = true := by
  have hparts := Gives.join passesOn_shortRows gives_number (gives_anything letter)
  refine ((hparts.mono fun parts h => ?_).map).rule _
  rw [isFinite_turn]
  exact h.1

theorem gives_place : Gives ShortRows place fun destination => destination.isFinite = true := by
  have habsolute : Gives ShortRows absolutePosition fun position => position.isFinite = true := by
    have hparts := Gives.seq passesOn_shortRows
      (gives_axisNumber .nsCoordinate (axis .nsAxis "n" "s"))
      (gives_axisNumber .ewCoordinate (axis .ewAxis "e" "w"))
    exact ((hparts.mono fun parts h => by simp [Position.isFinite, h]).map).rule _
  have hrelative : Gives ShortRows relativePosition fun position => position.isFinite = true := by
    have hparts := Gives.seq passesOn_shortRows gives_forcedNumber gives_forcedNumber
    exact ((hparts.mono fun parts h => by simp [Position.isFinite, h]).map).rule _
  have haltitude : Gives ShortRows altitude fun height => height.value.isFinite = true := by
    have hparts := Gives.join passesOn_shortRows (gives_anything (.optional sign))
      (Gives.join passesOn_shortRows gives_number (gives_anything (.literal "a")))
    exact ((hparts.mono fun parts h => by simp [isFinite_turn, h]).map).rule _
  have hparts := Gives.seq passesOn_shortRows (habsolute.choice hrelative)
    (Gives.seq passesOn_shortRows haltitude.optional (gives_anything (.optional direction)))
  refine ((hparts.mono fun parts h => ?_).map).rule _
  obtain ⟨hposition, haltitude, -⟩ := h
  simp only [Place.isFinite, hposition, Bool.true_and, Option.all_eq_true]
  exact haltitude

/-! ## Arguments -/

/-- Whether a setting is about something finite. -/
def FiniteSetting {allowed : List Attribute} (setting : Setting allowed) : Prop :=
  setting.name.shape.isFinite setting.value = true

/-- Whether everything that an argument says is finite. -/
def FiniteArgument (said : Argument verb) : Prop := ∀ setting ∈ said, FiniteSetting setting

theorem gives_parameter {α : Type} {P : α → Prop} (p : Parameter) {value : Grammar Rule α}
    (h : Gives ShortRows value P) : Gives ShortRows (parameter p value) P := by
  have hparts := Gives.seq passesOn_shortRows
    (gives_anything (.literal p.key *> .literal "=" : Grammar Rule Unit)) h
  exact ((hparts.mono fun parts h => h.2).map).rule _

theorem gives_sets {a : Attribute} {value : Grammar Rule a.Value} {mem : a ∈ verb.attributes}
    (h : Gives ShortRows value fun v => a.shape.isFinite v = true) :
    Gives ShortRows (sets a value mem) FiniteArgument := by
  refine Gives.map (h.mono fun v hv setting hsetting => ?_)
  cases hsetting
  exact hv

theorem gives_sets_of_isPlain {a : Attribute} (ha : a.shape.isPlain) {value : Grammar Rule a.Value}
    {mem : a ∈ verb.attributes} : Gives ShortRows (sets a value mem) FiniteArgument :=
  gives_sets (Gives.of_forall (Shape.isFinite_of_isPlain ha))

theorem gives_maySet_of_isPlain {a : Attribute} (ha : a.shape.isPlain)
    {value : Grammar Rule (Option a.Value)} {mem : a ∈ verb.attributes} :
    Gives ShortRows (maySet a value mem) FiniteArgument := by
  refine Gives.map (Gives.of_forall fun v setting hsetting => ?_)
  obtain ⟨v, -, rfl⟩ := Option.mem_map.mp hsetting
  exact Shape.isFinite_of_isPlain ha v

theorem gives_target {mem : .targetName ∈ verb.attributes} :
    Gives ShortRows (target mem) FiniteArgument :=
  gives_sets_of_isPlain rfl

theorem gives_manyArguments {k : Keyword} {argument : Grammar Rule (Argument verb)}
    (h : Gives ShortRows argument FiniteArgument) :
    Gives ShortRows (manyArguments k argument) fun arguments =>
      ∀ said ∈ arguments, FiniteArgument said := by
  have hparts := Gives.seq passesOn_shortRows (gives_anything (keyword k))
    (Gives.many passesOn_shortRows h)
  exact (hparts.mono fun parts h => h.2).map

theorem gives_verbArguments (verb : Verb) :
    Gives ShortRows (verbArguments verb) fun arguments =>
      ∀ said ∈ arguments, FiniteArgument said := by
  by_cases hplain : ∀ a ∈ verb.attributes, a.shape.isPlain
  · exact Gives.of_forall fun arguments said _ setting _ =>
      Shape.isFinite_of_isPlain (hplain _ setting.mem) _
  have hoffsets : Gives ShortRows (numberList.map Triple.ofOffsets)
      fun triple => triple.isFinite = true :=
    (gives_numberList.mono fun _ h => isFinite_ofOffsets h).map
  have hfactors : Gives ShortRows (numberList.map Triple.ofFactors)
      fun triple => triple.isFinite = true :=
    (gives_numberList.mono fun _ h => isFinite_ofFactors h).map
  -- only the commands that can say a number are left
  cases verb with
  | move =>
      refine gives_manyArguments (gives_target.choice ?_)
      refine (gives_sets (gives_parameter .time gives_number)).choice ?_
      refine (gives_sets (gives_parameter .wait gives_number)).choice ?_
      refine (gives_sets_of_isPlain rfl).choice <| (gives_sets_of_isPlain rfl).choice <|
        (gives_sets_of_isPlain rfl).choice <| (gives_sets_of_isPlain rfl).choice <|
        (gives_sets_of_isPlain rfl).choice ?_
      exact gives_sets hoffsets
  | rotate =>
      refine gives_manyArguments (gives_target.choice ?_)
      refine (gives_sets (gives_parameter .time gives_number)).choice ?_
      refine (gives_sets (gives_parameter .wait gives_number)).choice ?_
      refine (gives_sets_of_isPlain rfl).choice <| (gives_sets_of_isPlain rfl).choice <|
        (gives_sets_of_isPlain rfl).choice ?_
      exact gives_sets hoffsets
  | scale => exact gives_manyArguments (gives_target.choice (gives_sets hfactors))
  | light =>
      refine gives_manyArguments (gives_target.choice ?_)
      refine (gives_maySet_of_isPlain rfl).choice ?_
      refine (gives_sets (gives_parameter .brightness gives_number)).choice ?_
      refine (gives_sets (gives_parameter .radius gives_number)).choice ?_
      refine (gives_sets_of_isPlain rfl).choice <| (gives_sets_of_isPlain rfl).choice ?_
      refine (gives_sets (gives_parameter .time gives_number)).choice ?_
      refine (gives_sets (gives_parameter .angle gives_signedNumber)).choice ?_
      exact gives_sets (gives_parameter .pitch gives_signedNumber)
  | media =>
      refine gives_manyArguments (gives_target.choice ?_)
      refine (gives_sets (gives_parameter .radius gives_number)).choice ?_
      exact gives_sets_of_isPlain rfl
  | teleport =>
      have hworld : Gives ShortRows (sets .worldName worldName : Grammar Rule (Argument .teleport))
          FiniteArgument := gives_sets_of_isPlain rfl
      have hplace : Gives ShortRows (sets .coordinates place : Grammar Rule (Argument .teleport))
          FiniteArgument := gives_sets gives_place
      have hparts := Gives.seq passesOn_shortRows (gives_anything (keyword (.verb .teleport)))
        (Gives.seq passesOn_shortRows hworld.optional hplace.optional)
      refine Gives.map (Gives.map (hparts.mono ?_))
      rintro ⟨name, world, destination⟩ ⟨-, hworld, hdestination⟩ said hsaid
      obtain ⟨part, hpart, heq⟩ := List.mem_filterMap.mp hsaid
      simp only [List.mem_cons, List.not_mem_nil, or_false] at hpart
      rcases hpart with rfl | rfl
      · exact hworld said heq
      · exact hdestination said heq
  | _ => exact absurd (by decide) hplain

/-! ## Commands -/

/-- Whether everything that a clause says is finite. -/
def FiniteClause : Clause → Prop
  | .act _ settings => ∀ setting ∈ settings, FiniteSetting setting
  | .warp destination => destination.isFinite
  | .invalid _ => True

theorem gives_namedClause (k : Keyword) : Gives ShortRows (namedClause k) FiniteClause := by
  cases k with
  | verb verb =>
      refine (Gives.map ((gives_verbArguments verb).mono fun arguments h => ?_)).rule _
      intro setting hsetting
      obtain ⟨said, hsaid, heq⟩ := List.mem_filterMap.mp hsetting
      exact h said hsaid setting heq
  | warp =>
      have hparts := Gives.seq passesOn_shortRows (gives_anything (keyword .warp)) gives_place
      exact (Gives.map (Gives.map (hparts.mono fun parts h => h.2))).rule _

theorem gives_clause : Gives ShortRows clause FiniteClause := by
  unfold clause
  induction Keyword.all with
  | nil => exact Gives.map (Gives.of_forall fun _ => trivial)
  | cons k keywords ih => exact (gives_namedClause k).choice ih

theorem gives_separatedList {α : Type} {P : α → Prop} (mark : String) {item : Grammar Rule α}
    (h : Gives ShortRows item P) :
    Gives ShortRows (separatedList mark item) fun values => ∀ value ∈ values, P value := by
  have hfurther : Gives ShortRows (separators mark *> item) P :=
    ((Gives.seq passesOn_shortRows (gives_anything _) h).mono fun _ h => h.2).map
  have hseparated : Gives ShortRows (separated mark item)
      fun values => ∀ value ∈ values, P value := by
    have hparts := Gives.seq passesOn_shortRows h (Gives.many passesOn_shortRows hfurther)
    exact (hparts.mono fun parts h => List.forall_mem_cons.mpr h).map
  have hparts := Gives.seq passesOn_shortRows hseparated.optional
    (gives_anything (.many (.literal mark)))
  refine (hparts.mono ?_).map
  rintro ⟨values, marks⟩ ⟨hvalues, -⟩
  cases values with
  | none => simp
  | some values => exact hvalues values rfl

theorem gives_actions :
    Gives ShortRows actions fun written =>
      ∀ action ∈ written, ∀ statement ∈ action.statements, FiniteClause statement.clause := by
  have hstatement : Gives ShortRows statement fun statement => FiniteClause statement.clause := by
    unfold statement
    exact Gives.map (Gives.captured gives_clause)
  have haction : Gives ShortRows action fun action =>
      ∀ statement ∈ action.statements, FiniteClause statement.clause := by
    have hparts := Gives.seq passesOn_shortRows (gives_anything trigger)
      (gives_separatedList "," hstatement)
    exact ((hparts.mono fun parts h => h.2).map).rule _
  have hparts := Gives.seq passesOn_shortRows (gives_separatedList ";" haction)
    (gives_anything (.finish .endOfInput))
  exact (hparts.mono fun parts h => h.1).map

end Script

/-! ## Records -/

theorem Record.isFinite_iff {allowed : List Attribute} {record : Record allowed} :
    record.isFinite ↔ ∀ a v, record.get? a = some v → a.shape.isFinite v = true := by
  rw [isFinite, List.all_eq_true]
  constructor
  · intro h a v hget
    by_cases hmem : a ∈ allowed
    · have hall := h a hmem
      rwa [hget, Option.all_some] at hall
    · rw [record.get?_of_notMem a hmem] at hget
      cases hget
  · intro h a _
    rw [Option.all_eq_true]
    exact h a

theorem Record.isFinite_set {allowed : List Attribute} {record : Record allowed}
    {setting : Setting allowed} (h : record.isFinite) (hsetting : Script.FiniteSetting setting) :
    (record.set setting).isFinite := by
  rw [isFinite_iff] at h ⊢
  intro a v hget
  by_cases hname : setting.name = a
  · subst hname
    rw [get?_set_self, Option.some.injEq] at hget
    exact hget ▸ hsetting
  · rw [get?_set_of_ne record hname] at hget
    exact h a v hget

/-- Finite settings make up a finite record. -/
theorem Record.isFinite_of_ofSettings {allowed : List Attribute} {settings : List (Setting allowed)}
    {record : Record allowed} (h : ∀ setting ∈ settings, Script.FiniteSetting setting)
    (hrecord : Record.ofSettings settings = .ok record) : record.isFinite := by
  have hstart : (unset : Record allowed).isFinite := isFinite_iff.mpr (by simp)
  rw [ofSettings] at hrecord
  generalize (unset : Record allowed) = start at hrecord hstart
  induction settings generalizing start with
  | nil =>
      cases hrecord
      exact hstart
  | cons setting settings ih =>
      obtain ⟨hsetting, hsettings⟩ := List.forall_mem_cons.mp h
      rw [List.foldlM_cons] at hrecord
      split at hrecord
      · cases hrecord
      · exact ih hsettings _ hrecord (isFinite_set hstart hsetting)

theorem Statement.isFinite_of_command? {statement : Statement} {command : Command}
    (h : Script.FiniteClause statement.clause) (hcommand : statement.command? = some command) :
    command.isFinite := by
  obtain ⟨text, clause⟩ := statement
  cases clause with
  | act verb settings =>
      cases hrecord : Record.ofSettings settings with
      | error a =>
          simp [command?, Statement.command, hrecord, Except.map, Except.toOption] at hcommand
      | ok record =>
          simp only [command?, Statement.command, hrecord, Except.map, Except.toOption,
            Option.some.injEq] at hcommand
          exact hcommand ▸ Record.isFinite_of_ofSettings h hrecord
  | warp destination =>
      cases hcommand
      exact h
  | invalid text =>
      cases hcommand
      rfl

/-- **Short rows of digits give finite commands.** -/
theorem Action.isFinite_of_ofScript? {script : String} {actions : List Action}
    (h : Text.ShortRows (Text.clean script).toList) (hread : ofScript? script = some actions) :
    ∀ action ∈ actions, ∀ command, some command ∈ action.commands → command.isFinite := by
  rw [ofScript?, Option.map_eq_some_iff] at hread
  obtain ⟨written, hwritten, rfl⟩ := hread
  rw [Script.written?, Option.map_eq_some_iff] at hwritten
  obtain ⟨⟨written, rest⟩, hread, rfl⟩ := hwritten
  have hshort := Text.passesOn_shortRows (Grammar.skipBlanks_isSuffix _) h
  have hfinite := Script.gives_actions hshort hread
  intro action haction command hcommand
  obtain ⟨said, hsaid, rfl⟩ := List.mem_map.mp haction
  obtain ⟨statement, hstatement, heq⟩ := List.mem_map.mp hcommand
  exact Statement.isFinite_of_command? (hfinite said hsaid statement hstatement) heq

end ObjectActions
