import ObjectActions.Proofs.Command.Repeated
import ObjectActions.Proofs.Script.FirstStatement

/-!
# Turns and movements

The verb `rotate` is `move` without two flags.  Their arguments are written alike, and what a turn
calls its speed is the distance of a movement:

```text
at the front of the text     rotate                   move
smooth, global               the arguments end here   a flag of the movement
a list of numbers            the speed                the distance
anything else                an argument of both, or none of either
```

So both verbs read the same arguments up to the first flag, where only the movement goes on.  But a
script that makes sense does not leave a flag behind its arguments: what is left there is nothing,
or it begins with a separator.

* `Mirrors.items_eq` and `Mirrors.not_beginsFlag`: what the arguments of one verb say about those
  of the other one;
* `toOption_ofSettings_movement`: corresponding settings set an attribute twice together, and make
  up corresponding records otherwise;
* `ofScript?_rotate_and_move`: the statement for scripts.
-/

namespace ObjectActions

/-! ## Records -/

namespace Record

variable {allowed : List Attribute} {settings : List (Setting allowed)} {record : Record allowed}

/-- What is written is set. -/
theorem isSome_get?_of_mem (h : (ofSettings settings).toOption = some record)
    {setting : Setting allowed} (hmem : setting ∈ settings) :
    (record.get? setting.name).isSome := by
  by_cases hnodup : (settings.map Setting.name).Nodup
  · obtain ⟨other, hother, hget⟩ := ofSettings_of_nodup hnodup
    rw [hother] at h
    obtain rfl := Option.some.inj h
    rw [(hget _ _).mpr ⟨setting.mem, hmem⟩, Option.isSome_some]
  · obtain ⟨again, hagain⟩ := exists_firstAgain hnodup
    rw [ofSettings_of_firstAgain hagain] at h
    cases h

end Record

/-- A turn as a movement, which is neither smooth nor global. -/
def movementOf (turn : Record Verb.rotate.attributes) : Record Verb.move.attributes where
  get?
    | .distance => turn.get? .speed
    | .time => turn.get? .time
    | .wait => turn.get? .wait
    | .loop => turn.get? .loop
    | .reset => turn.get? .reset
    | .sync => turn.get? .sync
    | .targetName => turn.get? .targetName
    | _ => none
  get?_of_notMem a hmem := by
    cases a <;> first | rfl | exact absurd (by decide) hmem

theorem mem_move_of_mem_rotate :
    ∀ a ∈ Verb.rotate.attributes, a ≠ .speed → a ∈ Verb.move.attributes := by
  decide

theorem distance_mem_move : Verb.move.Sets .distance := by decide

/-- What a turn sets as what a movement sets. -/
def movementSetting (setting : Setting Verb.rotate.attributes) : Setting Verb.move.attributes :=
  if h : setting.name = .speed then
    ⟨.distance, (congrArg Attribute.Value h).mp setting.value, distance_mem_move⟩
  else ⟨setting.name, setting.value, mem_move_of_mem_rotate _ setting.mem h⟩

theorem mem_rotate_iff {a : Attribute} :
    a ∈ Verb.rotate.attributes ↔ a = .speed ∨ a = .time ∨ a = .wait ∨ a = .loop ∨ a = .reset ∨
      a = .sync ∨ a = .targetName := by
  simp [Verb.attributes]

/-- One setting after the other can be turned into that of a movement. -/
theorem movementOf_set (turn : Record Verb.rotate.attributes)
    (setting : Setting Verb.rotate.attributes) :
    movementOf (turn.set setting) = (movementOf turn).set (movementSetting setting) := by
  obtain ⟨name, value, mem⟩ := setting
  rw [Record.eq_iff_forall_mem]
  simp only [List.forall_mem_cons, List.not_mem_nil, IsEmpty.forall_iff, implies_true, and_true]
  rcases mem_rotate_iff.mp mem with rfl | rfl | rfl | rfl | rfl | rfl | rfl <;>
    exact ⟨rfl, rfl, rfl, rfl, rfl, rfl, rfl, rfl, rfl⟩

theorem get?_movementOf (turn : Record Verb.rotate.attributes)
    (setting : Setting Verb.rotate.attributes) :
    ((movementOf turn).get? (movementSetting setting).name).isSome =
      (turn.get? setting.name).isSome := by
  obtain ⟨name, value, mem⟩ := setting
  rcases mem_rotate_iff.mp mem with rfl | rfl | rfl | rfl | rfl | rfl | rfl <;> rfl

/-- Settings of a turn and those of the movement set an attribute twice together, and otherwise
the record of the movement is that of the turn. -/
theorem toOption_ofSettings_movement (settings : List (Setting Verb.rotate.attributes)) :
    (Record.ofSettings (settings.map movementSetting)).toOption =
      (Record.ofSettings settings).toOption.map movementOf := by
  have hunset : movementOf Record.unset = Record.unset :=
    Record.eq_iff_forall_mem.mpr (by simp [movementOf])
  unfold Record.ofSettings
  rw [← hunset]
  generalize (Record.unset : Record Verb.rotate.attributes) = turn
  induction settings generalizing turn with
  | nil => rfl
  | cons setting settings ih =>
      rw [List.map_cons, List.foldlM_cons, List.foldlM_cons, get?_movementOf]
      cases hset : (turn.get? setting.name).isSome with
      | true => rfl
      | false =>
          rw [← movementOf_set]
          exact ih (turn.set setting)

namespace Script

open Grammar

variable {text rest : List Char}

/-! ## Flags -/

/-- Whether a flag that only movements have stands at the front of a text. -/
def BeginsFlag (text : List Char) : Prop :=
  text.takeWhile Text.isNameChar = "smooth".toList ∨
    text.takeWhile Text.isNameChar = "global".toList

theorem BeginsFlag.exists_cons (h : BeginsFlag text) :
    ∃ c rest, text = c :: rest ∧ (c = 's' ∨ c = 'g') := by
  cases text with
  | nil => rcases h with h | h <;> cases h
  | cons c rest =>
      refine ⟨c, rest, rfl, ?_⟩
      have hhead : ∀ d ∈ (List.takeWhile Text.isNameChar (c :: rest)).head?, d = c := by
        rw [List.takeWhile_cons]
        split <;> simp
      rcases h with h | h
      · exact .inl (hhead 's' (by rw [h]; rfl)).symm
      · exact .inr (hhead 'g' (by rw [h]; rfl)).symm

/-- No parameter that turns and movements share begins like a flag. -/
theorem BeginsFlag.read?_parameter {α : Type} (h : BeginsFlag text) {p : Parameter}
    (hp : p = .name ∨ p = .time ∨ p = .wait) (value : Grammar Rule α) :
    (parameter p value).read? text = none := by
  obtain ⟨c, rest, rfl, hc⟩ := h.exists_cons
  rw [Script.read?_parameter]
  rcases hp with rfl | rfl | rfl <;> rcases hc with rfl | rfl <;> rfl

theorem BeginsFlag.read?_status (h : BeginsFlag text) {affirmative : String}
    (hword : affirmative = "loop" ∨ affirmative = "reset" ∨ affirmative = "sync") (rule : Rule) :
    (status rule affirmative).read? text = none := by
  rw [status, read?_word]
  rcases h with h | h <;> rw [h] <;> rcases hword with rfl | rfl | rfl <;> rfl

theorem BeginsFlag.read?_numberList (h : BeginsFlag text) : numberList.read? text = none := by
  obtain ⟨c, rest, rfl, hc⟩ := h.exists_cons
  have hhead : ∀ d ∈ (c :: rest).head?, beginsNumber d = false := by
    rcases hc with rfl | rfl <;> simp <;> decide
  rw [numberList, Grammar.read?, oneOrMore, read?_map, read?_seq, read?_signedNumber_of_head hhead]
  rfl

theorem read?_flag (rule : Rule) (affirmative : String) (text : List Char) :
    (flag rule affirmative).read? text =
      if text.takeWhile Text.isNameChar = affirmative.toList then
        some (true, text.dropWhile Text.isNameChar)
      else none := by
  have hword : String.ofList (text.takeWhile Text.isNameChar) = affirmative ↔
      text.takeWhile Text.isNameChar = affirmative.toList := by
    rw [← String.toList_inj, String.toList_ofList]
  rw [flag, read?_word]
  simp only [hword]
  split <;> rfl

/-! ## Arguments -/

/-- The arguments of movements mirror those of turns, flags aside. -/
structure Mirrors (turning : Grammar Rule (Argument .rotate))
    (moving : Grammar Rule (Argument .move)) : Prop where
  productive_turning : turning.Productive
  productive_moving : moving.Productive
  /-- Where no flag stands both verbs read the same argument. -/
  read?_eq : ∀ ⦃text⦄, ¬ BeginsFlag text →
    moving.read? text = (turning.read? text).map fun result =>
      (result.1.map movementSetting, result.2)
  /-- A turn does not have flags. -/
  read?_turning : ∀ ⦃text⦄, BeginsFlag text → turning.read? text = none
  /-- A movement has flags. -/
  read?_moving : ∀ ⦃text⦄, BeginsFlag text →
    ∃ setting rest, moving.read? text = some (some setting, rest) ∧
      (setting.name = .smooth ∨ setting.name = .global)

theorem productive_flag (rule : Rule) {affirmative : String} (h : affirmative ≠ "") :
    (flag rule affirmative).Productive :=
  productive_token (if_neg h.symm)

theorem productive_status (rule : Rule) {affirmative : String} (h : affirmative ≠ "") :
    (status rule affirmative).Productive :=
  productive_token ((if_neg h.symm).trans (if_neg (by simp)))

theorem exists_mirrors :
    ∃ turning moving, verbArguments .rotate = manyArguments (.verb .rotate) turning ∧
      verbArguments .move = manyArguments (.verb .move) moving ∧ Mirrors turning moving := by
  refine ⟨_, _, rfl, rfl, ?_, ?_, ?_, ?_, ?_⟩
  · exact (productive_parameter _ _).map _ |>.choice
      <| (productive_parameter _ _).map _ |>.choice
      <| (productive_parameter _ _).map _ |>.choice
      <| (productive_status _ (by decide)).map _ |>.choice
      <| (productive_status _ (by decide)).map _ |>.choice
      <| (productive_status _ (by decide)).map _ |>.choice
      <| (productive_numberList.map _).map _
  · exact (productive_parameter _ _).map _ |>.choice
      <| (productive_parameter _ _).map _ |>.choice
      <| (productive_parameter _ _).map _ |>.choice
      <| (productive_status _ (by decide)).map _ |>.choice
      <| (productive_status _ (by decide)).map _ |>.choice
      <| (productive_status _ (by decide)).map _ |>.choice
      <| (productive_flag _ (by decide)).map _ |>.choice
      <| (productive_flag _ (by decide)).map _ |>.choice
      <| (productive_numberList.map _).map _
  · intro text h
    obtain ⟨hsmooth, hglobal⟩ := not_or.mp h
    simp only [orElse_eq_choice, read?_choice, target, sets, read?_map, read?_flag, if_neg hsmooth,
      if_neg hglobal, Option.map_none, Option.none_or, Option.map_or, Option.map_map]
    rfl
  · intro text h
    simp (disch := decide) only [orElse_eq_choice, read?_choice, target, sets, read?_map,
      h.read?_parameter, h.read?_status, h.read?_numberList, Option.map_none, Option.none_or]
  · intro text h
    simp (disch := decide) only [orElse_eq_choice, read?_choice, target, sets, read?_map,
      h.read?_parameter, h.read?_status, h.read?_numberList, Option.map_none, Option.none_or,
      Option.or_none, read?_flag]
    rcases h with h | h
    · exact ⟨_, _, by rw [if_pos h]; rfl, .inl rfl⟩
    · exact ⟨_, _, by rw [h]; rfl, .inr rfl⟩

namespace Mirrors

variable {turning : Grammar Rule (Argument .rotate)} {moving : Grammar Rule (Argument .move)}

/-- An argument of a turn is one of a movement. -/
theorem read?_of_turning (h : Mirrors turning moving) {said : Argument .rotate}
    (hread : turning.read? text = some (said, rest)) :
    moving.read? text = some (said.map movementSetting, rest) := by
  have hflag : ¬ BeginsFlag text := by
    intro hflag
    cases hread.symm.trans (h.read?_turning hflag)
  rw [h.read?_eq hflag, hread, Option.map_some]

/-- If the arguments of a turn do not end at a flag, then a movement has the same arguments. -/
theorem items_eq (h : Mirrors turning moving) (text : List Char)
    (hrest : ¬ BeginsFlag (Text.skipBlanks (items turning text).2)) :
    items moving text =
      ((items turning text).1.map (Option.map movementSetting), (items turning text).2) := by
  induction text using h.productive_turning.items_induction with
  | stop text hread =>
      rw [items_of_none hread] at hrest ⊢
      have hmoving := h.read?_eq hrest
      rw [hread, Option.map_none] at hmoving
      exact items_of_none hmoving
  | step text said last hread ih =>
      rw [items_of_some h.productive_turning hread] at hrest ⊢
      rw [items_of_some h.productive_moving (h.read?_of_turning hread), ih hrest, List.map_cons]

/-- If a movement has no flags, then the arguments of the turn do not end at one. -/
theorem not_beginsFlag (h : Mirrors turning moving) (text : List Char)
    (hflags : ∀ setting, some setting ∈ (items moving text).1 →
      setting.name ≠ .smooth ∧ setting.name ≠ .global) :
    ¬ BeginsFlag (Text.skipBlanks (items turning text).2) := by
  induction text using h.productive_turning.items_induction with
  | stop text hread =>
      rw [items_of_none hread]
      intro hflag
      obtain ⟨setting, last, hmoving, hname⟩ := h.read?_moving hflag
      rw [items_of_some h.productive_moving hmoving] at hflags
      obtain ⟨hsmooth, hglobal⟩ := hflags setting List.mem_cons_self
      exact hname.elim hsmooth hglobal
  | step text said last hread ih =>
      rw [items_of_some h.productive_moving (h.read?_of_turning hread)] at hflags
      rw [items_of_some h.productive_turning hread]
      exact ih fun setting hmem => hflags setting (List.mem_cons_of_mem _ hmem)

end Mirrors

/-- What is left in a script that makes sense does not begin with a flag. -/
theorem GoesOn.not_beginsFlag {commands : List (Option Command)} {actions : List Action}
    (h : GoesOn rest commands actions) : ¬ BeginsFlag (Text.skipBlanks rest) := by
  intro hflag
  obtain ⟨c, behind, hrest, hc⟩ := hflag.exists_cons
  obtain ⟨-, hactions⟩ := h
  rw [laterStatements, hrest] at hactions
  rcases hc with rfl | rfl <;> simp [furtherActions?] at hactions

/-! ## Statements -/

/-- A verb commands what its settings make up together, if they do. -/
theorem command?_act {verb : Verb} (settings : List (Setting verb.attributes)) (written : String) :
    Statement.command? ⟨written, .act verb settings⟩ =
      (Record.ofSettings settings).toOption.map (.act verb) := by
  cases hsettings : Record.ofSettings settings with
  | ok record => exact command?_of_ofSettings hsettings written
  | error a =>
      simp only [Statement.command?, Statement.command, hsettings]
      rfl

/-- A verb with any number of arguments commands what its arguments set. -/
theorem opensWith_manyArguments_iff {verb : Verb} {argument : Grammar Rule (Argument verb)}
    {command : Option Command}
    (h : verbArguments verb = manyArguments (.verb verb) argument) :
    OpensWith ((Keyword.verb verb).word.toList ++ ' ' :: text) command rest ↔
      rest = (items argument (Text.skipBlanks text)).2 ∧
        command = (Record.ofSettings
          ((items argument (Text.skipBlanks text)).1.filterMap id)).toOption.map (.act verb) := by
  have hblank : Text.skipBlanks (' ' :: text) = Text.skipBlanks text :=
    Text.skipBlanks_cons_of_isBlank (by decide) text
  have hnamed : (namedClause (.verb verb)).read?
      ((Keyword.verb verb).word.toList ++ ' ' :: text) =
        some (.act verb ((items argument (Text.skipBlanks text)).1.filterMap id),
          (items argument (Text.skipBlanks text)).2) := by
    rw [namedClause, Grammar.read?, read?_map, h, manyArguments, read?_seqRight,
      read?_keyword_self, Option.bind_some, hblank, read?_many, Option.map_some]
  have hclause := read?_clause_of_frontWord (frontWord_keyword (.verb verb) text) hnamed
  simp only [opensWith_iff, hclause, Option.some.injEq, Prod.mk.injEq]
  constructor
  · rintro ⟨_, ⟨rfl, rfl⟩, hsaid⟩
    exact ⟨rfl, (hsaid "").symm.trans (command?_act _ "")⟩
  · rintro ⟨rfl, rfl⟩
    exact ⟨_, ⟨rfl, rfl⟩, command?_act _⟩

theorem filterMap_map_movement (said : List (Argument .rotate)) :
    (said.map (Option.map movementSetting)).filterMap id =
      (said.filterMap id).map movementSetting := by
  rw [List.filterMap_map, List.map_filterMap]
  rfl

/-- Behind a turn the script goes on as it does behind the movement. -/
theorem opensWith_move_of_rotate {command : Option Command}
    (hflag : ¬ BeginsFlag (Text.skipBlanks rest))
    (h : OpensWith ((Keyword.verb .rotate).word.toList ++ ' ' :: text) command rest) :
    ∃ turn : Option (Record Verb.rotate.attributes), command = turn.map (.act .rotate) ∧
      OpensWith ((Keyword.verb .move).word.toList ++ ' ' :: text)
        (turn.map fun turn => .act .move (movementOf turn)) rest := by
  obtain ⟨turning, moving, hturning, hmoving, hmirrors⟩ := exists_mirrors
  obtain ⟨rfl, rfl⟩ := (opensWith_manyArguments_iff hturning).mp h
  refine ⟨_, rfl, (opensWith_manyArguments_iff hmoving).mpr ?_⟩
  rw [hmirrors.items_eq _ hflag, filterMap_map_movement, toOption_ofSettings_movement,
    Option.map_map]
  exact ⟨rfl, rfl⟩

theorem opensWith_rotate_of_move {movement : Record Verb.move.attributes}
    (hsmooth : movement.get? .smooth = none) (hglobal : movement.get? .global = none)
    (h : OpensWith ((Keyword.verb .move).word.toList ++ ' ' :: text) (some (.act .move movement))
      rest) :
    ∃ turn, movementOf turn = movement ∧
      OpensWith ((Keyword.verb .rotate).word.toList ++ ' ' :: text) (some (.act .rotate turn))
        rest := by
  obtain ⟨turning, moving, hturning, hmoving, hmirrors⟩ := exists_mirrors
  obtain ⟨rfl, hcommand⟩ := (opensWith_manyArguments_iff hmoving).mp h
  obtain ⟨_, hmovement, heq⟩ := Option.map_eq_some_iff.mp hcommand.symm
  cases heq
  -- a flag would be set in the movement
  have hflags : ∀ setting, some setting ∈ (items moving (Text.skipBlanks text)).1 →
      setting.name ≠ .smooth ∧ setting.name ≠ .global := by
    intro setting hmem
    have hset := Record.isSome_get?_of_mem hmovement (List.mem_filterMap.mpr ⟨_, hmem, rfl⟩)
    refine ⟨fun hname => ?_, fun hname => ?_⟩
    · rw [hname, hsmooth] at hset
      cases hset
    · rw [hname, hglobal] at hset
      cases hset
  have hitems := hmirrors.items_eq _ (hmirrors.not_beginsFlag _ hflags)
  rw [hitems, filterMap_map_movement, toOption_ofSettings_movement, Option.map_eq_some_iff]
    at hmovement
  obtain ⟨turn, hturn, hmovement⟩ := hmovement
  refine ⟨turn, hmovement, (opensWith_manyArguments_iff hturning).mpr ?_⟩
  rw [hitems, hturn]
  exact ⟨rfl, rfl⟩

/-! ## Scripts -/

/-- **Turns and movements.**  A script with a turn behind its trigger makes sense with a movement
in its place, and says the same apart from it: nothing if the turn sets an attribute twice, and
otherwise the movement that the turn is.  A script with a movement that is neither smooth nor
global makes sense with the turn in its place, and says the same apart from it as well. -/
theorem ofScript?_rotate_and_move {trigger : Trigger} {word : String}
    (hword : Text.lower word.toList = trigger.name.toList) (script : String) (first : Trigger)
    (commands : List (Option Command)) (actions : List Action) :
    (∀ command, Action.ofScript? (word ++ " rotate " ++ script) =
        some (⟨first, command :: commands⟩ :: actions) →
      ∃ turn : Option (Record Verb.rotate.attributes), command = turn.map (.act .rotate) ∧
        Action.ofScript? (word ++ " move " ++ script) =
          some (⟨first, (turn.map fun turn => .act .move (movementOf turn)) :: commands⟩ ::
            actions)) ∧
    ∀ movement : Record Verb.move.attributes,
      movement.get? .smooth = none → movement.get? .global = none →
      Action.ofScript? (word ++ " move " ++ script) =
        some (⟨first, some (.act .move movement) :: commands⟩ :: actions) →
      ∃ turn, movementOf turn = movement ∧
        Action.ofScript? (word ++ " rotate " ++ script) =
          some (⟨first, some (.act .rotate turn) :: commands⟩ :: actions) := by
  rw [show " rotate " = " " ++ (Keyword.verb .rotate).word ++ " " from rfl,
    show " move " = " " ++ (Keyword.verb .move).word ++ " " from rfl]
  simp only [ofScript?_keyword_eq_some_cons_iff hword]
  refine ⟨?_, ?_⟩
  · rintro command ⟨rfl, rest, hturn, hrest⟩
    obtain ⟨turn, rfl, hmovement⟩ := opensWith_move_of_rotate hrest.not_beginsFlag hturn
    exact ⟨turn, rfl, rfl, rest, hmovement, hrest⟩
  · rintro movement hsmooth hglobal ⟨rfl, rest, hmovement, hrest⟩
    obtain ⟨turn, hturn, hopen⟩ := opensWith_rotate_of_move hsmooth hglobal hmovement
    exact ⟨turn, hturn, rfl, rest, hopen, hrest⟩

theorem speed_mem_rotate : Verb.rotate.Sets .speed := by decide

theorem time_mem_rotate : Verb.rotate.Sets .time := by decide

theorem time_mem_move : Verb.move.Sets .time := by decide

/-- A turn that takes ten seconds. -/
def slowTurn : Record Verb.rotate.attributes :=
  (Record.unset.set ⟨.time, Digits.toBinary64 ['1', '0'] [], time_mem_rotate⟩).set
    ⟨.speed, Triple.ofOffsets [-Digits.toBinary64 ['2'] ['5']], speed_mem_rotate⟩

/-- The movement that is written like it. -/
def slowMovement : Record Verb.move.attributes :=
  (Record.unset.set ⟨.time, Digits.toBinary64 ['1', '0'] [], time_mem_move⟩).set
    ⟨.distance, Triple.ofOffsets [-Digits.toBinary64 ['2'] ['5']], distance_mem_move⟩

/-- Both directions, with another command and another action behind the first command. -/
theorem ofScript?_slowTurn_and_slowMovement :
    (∃ turn : Option (Record Verb.rotate.attributes),
      some (Command.act .rotate slowTurn) = turn.map (.act .rotate) ∧
        Action.ofScript? ("Bump" ++ " move " ++ "Time =10 -2.5 , sign; create url") =
          some (⟨.bump, (turn.map fun turn => .act .move (movementOf turn)) ::
            [some (.act .sign Record.unset)]⟩ :: [⟨.create, [some (.act .url Record.unset)]⟩])) ∧
    ∃ turn, movementOf turn = slowMovement ∧
      Action.ofScript? ("Bump" ++ " rotate " ++ "Time =10 -2.5 , sign; create url") =
        some (⟨.bump, some (.act .rotate turn) :: [some (.act .sign Record.unset)]⟩ ::
          [⟨.create, [some (.act .url Record.unset)]⟩]) := by
  have hword : Text.lower "Bump".toList = Trigger.bump.name.toList := by decide
  obtain ⟨hturn, hmovement⟩ := ofScript?_rotate_and_move hword
    "Time =10 -2.5 , sign; create url" .bump [some (.act .sign Record.unset)]
    [⟨.create, [some (.act .url Record.unset)]⟩]
  exact ⟨hturn _ (by decide +kernel), hmovement _ rfl rfl (by decide +kernel)⟩

end Script

end ObjectActions
