import ObjectActions.Proofs.Script.FormReach

/-!
# Places that are cut off

A place is a position with an altitude and a direction behind it, which may be missing.  A
position is either two numbers with letters or two numbers with signs, and its first character
tells which.

What fails at the end of a text can always be completed (`exists_place_completion`): by a zero
where a number is cut off, and by the letter, the second number or the direction that belongs
behind it.
-/

namespace ObjectActions.Script

open Grammar

variable {text more rest : List Char}

/-! ## Fixed characters and letters -/

theorem keeps_literal (characters : String) :
    (Grammar.literal characters : Grammar Rule Unit).Keeps := by
  intro text rest h more
  rw [rest?_literal] at h ⊢
  obtain ⟨front, rfl, hfront⟩ := after?_eq_some_iff.mp h
  rw [List.append_assoc]
  exact after?_of_lower_eq hfront _

theorem cuts_literal (characters : String) :
    (Grammar.literal characters : Grammar Rule Unit).Cuts := by
  intro text more rest h
  rw [rest?_literal] at h ⊢
  obtain ⟨front, hsplit, hfront⟩ := after?_eq_some_iff.mp h
  rw [← List.append_assoc] at hsplit
  obtain rfl := List.append_cancel_right hsplit
  exact after?_of_lower_eq hfront _

theorem keeps_letter {α : Type} (rule : Rule) {value? : String → Option α}
    (hvalue : value? "" = none) : (Grammar.token rule .letter value?).Keeps :=
  fun _ _ h more => rest?_letter_append rule hvalue h more

/-- A number with something directly behind it that does not begin with a point. -/
theorem keeps_number_join {α : Type} {second : Grammar Rule α} (h : second.Keeps)
    (hprod : second.Productive) (hpoint : ∀ text, second.rest? ('.' :: text) = none) :
    (join number second).Keeps := by
  intro text rest hrest more
  rw [rest?_join] at hrest ⊢
  obtain ⟨middle, hmiddle, hsecond⟩ := Option.bind_eq_some_iff.mp hrest
  obtain ⟨c, middle, rfl⟩ := List.exists_cons_of_ne_nil (hprod.ne_nil hsecond)
  have hc : c ≠ '.' := by
    rintro rfl
    rw [hpoint] at hsecond
    cases hsecond
  rw [rest?_number_cons hmiddle hc more, Option.bind_some]
  exact h hsecond more

/-! ## Numbers with the letter of their axis -/

section Axis

variable {rule rule' : Rule} {positive negative : String} {c : Char}

theorem productive_axisNumber (letter : Grammar Rule Bool) : (axisNumber rule letter).Productive :=
  ((productive_number.join _).map _).rule _

section Words

variable (hwords : ∀ word ∈ ["", "."], ¬ Text.alike word positive ∧ ¬ Text.alike word negative)
include hwords

theorem keeps_axisNumber : (axisNumber rule (axis rule' positive negative)).Keeps := by
  have hsingle : String.singleton '.' = "." := rfl
  refine (keeps_number_join (keeps_letter rule' ?_) (productive_token ?_) fun text => ?_).map _
  · simp [hwords ""]
  · simp [hwords ""]
  · rw [rest?_letter, hsingle]
    simp [hwords "."]

theorem cuts_axisNumber : (axisNumber rule (axis rule' positive negative)).Cuts := by
  refine ((cuts_number.join (cuts_letter rule' ?_)).map _).rule _
  simp [hwords ""]

end Words

variable (hc : Text.alike (String.singleton c) positive) (hstop : c.isDigit = false ∧ c ≠ '.')
include hc

theorem rest?_axisNumber_letter (h : number.rest? text = some (c :: rest)) :
    (axisNumber rule (axis rule' positive negative)).rest? text = some rest := by
  rw [axisNumber, rest?_rule, rest?_map, rest?_join, h, Option.bind_some, axis, rest?_letter,
    if_pos (by simp [hc])]

include hstop

theorem rest?_axisNumber_zero (behind : List Char) :
    (axisNumber rule (axis rule' positive negative)).rest? ('0' :: c :: behind) = some behind := by
  have hzero : ∀ d ∈ ['0'], d.isDigit = true := List.forall_mem_singleton.mpr rfl
  refine rest?_axisNumber_letter hc ?_
  exact (@number_whole ['0'] (c :: behind) hzero (by simpa using hstop)).1

/-- A number with a letter is completed by a zero and its letter or by its letter alone. -/
theorem exists_axisNumber_completion (hsolid : IsSolid ['0', c])
    (h : (axisNumber rule (axis rule' positive negative)).reach? (text ++ more) =
      some more.length) :
    ∃ further, IsSolid further ∧ ∀ behind,
      (axisNumber rule (axis rule' positive negative)).rest? (text ++ (further ++ behind)) =
        some behind := by
  have hbehind (behind : List Char) : ∀ d ∈ (c :: behind).head?, d.isDigit = false ∧ d ≠ '.' := by
    simpa using hstop
  by_cases hne : text = []
  · subst hne
    exact ⟨['0', c], hsolid, rest?_axisNumber_zero hc hstop⟩
  · have hjoin := reach?_of_rule h hne
    rw [reach?_map] at hjoin
    rcases exists_of_reach?_join hjoin with hnumber | ⟨middle, -, hmiddle, hletter⟩
    · refine ⟨['0', c], hsolid, fun behind => rest?_axisNumber_letter hc ?_⟩
      exact rest?_number_zero hnumber (hbehind behind)
    · obtain rfl := eq_nil_of_reach?_token hletter
      have hcut : number.rest? text = some [] := cuts_number hmiddle
      refine ⟨[c], ⟨by simp, fun d hd => hsolid.2 d (by simp_all)⟩, fun behind => ?_⟩
      exact rest?_axisNumber_letter hc (rest?_number_append hcut (hbehind behind))

end Axis

/-! ## Numbers that must have a sign -/

theorem rest?_forcedNumber (text : List Char) :
    forcedNumber.rest? text = (sign.rest? text).bind number.rest? := by
  rw [forcedNumber, rest?_rule, rest?_map, rest?_join]

theorem keeps_sign : sign.Keeps := keeps_letter .sign rfl

theorem productive_forcedNumber : forcedNumber.Productive :=
  (((productive_token rfl).join _).map _).rule _

theorem cuts_forcedNumber : forcedNumber.Cuts :=
  (((cuts_letter .sign rfl).join cuts_number).map _).rule _

theorem foresees_forcedNumber : forcedNumber.Foresees :=
  (((foresees_letter .sign rfl).join foresees_number reports_number).map _).rule _

theorem reports_forcedNumber : forcedNumber.Reports := .rule _ _

theorem grows_forcedNumber : forcedNumber.Grows := by
  intro text rest h more
  rw [forcedNumber, rest?_rule, rest?_map] at h ⊢
  exact Grows.join_of_keeps keeps_sign grows_number h more

theorem rest?_forcedNumber_cons {c : Char} (h : forcedNumber.rest? text = some (c :: rest))
    (hc : c ≠ '.') (more : List Char) :
    forcedNumber.rest? (text ++ more) = some (c :: (rest ++ more)) := by
  rw [rest?_forcedNumber] at h ⊢
  obtain ⟨tail, htail, hrest⟩ := Option.bind_eq_some_iff.mp h
  rw [keeps_sign htail more, Option.bind_some, rest?_number_cons hrest hc more]

theorem rest?_forcedNumber_append (h : forcedNumber.rest? text = some [])
    (hrest : ∀ c ∈ rest.head?, c.isDigit = false ∧ c ≠ '.') :
    forcedNumber.rest? (text ++ rest) = some rest := by
  rw [rest?_forcedNumber] at h ⊢
  obtain ⟨tail, htail, hnumber⟩ := Option.bind_eq_some_iff.mp h
  rw [keeps_sign htail rest, Option.bind_some, rest?_number_append hnumber hrest]

theorem rest?_forcedNumber_digit (h : forcedNumber.rest? text = some []) :
    forcedNumber.rest? (text ++ ['0']) = some [] := by
  rw [rest?_forcedNumber] at h ⊢
  obtain ⟨tail, htail, hrest⟩ := Option.bind_eq_some_iff.mp h
  rw [keeps_sign htail ['0'], Option.bind_some, rest?_number_digit hrest]

theorem exists_sign_of_reach?_forcedNumber (hne : text ≠ [])
    (h : forcedNumber.reach? (text ++ more) = some more.length) :
    ∃ tail, sign.rest? text = some tail ∧ number.reach? (tail ++ more) = some more.length := by
  have hjoin := reach?_of_rule h hne
  rw [reach?_map] at hjoin
  rcases exists_of_reach?_join hjoin with hsign | ⟨tail, -, htail, hnumber⟩
  · exact absurd (eq_nil_of_reach?_token hsign) hne
  · exact ⟨tail, cuts_letter .sign rfl htail, hnumber⟩

/-- A number with a sign is completed by a zero, or by a sign and a zero where it begins. -/
theorem exists_forcedNumber_completion
    (h : forcedNumber.reach? (text ++ more) = some more.length) :
    ∃ further, IsSolid further ∧ (text = [] → further = ['+', '0']) ∧
      ∀ behind, (∀ c ∈ behind.head?, c.isDigit = false ∧ c ≠ '.') →
        forcedNumber.rest? (text ++ (further ++ behind)) = some behind := by
  have hzero : ∀ d ∈ ['0'], d.isDigit = true := List.forall_mem_singleton.mpr rfl
  by_cases hne : text = []
  · subst hne
    refine ⟨['+', '0'], by decide, fun _ => rfl, fun behind hbehind => ?_⟩
    rw [rest?_forcedNumber]
    exact (@number_whole ['0'] behind hzero hbehind).1
  · obtain ⟨tail, hsign, hnumber⟩ := exists_sign_of_reach?_forcedNumber hne h
    refine ⟨['0'], by decide, fun hnil => absurd hnil hne, fun behind hbehind => ?_⟩
    rw [rest?_forcedNumber, keeps_sign hsign, Option.bind_some]
    exact rest?_number_zero hnumber hbehind

/-! ## Positions -/

theorem keeps_absolutePosition : absolutePosition.Keeps :=
  (((keeps_axisNumber (by decide)).seq (keeps_axisNumber (by decide))
    (productive_axisNumber _)).map _).rule _

theorem cuts_absolutePosition : absolutePosition.Cuts :=
  (((cuts_axisNumber (by decide)).seq (cuts_axisNumber (by decide))).map _).rule _

/-- A point of the grid that is cut off is completed up to its second letter. -/
theorem exists_absolutePosition_completion (hne : text ≠ [])
    (h : absolutePosition.reach? (text ++ more) = some more.length) :
    ∃ further, IsSolid further ∧ absolutePosition.rest? (text ++ further) = some [] := by
  have hn : Text.alike (String.singleton 'n') "n" := by decide
  have he : Text.alike (String.singleton 'e') "e" := by decide
  have hseq := reach?_of_rule h hne
  rw [reach?_map] at hseq
  simp only [absolutePosition, rest?_rule, rest?_map, rest?_seq]
  rcases exists_of_reach?_seq hseq with hfirst | ⟨middle, -, hmiddle, -, hsecond⟩
  · obtain ⟨further, hsolid, hread⟩ :=
      exists_axisNumber_completion hn (by decide) (by decide) hfirst
    refine ⟨further ++ ['0', 'e'], hsolid.append (by decide), ?_⟩
    rw [hread ['0', 'e'], Option.bind_some]
    exact rest?_axisNumber_zero he (by decide) []
  · obtain ⟨further, hsolid, hread⟩ :=
      exists_axisNumber_completion he (by decide) (by decide) hsecond
    have hcut := cuts_axisNumber (by decide) hmiddle
    have hread' := hread []
    rw [List.append_nil] at hread'
    refine ⟨further, hsolid, ?_⟩
    rw [keeps_axisNumber (by decide) hcut further, Option.bind_some, hsolid.skipBlanks_after,
      hread']

theorem rest?_relativePosition (text : List Char) :
    relativePosition.rest? text =
      (forcedNumber.rest? text).bind fun rest => forcedNumber.rest? (Text.skipBlanks rest) := by
  rw [relativePosition, rest?_rule, rest?_map, rest?_seq]

theorem cuts_relativePosition : relativePosition.Cuts :=
  ((cuts_forcedNumber.seq cuts_forcedNumber).map _).rule _

theorem foresees_relativePosition : relativePosition.Foresees :=
  ((foresees_forcedNumber.seq foresees_forcedNumber reports_forcedNumber).map _).rule _

/-- No point stands between two numbers with signs. -/
theorem ne_point_of_rest?_forcedNumber {c : Char}
    (h : forcedNumber.rest? (Text.skipBlanks (c :: text)) = some rest) : c ≠ '.' := by
  rintro rfl
  rw [Text.skipBlanks_cons_of_not (by decide)] at h
  exact Option.some_ne_none _ (h.symm.trans rfl)

/-- The first of two numbers with signs is read in the same way whatever stands behind the
second one. -/
theorem rest?_forcedNumber_append_of_second {middle : List Char}
    (hfirst : forcedNumber.rest? text = some middle)
    (hsecond : forcedNumber.rest? (Text.skipBlanks middle) = some rest) (other : List Char) :
    forcedNumber.rest? (text ++ other) = some (middle ++ other) ∧
      Text.skipBlanks (middle ++ other) = Text.skipBlanks middle ++ other := by
  have hne := productive_forcedNumber.ne_nil hsecond
  cases middle with
  | nil => exact absurd rfl hne
  | cons c middle =>
      exact ⟨rest?_forcedNumber_cons hfirst (ne_point_of_rest?_forcedNumber hsecond) other,
        Text.skipBlanks_append_of_ne_nil hne other⟩

theorem grows_relativePosition : relativePosition.Grows := by
  intro text rest h more
  rw [rest?_relativePosition] at h ⊢
  obtain ⟨middle, hfirst, hsecond⟩ := Option.bind_eq_some_iff.mp h
  obtain ⟨hfirst', hskip⟩ := rest?_forcedNumber_append_of_second hfirst hsecond more
  rw [hfirst', Option.bind_some, hskip]
  exact grows_forcedNumber hsecond more

/-- Two numbers with signs that are cut off are completed up to the second number. -/
theorem exists_relativePosition_completion (hne : text ≠ [])
    (h : relativePosition.reach? (text ++ more) = some more.length) :
    ∃ further, IsSolid further ∧ relativePosition.rest? (text ++ further) = some [] := by
  have hseq := reach?_of_rule h hne
  rw [reach?_map] at hseq
  simp only [rest?_relativePosition]
  rcases exists_of_reach?_seq hseq with hfirst | ⟨middle, -, hmiddle, hskip, hsecond⟩
  · obtain ⟨further, hsolid, -, hread⟩ := exists_forcedNumber_completion hfirst
    refine ⟨further ++ ['+', '0'], hsolid.append (by decide), ?_⟩
    rw [hread ['+', '0'] (by simp), Option.bind_some]
    rfl
  · obtain ⟨further, hsolid, hstart, hread⟩ := exists_forcedNumber_completion hsecond
    have hcut := cuts_forcedNumber hmiddle
    have hread' := hread [] (by simp)
    rw [List.append_nil] at hread'
    have hfirst : forcedNumber.rest? (text ++ further) = some (middle ++ further) := by
      cases middle with
      | nil =>
          rw [hstart rfl]
          exact rest?_forcedNumber_append hcut (by simp)
      | cons c middle =>
          refine rest?_forcedNumber_cons hcut ?_ further
          rintro rfl
          -- the second number would fail at the point already
          rw [Text.skipBlanks_cons_of_not (by decide)] at hsecond
          obtain ⟨tail, htail, -⟩ := exists_sign_of_reach?_forcedNumber (by simp) hsecond
          exact Option.some_ne_none _ (htail.symm.trans rfl)
    refine ⟨further, hsolid, ?_⟩
    rw [hfirst, Option.bind_some, hsolid.skipBlanks_after, hread']

/-! ## Altitudes and directions -/

theorem rest?_altitude (text : List Char) :
    altitude.rest? text =
      (join number (.literal "a")).rest? ((sign.rest? text).getD text) := by
  rw [altitude, rest?_rule, rest?_map, rest?_join, rest?_optional, Option.bind_some]

theorem cuts_altitude : altitude.Cuts :=
  ((((cuts_letter .sign rfl).optional grows_sign).join
    (cuts_number.join (cuts_literal "a"))).map _).rule _

theorem keeps_altitude : altitude.Keeps := by
  have hprod : (Grammar.literal "a" : Grammar Rule Unit).Productive :=
    productive_literal (by decide)
  intro text rest h more
  rw [rest?_altitude] at h ⊢
  have hne : text ≠ [] := by
    rintro rfl
    exact Option.some_ne_none _ (h.symm.trans rfl)
  rw [getD_sign_append hne]
  exact keeps_number_join (keeps_literal "a") hprod (fun _ => rfl) h more

/-- A height that is cut off is completed by a zero and its letter. -/
theorem exists_altitude_completion (hne : text ≠ [])
    (h : altitude.reach? (text ++ more) = some more.length) :
    altitude.rest? (text ++ ['0', 'a']) = some [] := by
  have hjoin := reach?_of_rule h hne
  rw [reach?_map] at hjoin
  rcases exists_of_reach?_join hjoin with hsign | ⟨middle, -, hmiddle, hheight⟩
  · exact absurd (eq_nil_of_reach?_token hsign) hne
  · rw [rest?_optional, getD_sign_append hne, Option.some.injEq] at hmiddle
    have hmiddle := List.append_cancel_right hmiddle
    rw [rest?_altitude, getD_sign_append hne, hmiddle, rest?_join]
    rcases exists_of_reach?_join hheight with hnumber | ⟨_, -, -, hletter⟩
    · rw [rest?_number_zero hnumber (by simp)]
      rfl
    · cases hletter

theorem cuts_direction : direction.Cuts := ((cuts_run _ _ _).map _).rule _

theorem grows_direction : direction.Grows := by
  intro text rest h more
  rw [direction, rest?_rule, integer, rest?_map] at h ⊢
  exact grows_row _ _ h more

theorem eq_nil_of_reach?_direction (h : direction.reach? (text ++ more) = some more.length) :
    text = [] := by
  by_contra hne
  have hrow := reach?_of_rule h hne
  rw [integer, reach?_map] at hrow
  exact hne (eq_nil_of_reach?_token hrow)

/-! ## Places -/

/-- Where someone is sent to, without altitude and direction. -/
abbrev position : Grammar Rule Position := absolutePosition <|> relativePosition

/-- What may stand behind a position. -/
abbrev bearings : Grammar Rule (Option Altitude × Option UInt32) :=
  .seq (.optional altitude) (.optional direction)

theorem rest?_position (text : List Char) :
    position.rest? text = (absolutePosition.rest? text).or (relativePosition.rest? text) :=
  rest?_choice _ _

theorem rest?_place (text : List Char) :
    place.rest? text =
      (position.rest? text).bind fun rest => bearings.rest? (Text.skipBlanks rest) := by
  rw [place, rest?_rule, rest?_map, rest?_seq]

theorem rest?_bearings (text : List Char) :
    bearings.rest? text =
      some ((direction.rest? (Text.skipBlanks ((altitude.rest? text).getD text))).getD
        (Text.skipBlanks ((altitude.rest? text).getD text))) := by
  rw [rest?_seq, rest?_optional, Option.bind_some, rest?_optional]

theorem cuts_position : position.Cuts :=
  cuts_absolutePosition.choice cuts_relativePosition keeps_absolutePosition.grows

theorem grows_position : position.Grows :=
  keeps_absolutePosition.grows.choice grows_relativePosition

theorem cuts_place : place.Cuts :=
  ((cuts_position.seq ((cuts_altitude.optional keeps_altitude.grows).seq
    (cuts_direction.optional grows_direction))).map _).rule _

theorem grows_place : place.Grows := by
  intro text rest h more
  rw [place, rest?_rule, rest?_map] at h ⊢
  refine grows_position.seq_of_total (fun text => ?_) h more
  rw [rest?_bearings]
  simp

theorem productive_place : place.Productive := by
  have habsolute : absolutePosition.Productive := (((productive_axisNumber _).seq _).map _).rule _
  have hrelative : relativePosition.Productive := ((productive_forcedNumber.seq _).map _).rule _
  exact (((habsolute.choice hrelative).seq _).map _).rule _

theorem foresees_position : position.Foresees := by
  have haxis {rule rule' : Rule} {positive negative : String}
      (hwords : ¬ Text.alike "" positive ∧ ¬ Text.alike "" negative) :
      (axisNumber rule (axis rule' positive negative)).Foresees := by
    refine ((foresees_number.join (foresees_letter rule' ?_) (reports_token _ _ _)).map _).rule _
    simp [hwords]
  have habsolute : absolutePosition.Foresees :=
    (((haxis (by decide)).seq (haxis (by decide)) (.rule _ _)).map _).rule _
  exact habsolute.choice foresees_relativePosition

/-- What begins with a sign is no point of the grid. -/
theorem rest?_absolutePosition_of_sign {tail : List Char} (h : sign.rest? text = some tail) :
    absolutePosition.rest? text = none := by
  obtain ⟨negative, hread⟩ := exists_read?_of_rest? h
  have hhead : text.head? = some '+' ∨ text.head? = some '-' := by
    rw [read?_sign] at hread
    split at hread
    · next hplus => exact .inl hplus
    · split at hread
      · next hminus => exact .inr hminus
      · cases hread
  have hnumber : number.rest? text = none := by
    rcases hhead with hhead | hhead <;>
      · obtain ⟨behind, rfl⟩ := List.head?_eq_some_iff.mp hhead
        rw [rest?_number]
        simp
  simp only [absolutePosition, axisNumber, rest?_rule, rest?_map, rest?_seq, rest?_join, hnumber,
    Option.bind_none]

theorem exists_sign_of_relativePosition (h : relativePosition.rest? text = some rest) :
    ∃ tail, sign.rest? text = some tail := by
  rw [rest?_relativePosition] at h
  obtain ⟨middle, hfirst, -⟩ := Option.bind_eq_some_iff.mp h
  rw [rest?_forcedNumber] at hfirst
  obtain ⟨tail, hsign, -⟩ := Option.bind_eq_some_iff.mp hfirst
  exact ⟨tail, hsign⟩

theorem exists_sign_of_reach?_relativePosition (hne : text ≠ [])
    (h : relativePosition.reach? (text ++ more) = some more.length) :
    ∃ tail, sign.rest? text = some tail := by
  have hseq := reach?_of_rule h hne
  rw [reach?_map] at hseq
  rcases exists_of_reach?_seq hseq with hfirst | ⟨middle, -, hmiddle, -⟩
  · obtain ⟨tail, hsign, -⟩ := exists_sign_of_reach?_forcedNumber hne hfirst
    exact ⟨tail, hsign⟩
  · have hcut := cuts_forcedNumber hmiddle
    rw [rest?_forcedNumber] at hcut
    obtain ⟨tail, hsign, -⟩ := Option.bind_eq_some_iff.mp hcut
    exact ⟨tail, hsign⟩

theorem exists_position_completion (hne : text ≠ [])
    (h : position.reach? (text ++ more) = some more.length) :
    ∃ further, IsSolid further ∧ position.rest? (text ++ further) = some [] := by
  rcases exists_of_reach?_choice h with habsolute | ⟨-, hrelative⟩
  · obtain ⟨further, hsolid, hread⟩ := exists_absolutePosition_completion hne habsolute
    refine ⟨further, hsolid, ?_⟩
    rw [rest?_position, hread, Option.some_or]
  · obtain ⟨further, hsolid, hread⟩ := exists_relativePosition_completion hne hrelative
    obtain ⟨tail, hsign⟩ := exists_sign_of_reach?_relativePosition hne hrelative
    refine ⟨further, hsolid, ?_⟩
    rw [rest?_position, rest?_absolutePosition_of_sign (keeps_sign hsign further),
      hread, Option.none_or]

/-- Behind a position a digit is more of its last number or something of its own. -/
theorem exists_rest?_position_digit (h : position.rest? text = some rest)
    (hrest : Text.skipBlanks rest = []) :
    ∃ last, position.rest? (text ++ ['0']) = some last ∧ (last = [] ∨ last = rest ++ ['0']) := by
  rw [rest?_position] at h
  cases habsolute : absolutePosition.rest? text with
  | some last =>
      rw [habsolute, Option.some_or, Option.some.injEq] at h
      subst h
      refine ⟨last ++ ['0'], ?_, .inr rfl⟩
      rw [rest?_position, keeps_absolutePosition habsolute, Option.some_or]
  | none =>
      rw [habsolute, Option.none_or] at h
      obtain ⟨tail, hsign⟩ := exists_sign_of_relativePosition h
      have hnone := rest?_absolutePosition_of_sign (keeps_sign hsign ['0'])
      rw [rest?_relativePosition] at h
      obtain ⟨middle, hfirst, hsecond⟩ := Option.bind_eq_some_iff.mp h
      obtain ⟨hfirst', hskip⟩ := rest?_forcedNumber_append_of_second hfirst hsecond ['0']
      rw [rest?_position, hnone, Option.none_or, rest?_relativePosition, hfirst',
        Option.bind_some, hskip]
      cases rest with
      | nil => exact ⟨[], rest?_forcedNumber_digit hsecond, .inl rfl⟩
      | cons c rest =>
          refine ⟨c :: rest ++ ['0'], rest?_forcedNumber_cons hsecond ?_ ['0'], .inr rfl⟩
          rintro rfl
          rw [Text.skipBlanks_cons_of_not (by decide)] at hrest
          cases hrest

/-- What fails behind a position is a height, or a direction that has not begun. -/
theorem exists_bearings_completion (hblank : Text.skipBlanks text ≠ [])
    (h : bearings.reach? (text ++ more) = some more.length) :
    ∃ further, IsSolid further ∧ bearings.rest? (text ++ further) = some [] := by
  have hne : text ≠ [] := by
    rintro rfl
    exact hblank rfl
  rcases exists_of_reach?_seq h with haltitude | ⟨last, -, hlast, -, hdirection⟩
  · refine ⟨['0', 'a'], by decide, ?_⟩
    rw [rest?_bearings, exists_altitude_completion hne haltitude]
    rfl
  · have hlastNil := eq_nil_of_reach?_direction hdirection
    rw [rest?_optional, Option.some.injEq] at hlast
    cases haltitude : altitude.rest? (text ++ more) with
    | none =>
        rw [haltitude, Option.getD_none] at hlast
        rw [← List.append_cancel_right hlast] at hlastNil
        exact absurd hlastNil hblank
    | some left =>
        rw [haltitude, Option.getD_some] at hlast
        subst hlast
        have hcut := cuts_altitude haltitude
        refine ⟨['0'], by decide, ?_⟩
        rw [rest?_bearings, keeps_altitude hcut, Option.getD_some,
          Text.skipBlanks_append_of_eq_nil hlastNil]
        rfl

/-- **Places.**  A place that fails behind its first character can be completed. -/
theorem exists_place_completion (hne : text ≠ [])
    (h : place.reach? (text ++ more) = some more.length) :
    ∃ further, IsSolid further ∧ place.rest? (text ++ further) = some [] := by
  have hseq := reach?_of_rule h hne
  rw [reach?_map] at hseq
  simp only [rest?_place]
  rcases exists_of_reach?_seq hseq with hposition | ⟨middle, hquiet, hmiddle, -, hbearings⟩
  · obtain ⟨further, hsolid, hread⟩ := exists_position_completion hne hposition
    exact ⟨further, hsolid, by rw [hread]; rfl⟩
  · by_cases hblank : Text.skipBlanks middle = []
    · -- only blanks stand behind the position, so a direction completes the place
      obtain ⟨last, hlast, hcases⟩ := exists_rest?_position_digit (cuts_position hmiddle) hblank
      refine ⟨['0'], by decide, ?_⟩
      rw [hlast, Option.bind_some]
      rcases hcases with rfl | rfl
      · rfl
      · rw [Text.skipBlanks_append_of_eq_nil hblank]
        rfl
    · have hmiddleNe : middle ≠ [] := by
        rintro rfl
        exact hblank rfl
      obtain ⟨further, hsolid, hread⟩ :=
        exists_bearings_completion (by rwa [Text.skipBlanks_skipBlanks]) hbearings
      refine ⟨further, hsolid, ?_⟩
      rw [foresees_position.read hmiddle hmiddleNe hquiet further, Option.bind_some,
        Text.skipBlanks_append_of_ne_nil hblank, hread]

end ObjectActions.Script
