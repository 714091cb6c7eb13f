import ObjectActions.Proofs.Grammar.Continuation

/-!
# Where a name is reported

A frontier has one place, and each of its names has been tried there.  Whether two names can be
reported together is therefore a question about places: `ListsAt` says that a name is reported, and
where.  Such a report can be traced back through the parts of a grammar to the part with this name,
one statement for each way of putting a grammar together.

A part reports its own name only if it fails where it begins and nothing inside it is more
telling.  A body that always is (`Tells`) keeps the name of the part from ever being reported.
-/

namespace ObjectActions.Grammar

variable {ρ α β : Type} {name other : ρ} {n m : Nat} {text rest : List Char}
  {attempts : Option (Frontier ρ)}

/-! ## Names -/

/-- Whether there is a name for every failed attempt. -/
def Named (attempts : Option (Frontier ρ)) : Prop := ∀ frontier ∈ attempts, frontier.names ≠ []

theorem named_none : Named (none : Option (Frontier ρ)) := by simp [Named]

theorem named_single (n : Nat) (name : ρ) : Named (some ⟨n, [name]⟩) := by simp [Named]

theorem Named.furthest {first second : Option (Frontier ρ)} (hfirst : Named first)
    (hsecond : Named second) : Named (Frontier.furthest first second) := by
  intro frontier hfrontier
  rcases first with - | first
  · exact hsecond frontier (by simpa using hfrontier)
  · rcases second with - | second
    · exact hfirst frontier hfrontier
    · have hnames := hfirst first rfl
      unfold Frontier.furthest at hfrontier
      simp only [Option.mem_def] at hfrontier
      split at hfrontier
      · exact hfirst frontier hfrontier
      · split at hfrontier
        · exact hsecond frontier hfrontier
        · cases hfrontier
          simp [hnames]

theorem Named.failed {inner : Option (Frontier ρ)} (h : Named inner) (name : ρ) (n : Nat) :
    Named (some (Frontier.failed name n inner)) := by
  intro frontier hfrontier
  cases hfrontier
  rcases inner with - | inner
  · simp [Frontier.failed]
  · unfold Frontier.failed
    simp only
    split
    · exact h inner rfl
    · split
      · exact h inner rfl
      · simp

theorem named_itemFailures {item? : List Char → Option (α × List Char)}
    {watch : List Char → Option (Frontier ρ)} (hwatch : ∀ text, Named (watch text))
    (fuel : Nat) (text : List Char) : Named (itemFailures item? watch fuel text) := by
  induction fuel generalizing text with
  | zero => exact named_none
  | succ fuel ih =>
      unfold itemFailures
      simp only
      split
      · exact hwatch _
      · exact (hwatch _).furthest (ih _)

/-- Whatever fails has a name. -/
theorem named_failures (grammar : Grammar ρ α) (text : List Char) :
    Named (grammar.failures text) := by
  induction grammar generalizing text with
  | token name lexeme value? =>
      rw [failures]
      split
      · exact named_single _ _
      · exact named_none
  | literal characters => exact named_none
  | finish name =>
      rw [failures]
      split
      · exact named_none
      · exact named_single _ _
  | rule name body ih =>
      rw [failures]
      split
      · exact (ih text).failed name _
      · exact ih text
  | seq first second ihfirst ihsecond =>
      rw [failures_seq]
      refine (ihfirst text).furthest ?_
      cases first.rest? text with
      | none => exact named_none
      | some rest => exact ihsecond _
  | join first second ihfirst ihsecond =>
      rw [failures_join]
      refine (ihfirst text).furthest ?_
      cases first.rest? text with
      | none => exact named_none
      | some rest => exact ihsecond _
  | choice first second ihfirst ihsecond =>
      rw [failures_choice]
      refine (ihfirst text).furthest ?_
      split
      · exact named_none
      · exact ihsecond text
  | optional body ih => exact ih text
  | many item ih => exact named_itemFailures ih _ text
  | map f body ih => exact ih text
  | captured body ih => exact ih text

/-! ## Places -/

/-- Whether a name is reported with some number of characters left. -/
def ListsAt (name : ρ) (n : Nat) (attempts : Option (Frontier ρ)) : Prop :=
  ∃ names, attempts = some ⟨n, names⟩ ∧ name ∈ names

theorem exists_listsAt : Lists name attempts ↔ ∃ n, ListsAt name n attempts := by
  constructor
  · rintro ⟨⟨n, names⟩, hmem, hname⟩
    exact ⟨n, names, hmem, hname⟩
  · rintro ⟨n, names, rfl, hname⟩
    exact ⟨⟨n, names⟩, rfl, hname⟩

theorem ListsAt.lists (h : ListsAt name n attempts) : Lists name attempts :=
  exists_listsAt.mpr ⟨n, h⟩

theorem not_listsAt_none : ¬ ListsAt name n (none : Option (Frontier ρ)) := by
  rintro ⟨names, heq, -⟩
  cases heq

theorem listsAt_single : ListsAt name n (some ⟨m, [other]⟩) ↔ name = other ∧ n = m := by
  constructor
  · rintro ⟨names, heq, hname⟩
    cases heq
    exact ⟨List.mem_singleton.mp hname, rfl⟩
  · rintro ⟨rfl, rfl⟩
    exact ⟨_, rfl, List.mem_singleton.mpr rfl⟩

theorem ListsAt.furthest {first second : Option (Frontier ρ)}
    (h : ListsAt name n (Frontier.furthest first second)) :
    ListsAt name n first ∨ ListsAt name n second := by
  obtain ⟨names, heq, hname⟩ := h
  rcases first with - | ⟨place, first⟩
  · exact .inr ⟨names, by simpa using heq, hname⟩
  · rcases second with - | ⟨place', second⟩
    · exact .inl ⟨names, heq, hname⟩
    · rcases Nat.lt_trichotomy place place' with hlt | rfl | hgt
      · rw [Frontier.furthest, if_pos hlt] at heq
        exact .inl ⟨names, heq, hname⟩
      · rw [Frontier.furthest, if_neg (Nat.lt_irrefl _), if_neg (Nat.lt_irrefl _)] at heq
        cases heq
        rcases List.mem_append.mp hname with hname | hname
        · exact .inl ⟨first, rfl, hname⟩
        · exact .inr ⟨second, rfl, hname⟩
      · rw [Frontier.furthest, if_neg (Nat.not_lt_of_gt hgt), if_pos hgt] at heq
        exact .inr ⟨names, heq, hname⟩

theorem Avoids.not_listsAt {grammar : Grammar ρ α} (h : grammar.Avoids name) :
    ¬ ListsAt name n (grammar.failures text) :=
  fun hlists => h.not_lists text hlists.lists

theorem ListsAt.reach?_eq {grammar : Grammar ρ α} (h : ListsAt name n (grammar.failures text)) :
    grammar.reach? text = some n := by
  obtain ⟨names, heq, -⟩ := h
  rw [reach?, heq, Option.map_some]

theorem ListsAt.le_length {grammar : Grammar ρ α} (h : ListsAt name n (grammar.failures text)) :
    n ≤ text.length :=
  grammar.reach?_le_length h.reach?_eq

/-! ## Tracing a report back -/

theorem listsAt_token {lexeme : Lexeme} {value? : String → Option α}
    (h : ListsAt name n ((token other lexeme value?).failures text)) :
    name = other ∧ n = text.length ∧ (token other lexeme value?).rest? text = none := by
  rw [failures] at h
  cases hvalue : value? (String.ofList (lexeme.piece text)) with
  | none =>
      rw [hvalue] at h
      obtain ⟨hname, hplace⟩ := listsAt_single.mp h
      exact ⟨hname, hplace, by simp [hvalue]⟩
  | some value =>
      rw [hvalue] at h
      exact absurd h not_listsAt_none

theorem ListsAt.of_seq {first : Grammar ρ α} {second : Grammar ρ β}
    (h : ListsAt name n ((seq first second).failures text)) :
    ListsAt name n (first.failures text) ∨
      ∃ rest, first.rest? text = some rest ∧
        ListsAt name n (second.failures (Text.skipBlanks rest)) := by
  rw [failures_seq] at h
  refine h.furthest.imp_right fun h => ?_
  cases hrest : first.rest? text with
  | none => exact absurd (hrest ▸ h) not_listsAt_none
  | some rest =>
      rw [hrest] at h
      exact ⟨rest, rfl, h⟩

theorem ListsAt.of_join {first : Grammar ρ α} {second : Grammar ρ β}
    (h : ListsAt name n ((join first second).failures text)) :
    ListsAt name n (first.failures text) ∨
      ∃ rest, first.rest? text = some rest ∧ ListsAt name n (second.failures rest) := by
  rw [failures_join] at h
  refine h.furthest.imp_right fun h => ?_
  cases hrest : first.rest? text with
  | none => exact absurd (hrest ▸ h) not_listsAt_none
  | some rest =>
      rw [hrest] at h
      exact ⟨rest, rfl, h⟩

theorem ListsAt.of_choice {first second : Grammar ρ α}
    (h : ListsAt name n ((choice first second).failures text)) :
    ListsAt name n (first.failures text) ∨
      first.rest? text = none ∧ ListsAt name n (second.failures text) := by
  rw [failures_choice] at h
  refine h.furthest.imp_right fun h => ?_
  split at h
  · exact absurd h not_listsAt_none
  · next hnone => exact ⟨by simpa using hnone, h⟩

/-- A report of some items comes from one of them, and the items that follow it are those that
follow it in the text. -/
theorem ListsAt.of_many {item : Grammar ρ α} (hprod : item.Productive)
    (h : ListsAt name n ((many item).failures text)) :
    ∃ start, start <:+ text ∧ ListsAt name n (item.failures start) ∧
      Text.skipBlanks start = start ∧
      Text.skipBlanks (items item start).2 = Text.skipBlanks (items item text).2 := by
  have hself := Text.skipBlanks_skipBlanks text
  have hitems := (items_skipBlanks hprod text).2
  induction text using hprod.items_induction with
  | stop text hread =>
      rw [failures_many_of_none hread] at h
      exact ⟨_, skipBlanks_isSuffix text, h, hself, hitems⟩
  | step text value rest hread ih =>
      rw [failures_many_of_some hprod hread] at h
      rcases h.furthest with hfirst | hlater
      · exact ⟨_, skipBlanks_isSuffix text, hfirst, hself, hitems⟩
      · obtain ⟨start, hsuffix, hstart, hskip, hend⟩ :=
          ih hlater (Text.skipBlanks_skipBlanks rest) (items_skipBlanks hprod rest).2
        refine ⟨start, ?_, hstart, hskip, ?_⟩
        · exact (hsuffix.trans (item.read?_isSuffix hread)).trans (skipBlanks_isSuffix text)
        · rw [hend, items_of_some hprod hread]

/-- Whether a part that fails is reported further on, or under a single name. -/
def TellsAt (text : List Char) (attempts : Option (Frontier ρ)) : Prop :=
  ∃ inner ∈ attempts, inner.remaining < text.length ∨ inner.names.length = 1

/-- A part reports what is tried inside it if it is read or this is telling, and otherwise its own
name where it begins. -/
theorem ListsAt.of_rule {body : Grammar ρ α}
    (h : ListsAt name n ((rule other body).failures text)) :
    (ListsAt name n (body.failures text) ∧
        (body.rest? text = none → TellsAt text (body.failures text))) ∨
      name = other ∧ n = text.length ∧ body.rest? text = none ∧
        ¬ TellsAt text (body.failures text) := by
  rw [failures] at h
  cases hread : body.read? text with
  | some result =>
      rw [hread] at h
      refine .inl ⟨h, fun hnone => ?_⟩
      rw [rest?_eq_none_iff, hread] at hnone
      cases hnone
  | none =>
      rw [hread] at h
      simp only at h
      cases hinner : body.failures text with
      | none =>
          rw [hinner] at h
          obtain ⟨hname, hplace⟩ := listsAt_single.mp h
          exact .inr ⟨hname, hplace, rest?_eq_none_iff.mpr hread, by simp [TellsAt]⟩
      | some inner =>
          rw [hinner, Frontier.failed] at h
          split at h
          · next hlt => exact .inl ⟨h, fun _ => ⟨inner, rfl, .inl hlt⟩⟩
          · next hlt =>
              split at h
              · next hlength => exact .inl ⟨h, fun _ => ⟨inner, rfl, .inr hlength⟩⟩
              · next hlength =>
                  obtain ⟨hname, hplace⟩ := listsAt_single.mp h
                  refine .inr ⟨hname, hplace, rest?_eq_none_iff.mpr hread, ?_⟩
                  simp [TellsAt, hlength, Nat.le_of_not_lt hlt]

theorem ListsAt.of_rule_of_ne {body : Grammar ρ α}
    (h : ListsAt name n ((rule other body).failures text)) (hne : name ≠ other) :
    ListsAt name n (body.failures text) :=
  (h.of_rule.resolve_right fun hself => hne hself.1).1

/-- A part whose name does not occur inside it is reported where it begins and fails. -/
theorem ListsAt.of_rule_self {body : Grammar ρ α} (havoids : body.Avoids name)
    (h : ListsAt name n ((rule name body).failures text)) :
    n = text.length ∧ body.rest? text = none := by
  obtain ⟨-, hplace, hrest, -⟩ :=
    h.of_rule.resolve_left fun hinside => havoids.not_listsAt hinside.1
  exact ⟨hplace, hrest⟩

/-! ## Names that exclude each other -/

/-- Whether two names are never reported together; a name that excludes itself is never reported. -/
def Apart (name other : ρ) (grammar : Grammar ρ α) : Prop :=
  ∀ ⦃text n⦄, ListsAt name n (grammar.failures text) → ¬ ListsAt other n (grammar.failures text)

theorem Avoids.apart {grammar : Grammar ρ α} (h : grammar.Avoids other) (name : ρ) :
    Apart name other grammar :=
  fun _ _ _ => h.not_listsAt

namespace Apart

theorem rule {body : Grammar ρ α} (h : Apart name other body) {own : ρ} (hname : name ≠ own)
    (hother : other ≠ own) : Apart name other (.rule own body) :=
  fun _ _ hfirst hsecond => h (hfirst.of_rule_of_ne hname) (hsecond.of_rule_of_ne hother)

theorem map {body : Grammar ρ α} (h : Apart name other body) (f : α → β) :
    Apart name other (.map f body) := h

theorem captured {body : Grammar ρ α} (h : Apart name other body) :
    Apart name other body.captured := h

/-- Behind a part that has neither name only the second part matters. -/
theorem behind {first : Grammar ρ α} {second : Grammar ρ β} (h : Apart name other second)
    (hname : first.Avoids name) (hother : first.Avoids other) :
    Apart name other (.seq first second) := by
  intro text n hfirst hsecond
  obtain ⟨rest, hrest, hfirst⟩ := hfirst.of_seq.resolve_left hname.not_listsAt
  obtain ⟨rest', hrest', hsecond⟩ := hsecond.of_seq.resolve_left hother.not_listsAt
  obtain rfl : rest = rest' := Option.some.inj (hrest.symm.trans hrest')
  exact h hfirst hsecond

/-- Before a part that has neither name only the first part matters. -/
theorem before {first : Grammar ρ α} {second : Grammar ρ β} (h : Apart name other first)
    (hname : second.Avoids name) (hother : second.Avoids other) :
    Apart name other (.seq first second) := by
  intro text n hfirst hsecond
  have hfirst' := hfirst.of_seq.resolve_right fun ⟨_, _, hlists⟩ => hname.not_listsAt hlists
  have hsecond' := hsecond.of_seq.resolve_right fun ⟨_, _, hlists⟩ => hother.not_listsAt hlists
  exact h hfirst' hsecond'

end Apart

/-! ## Telling bodies -/

/-- Whether a failure is always reported further on, or under one name. -/
def Tells (grammar : Grammar ρ α) : Prop :=
  ∀ ⦃text⦄, grammar.rest? text = none → TellsAt text (grammar.failures text)

theorem Tells.map {body : Grammar ρ α} (h : body.Tells) (f : α → β) : (map f body).Tells := by
  intro text hnone
  rw [rest?_map] at hnone
  exact h hnone

theorem tells_rule (name : ρ) (body : Grammar ρ α) : (rule name body).Tells := by
  intro text hnone
  have hread := rest?_eq_none_iff.mp hnone
  rw [read?] at hread
  rw [failures, hread]
  refine ⟨_, rfl, ?_⟩
  unfold Frontier.failed
  split
  · exact .inr rfl
  · split
    · next hlt => exact .inl hlt
    · split
      · next hlength => exact .inr hlength
      · exact .inr rfl

/-- An attempt further on is not hidden by earlier ones. -/
theorem exists_furthest_lt {second : Frontier ρ} (first : Option (Frontier ρ))
    (h : second.remaining < n) :
    ∃ both, Frontier.furthest first (some second) = some both ∧ both.remaining < n := by
  rcases first with - | first
  · exact ⟨second, Frontier.furthest_none_left _, h⟩
  · unfold Frontier.furthest
    simp only
    split
    · next hlt => exact ⟨first, rfl, Nat.lt_trans hlt h⟩
    · split
      · exact ⟨second, rfl, h⟩
      · next hle hge =>
          refine ⟨_, rfl, ?_⟩
          simp only
          omega

/-- What fails behind its first part is reported further on. -/
theorem Tells.seq {first : Grammar ρ α} (h : first.Tells) (hprod : first.Productive)
    {second : Grammar ρ β} (hsecond : second.Reports) : (seq first second).Tells := by
  intro text hnone
  rw [failures_seq]
  cases hrest : first.rest? text with
  | none =>
      rw [Option.bind_none, Frontier.furthest_none_right]
      exact h hrest
  | some rest =>
      rw [rest?_seq, hrest, Option.bind_some] at hnone
      obtain ⟨n, hn⟩ := Option.ne_none_iff_exists'.mp (hsecond hnone)
      obtain ⟨inner, hinner, rfl⟩ := Option.map_eq_some_iff.mp hn
      have hle := second.reach?_le_length hn
      have hskip := Text.length_skipBlanks_le rest
      have hlt := hprod.length_lt hrest
      rw [Option.bind_some, hinner]
      obtain ⟨both, hboth, hplace⟩ := exists_furthest_lt (first.failures text)
        (show inner.remaining < text.length by omega)
      exact ⟨both, hboth, .inl hplace⟩

/-- A part with a telling body is never reported under its own name. -/
theorem Tells.not_listsAt_rule {body : Grammar ρ α} (h : body.Tells) (havoids : body.Avoids name) :
    ¬ ListsAt name n ((rule name body).failures text) := by
  intro hlists
  obtain ⟨-, -, hrest, htells⟩ :=
    hlists.of_rule.resolve_left fun hinside => havoids.not_listsAt hinside.1
  exact htells (h hrest)

/-! ## Tokens -/

/-- The names of the tokens of a grammar. -/
def tokens : {α : Type} → Grammar ρ α → List ρ
  | _, .token name _ _ => [name]
  | _, .literal _ => []
  | _, .finish _ => []
  | _, .rule _ body => body.tokens
  | _, .seq first second => first.tokens ++ second.tokens
  | _, .join first second => first.tokens ++ second.tokens
  | _, .choice first second => first.tokens ++ second.tokens
  | _, .optional body => body.tokens
  | _, .many item => item.tokens
  | _, .map _ body => body.tokens
  | _, .captured body => body.tokens

end ObjectActions.Grammar
