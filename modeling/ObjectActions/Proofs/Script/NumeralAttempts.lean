import ObjectActions.Proofs.Grammar.Attempts
import ObjectActions.Proofs.Script.NumberListReach

/-!
# Where a number is reported missing

A number without a sign and one that may have a sign are different parts, although both are listed
as a number.  They are reported missing in different places:

* a number that may have a sign is missing where it begins, without a sign (`listsAt_signedFloat`);
* a number without a sign is missing where it begins, and inside a number that may have a sign only
  behind the sign (`exists_sign_of_listsAt_float`): before it the sign could have stood as well, so
  the larger part is reported.

In a list of numbers both can only be missing where the list ends
(`exists_of_listsAt_numberList`).
-/

namespace ObjectActions.Script

open Grammar

variable {name : Rule} {n : Nat} {text : List Char}

/-- The names that are listed as a number. -/
def IsNumberName (name : Rule) : Prop := name = .float ∨ name = .signedFloat

theorem IsNumberName.ne {other : Rule} (h : IsNumberName name) (hfloat : other ≠ .float)
    (hsigned : other ≠ .signedFloat) : name ≠ other := by
  rintro rfl
  exact h.elim hfloat hsigned

/-! ## One number -/

theorem listsAt_float (h : ListsAt .float n (number.failures text)) :
    n = text.length ∧ number.rest? text = none := by
  rw [number] at h
  obtain ⟨hplace, hnone⟩ := h.of_rule_self (by decide)
  exact ⟨hplace, hnone⟩

theorem not_listsAt_signedFloat_number : ¬ ListsAt .signedFloat n (number.failures text) :=
  Avoids.not_listsAt (show number.Avoids .signedFloat by decide)

theorem listsAt_signedFloat (h : ListsAt .signedFloat n (signedNumber.failures text)) :
    n = text.length ∧ signedNumber.rest? text = none := by
  rw [signedNumber] at h
  obtain ⟨hplace, hnone⟩ := h.of_rule_self (by decide)
  exact ⟨hplace, hnone⟩

/-- **Behind the sign.**  Inside a number that may have a sign, a number without one is
missing only behind a sign. -/
theorem exists_sign_of_listsAt_float (h : ListsAt .float n (signedNumber.failures text)) :
    ∃ tail, sign.rest? text = some tail ∧ n = tail.length ∧ signedNumber.rest? text = none := by
  obtain ⟨hbody, htells⟩ := h.of_rule.resolve_right fun hself => by simp at hself
  change ListsAt .float n ((join (.optional sign) number).failures text) at hbody
  rcases hbody.of_join with hsign | ⟨rest, hrest, hnumber⟩
  · exact absurd (listsAt_token hsign).1 (by decide)
  · obtain ⟨hplace, hnone⟩ := listsAt_float hnumber
    rw [rest?_optional, Option.some.injEq] at hrest
    cases htail : sign.rest? text with
    | some tail =>
        rw [htail, Option.getD_some] at hrest
        subst hrest
        refine ⟨tail, rfl, hplace, ?_⟩
        rw [rest?_signedNumber, htail, Option.getD_some, hnone]
    | none =>
        -- the sign is missing in the same place, so neither name is a telling one
        rw [htail, Option.getD_none] at hrest
        subst hrest
        have hrefused : (join (.optional sign) number).rest? text = none := by
          rw [rest?_join, rest?_optional, htail, Option.getD_none, Option.bind_some, hnone]
        obtain ⟨inner, hinner, htelling⟩ := htells (by rwa [rest?_map])
        have hsign : sign.failures text = some ⟨text.length, [.sign]⟩ :=
          failures_token_of_none htail
        obtain ⟨names, hnames, hmem⟩ := hnumber
        have hjoin : (join (.optional sign) number).failures text =
            Frontier.furthest (sign.failures text) (number.failures text) := by
          rw [failures_join, rest?_optional, htail, Option.getD_none, Option.bind_some]
          rfl
        change inner ∈ (join (.optional sign) number).failures text at hinner
        rw [hjoin, hsign, hnames, hplace, Frontier.furthest_of_eq, Option.mem_some] at hinner
        subst hinner
        have hpos := List.length_pos_of_mem hmem
        simp only [Nat.lt_irrefl, false_or, List.length_append, List.length_singleton] at htelling
        omega

/-- Where a number that may have a sign is reported, under either name, none can be read. -/
theorem rest?_signedNumber_of_listsAt (hname : IsNumberName name)
    (h : ListsAt name n (signedNumber.failures text)) : signedNumber.rest? text = none := by
  rcases hname with rfl | rfl
  · obtain ⟨-, -, -, hnone⟩ := exists_sign_of_listsAt_float h
    exact hnone
  · exact (listsAt_signedFloat h).2

/-! ## Lists of numbers -/

/-- A list of numbers reports one missing where it ends, if it can be read at all. -/
theorem exists_of_listsAt_numberList (hname : IsNumberName name)
    (h : ListsAt name n (numberList.failures text)) :
    ∃ start, ListsAt name n (signedNumber.failures start) ∧
      (start = text ∧ numberList.rest? text = none ∨
        ∃ rest, numberList.rest? text = some rest ∧ Text.skipBlanks rest = start) := by
  have hprod := productive_signedNumber
  have hbody := h.of_rule_of_ne (hname.ne (by decide) (by decide))
  change ListsAt name n ((seq signedNumber (many signedNumber)).failures text) at hbody
  rcases hbody.of_seq with hfirst | ⟨rest, hrest, hmany⟩
  · refine ⟨text, hfirst, .inl ⟨rfl, ?_⟩⟩
    rw [rest?_numberList, rest?_signedNumber_of_listsAt hname hfirst, Option.map_none]
  · obtain ⟨start, -, hstart, hskip, hend⟩ := hmany.of_many hprod
    have hnone := rest?_signedNumber_of_listsAt hname hstart
    refine ⟨start, hstart, .inr ⟨_, by rw [rest?_numberList, hrest, Option.map_some], ?_⟩⟩
    rw [← hend, items_snd_of_none (by rwa [hskip]), hskip]

end ObjectActions.Script
