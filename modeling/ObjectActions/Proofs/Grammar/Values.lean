import ObjectActions.Proofs.Grammar.Repetition

/-!
# What values a grammar gives

`Gives T grammar P` says that every value that the grammar reads from a text with the property
`T` has the property `P`.  A grammar reads its parts from ends of the text, so `T` has to pass on
to them; then what holds of the values of the parts holds of the value of the whole.
-/

namespace ObjectActions.Grammar

variable {ρ α β : Type} {T : List Char → Prop} {P : α → Prop} {Q : β → Prop}

/-- Whether a property of a text passes on to its ends. -/
def PassesOn (T : List Char → Prop) : Prop := ∀ ⦃text rest⦄, rest <:+ text → T text → T rest

/-- Whether all values read from texts of one sort are of one sort. -/
def Gives (T : List Char → Prop) (grammar : Grammar ρ α) (P : α → Prop) : Prop :=
  ∀ ⦃text value rest⦄, T text → grammar.read? text = some (value, rest) → P value

namespace Gives

theorem of_forall {grammar : Grammar ρ α} (h : ∀ value, P value) : Gives T grammar P :=
  fun _ value _ _ _ => h value

theorem mono {grammar : Grammar ρ α} {P' : α → Prop} (h : Gives T grammar P)
    (hP : ∀ value, P value → P' value) : Gives T grammar P' :=
  fun _ value _ htext hread => hP value (h htext hread)

theorem rule {body : Grammar ρ α} (h : Gives T body P) (name : ρ) :
    Gives T (Grammar.rule name body) P :=
  fun _ _ _ htext hread => h htext hread

theorem map {body : Grammar ρ α} {f : α → β} (h : Gives T body fun value => Q (f value)) :
    Gives T (Grammar.map f body) Q := by
  intro text value rest htext hread
  rw [read?_map, Option.map_eq_some_iff] at hread
  obtain ⟨⟨a, last⟩, hbody, heq⟩ := hread
  cases heq
  exact h htext hbody

/-- The text that a part was read from is left out of consideration. -/
theorem captured {body : Grammar ρ α} (h : Gives T body P) :
    Gives T body.captured fun value => P value.2 := by
  intro text value rest htext hread
  rw [read?] at hread
  split at hread
  · cases hread
  · next hbody =>
      cases hread
      exact h htext hbody

theorem choice {first second : Grammar ρ α} (hfirst : Gives T first P)
    (hsecond : Gives T second P) : Gives T (Grammar.choice first second) P := by
  intro text value rest htext hread
  rw [read?] at hread
  split at hread
  · exact hsecond htext hread
  · next hread' => exact hfirst htext (hread'.trans hread)

theorem optional {body : Grammar ρ α} (h : Gives T body P) :
    Gives T body.optional fun value => ∀ a ∈ value, P a := by
  intro text value rest htext hread
  rw [read?] at hread
  split at hread
  · cases hread
    simp
  · next a last hbody =>
      cases hread
      intro b hb
      cases hb
      exact h htext hbody

theorem seq {first : Grammar ρ α} {second : Grammar ρ β} (hT : PassesOn T)
    (hfirst : Gives T first P) (hsecond : Gives T second Q) :
    Gives T (Grammar.seq first second) fun value => P value.1 ∧ Q value.2 := by
  intro text value rest htext hread
  rw [read?_seq, Option.bind_eq_some_iff] at hread
  obtain ⟨⟨a, middle⟩, hread₁, hread₂⟩ := hread
  rw [Option.map_eq_some_iff] at hread₂
  obtain ⟨⟨b, last⟩, hread₂, heq⟩ := hread₂
  cases heq
  have hmiddle := hT ((skipBlanks_isSuffix middle).trans (first.read?_isSuffix hread₁)) htext
  exact ⟨hfirst htext hread₁, hsecond hmiddle hread₂⟩

theorem join {first : Grammar ρ α} {second : Grammar ρ β} (hT : PassesOn T)
    (hfirst : Gives T first P) (hsecond : Gives T second Q) :
    Gives T (Grammar.join first second) fun value => P value.1 ∧ Q value.2 := by
  intro text value rest htext hread
  rw [read?_join, Option.bind_eq_some_iff] at hread
  obtain ⟨⟨a, middle⟩, hread₁, hread₂⟩ := hread
  rw [Option.map_eq_some_iff] at hread₂
  obtain ⟨⟨b, last⟩, hread₂, heq⟩ := hread₂
  cases heq
  exact ⟨hfirst htext hread₁, hsecond (hT (first.read?_isSuffix hread₁) htext) hread₂⟩

private theorem forall_mem_readItems {item : Grammar ρ α} (hT : PassesOn T) (h : Gives T item P)
    (fuel : Nat) {text : List Char} (htext : T text) :
    ∀ value ∈ (readItems item.read? fuel text).1, P value := by
  induction fuel generalizing text with
  | zero => simp [readItems]
  | succ fuel ih =>
      have hskip := hT (skipBlanks_isSuffix text) htext
      rw [readItems]
      split
      · simp
      · next value rest hread =>
          rw [List.forall_mem_cons]
          exact ⟨h hskip hread, ih (hT (item.read?_isSuffix hread) hskip)⟩

theorem many {item : Grammar ρ α} (hT : PassesOn T) (h : Gives T item P) :
    Gives T (Grammar.many item) fun values => ∀ value ∈ values, P value := by
  intro text values rest htext hread
  rw [read?, Option.some.injEq] at hread
  have hvalues := forall_mem_readItems hT h (text.length + 1) htext
  rwa [hread] at hvalues

end Gives

end ObjectActions.Grammar
