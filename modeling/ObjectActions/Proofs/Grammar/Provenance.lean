import ObjectActions.Proofs.Grammar.Values
import ObjectActions.Proofs.Text.Cutting

/-!
# Where values come from

A grammar reads a value from the front of a text, and the text that it took away is the evidence
for the value.  `Shows T grammar Written` says that this evidence is as it should be: whatever the
grammar reads from a text with the property `T`, it has taken away a front of the text that is
`Written` as the value.  What the parts of a grammar show is put together to what the whole
shows, one statement for each way of putting grammars together.

The converse, that what is written is read, depends on what follows in the text; nothing of
that sort enters here.  So `Written` may say much less than the grammar does: it need not
know which alternative is tried first, nor where one item of a repetition has to end.

Items of a repetition stand one after the other with any blanks around them (`Spaced`).
-/

namespace ObjectActions.Grammar

variable {ρ α β : Type}

/-- Whether whatever is read from texts of one sort is written at their front. -/
def Shows (T : List Char → Prop) (grammar : Grammar ρ α) (Written : List Char → α → Prop) :
    Prop :=
  ∀ ⦃text value rest⦄, T text → grammar.read? text = some (value, rest) →
    ∃ front, text = front ++ rest ∧ Written front value

/-! ## Blanks behind a part -/

/-- A text that is written as it should be, with any blanks behind it. -/
def Padded (Written : List Char → α → Prop) (text : List Char) (value : α) : Prop :=
  ∃ core blanks, text = core ++ blanks ∧ blanks.all Text.isBlank ∧ Written core value

namespace Padded

variable {Written Other : List Char → α → Prop} {text : List Char} {value : α}

theorem of_written (h : Written text value) : Padded Written text value :=
  ⟨text, [], (List.append_nil text).symm, rfl, h⟩

theorem mono (h : Padded Written text value)
    (himp : ∀ text value, Written text value → Other text value) : Padded Other text value := by
  obtain ⟨core, blanks, rfl, hblanks, hcore⟩ := h
  exact ⟨core, blanks, rfl, hblanks, himp core value hcore⟩

end Padded

/-! ## Items with blanks around them -/

/-- Items one after the other, with any blanks before, between and behind them. -/
inductive Spaced (Written : List Char → α → Prop) : List Char → List α → Prop where
  | blank {blanks : List Char} (hblanks : blanks.all Text.isBlank) : Spaced Written blanks []
  | item {blanks text rest : List Char} {value : α} {values : List α}
      (hblanks : blanks.all Text.isBlank) (htext : Written text value)
      (hrest : Spaced Written rest values) :
      Spaced Written (blanks ++ (text ++ rest)) (value :: values)

namespace Spaced

variable {Written : List Char → α → Prop} {text : List Char} {values : List α}

/-- More blanks may stand before the first item. -/
theorem blanks_append {blanks : List Char} (hblanks : blanks.all Text.isBlank)
    (h : Spaced Written text values) : Spaced Written (blanks ++ text) values := by
  cases h with
  | blank hmore => exact .blank (by rw [List.all_append, hblanks, hmore, Bool.and_true])
  | item hmore htext hrest =>
      rw [← List.append_assoc]
      exact .item (by rw [List.all_append, hblanks, hmore, Bool.and_true]) htext hrest

/-- Blanks that an item ends with may be counted as blanks behind it. -/
theorem of_padded (h : Spaced (Padded Written) text values) : Spaced Written text values := by
  induction h with
  | blank hblanks => exact .blank hblanks
  | item hblanks htext hrest ih =>
      obtain ⟨core, behind, rfl, hbehind, hcore⟩ := htext
      rw [List.append_assoc]
      exact .item hblanks hcore (ih.blanks_append hbehind)

theorem mono {Other : List Char → α → Prop} (h : Spaced Written text values)
    (himp : ∀ text value, Written text value → Other text value) : Spaced Other text values := by
  induction h with
  | blank hblanks => exact .blank hblanks
  | item hblanks htext hrest ih => exact .item hblanks (himp _ _ htext) ih

theorem append {text' : List Char} {values' : List α} (h : Spaced Written text values)
    (h' : Spaced Written text' values') : Spaced Written (text ++ text') (values ++ values') := by
  induction h with
  | blank hblanks => exact h'.blanks_append hblanks
  | item hblanks htext hrest ih =>
      rw [List.append_assoc, List.append_assoc, List.cons_append]
      exact .item hblanks htext ih

/-- Every item is written somewhere in the text. -/
theorem exists_of_mem (h : Spaced Written text values) {value : α} (hmem : value ∈ values) :
    ∃ part, part <:+: text ∧ Written part value := by
  induction h with
  | blank hblanks => cases hmem
  | @item blanks part rest first values hblanks htext hrest ih =>
      rcases List.mem_cons.mp hmem with rfl | hmem
      · exact ⟨part, ⟨blanks, rest, List.append_assoc _ _ _⟩, htext⟩
      · obtain ⟨part', hpart, hwritten⟩ := ih hmem
        have hsuffix : rest <:+ blanks ++ (part ++ rest) :=
          (List.suffix_append part rest).trans (List.suffix_append blanks _)
        exact ⟨part', hpart.trans hsuffix.isInfix, hwritten⟩

end Spaced

/-! ## What grammars show -/

namespace Shows

variable {T : List Char → Prop} {Written : List Char → α → Prop} {Other : List Char → β → Prop}

theorem mono {grammar : Grammar ρ α} {Weaker : List Char → α → Prop}
    (h : Shows T grammar Written) (himp : ∀ text value, Written text value → Weaker text value) :
    Shows T grammar Weaker := by
  intro text value rest htext hread
  obtain ⟨front, hfront, hwritten⟩ := h htext hread
  exact ⟨front, hfront, himp front value hwritten⟩

theorem rule {body : Grammar ρ α} (h : Shows T body Written) (name : ρ) :
    Shows T (Grammar.rule name body) Written :=
  fun _ _ _ htext hread => h htext hread

theorem map {body : Grammar ρ α} {f : α → β} (h : Shows T body fun text a => Other text (f a)) :
    Shows T (Grammar.map f body) Other := by
  intro text value rest htext hread
  rw [read?_map, Option.map_eq_some_iff] at hread
  obtain ⟨⟨a, last⟩, hbody, heq⟩ := hread
  cases heq
  exact h htext hbody

theorem choice {first second : Grammar ρ α} (hfirst : Shows T first Written)
    (hsecond : Shows T second Written) : Shows T (Grammar.choice first second) Written := by
  intro text value rest htext hread
  rw [read?] at hread
  split at hread
  · exact hsecond htext hread
  · next hread' => exact hfirst htext (hread'.trans hread)

theorem optional {body : Grammar ρ α} (h : Shows T body Written) :
    Shows T body.optional fun text value =>
      value = none ∧ text = [] ∨ ∃ a, value = some a ∧ Written text a := by
  intro text value rest htext hread
  rw [read?] at hread
  split at hread
  · cases hread
    exact ⟨[], rfl, .inl ⟨rfl, rfl⟩⟩
  · next a last hbody =>
      cases hread
      obtain ⟨front, hfront, hwritten⟩ := h htext hbody
      exact ⟨front, hfront, .inr ⟨a, rfl, hwritten⟩⟩

/-- Blanks may stand between the parts of a sequence. -/
theorem seq {first : Grammar ρ α} {second : Grammar ρ β} (hT : PassesOn T)
    (hfirst : Shows T first Written) (hsecond : Shows T second Other) :
    Shows T (Grammar.seq first second) fun text value =>
      ∃ front blanks behind, text = front ++ (blanks ++ behind) ∧ blanks.all Text.isBlank ∧
        Written front value.1 ∧ Other behind value.2 := by
  intro text value rest htext hread
  rw [read?_seq, Option.bind_eq_some_iff] at hread
  obtain ⟨⟨a, middle⟩, hread₁, hread₂⟩ := hread
  rw [Option.map_eq_some_iff] at hread₂
  obtain ⟨⟨b, last⟩, hread₂, heq⟩ := hread₂
  cases heq
  have hmiddle := hT ((skipBlanks_isSuffix middle).trans (first.read?_isSuffix hread₁)) htext
  obtain ⟨front, rfl, hfront⟩ := hfirst htext hread₁
  obtain ⟨behind, hbehind, hother⟩ := hsecond hmiddle hread₂
  obtain ⟨blanks, hblanks, hsplit⟩ := Text.exists_blanks_append middle
  refine ⟨front ++ (blanks ++ behind), ?_, front, blanks, behind, rfl,
    Text.skipBlanks_eq_nil_iff.mp hblanks, hfront, hother⟩
  rw [hsplit, hbehind]
  simp

theorem join {first : Grammar ρ α} {second : Grammar ρ β} (hT : PassesOn T)
    (hfirst : Shows T first Written) (hsecond : Shows T second Other) :
    Shows T (Grammar.join first second) fun text value =>
      ∃ front behind, text = front ++ behind ∧ Written front value.1 ∧ Other behind value.2 := by
  intro text value rest htext hread
  rw [read?_join, Option.bind_eq_some_iff] at hread
  obtain ⟨⟨a, middle⟩, hread₁, hread₂⟩ := hread
  rw [Option.map_eq_some_iff] at hread₂
  obtain ⟨⟨b, last⟩, hread₂, heq⟩ := hread₂
  cases heq
  have hmiddle := hT (first.read?_isSuffix hread₁) htext
  obtain ⟨front, rfl, hfront⟩ := hfirst htext hread₁
  obtain ⟨behind, rfl, hother⟩ := hsecond hmiddle hread₂
  exact ⟨front ++ behind, (List.append_assoc _ _ _).symm, front, behind, rfl, hfront, hother⟩

private theorem exists_spaced_readItems {item : Grammar ρ α} (hT : PassesOn T)
    (h : Shows T item Written) (fuel : Nat) {text : List Char} (htext : T text) :
    ∃ front, text = front ++ (readItems item.read? fuel text).2 ∧
      Spaced Written front (readItems item.read? fuel text).1 := by
  induction fuel generalizing text with
  | zero => exact ⟨[], rfl, .blank rfl⟩
  | succ fuel ih =>
      have hskip := hT (skipBlanks_isSuffix text) htext
      rw [readItems]
      split
      · exact ⟨[], rfl, .blank rfl⟩
      · next value rest hread =>
          obtain ⟨part, hpart, hwritten⟩ := h hskip hread
          obtain ⟨front, hfront, hspaced⟩ := ih (hT (item.read?_isSuffix hread) hskip)
          obtain ⟨blanks, hblanks, hsplit⟩ := Text.exists_blanks_append text
          refine ⟨blanks ++ (part ++ front), ?_,
            .item (Text.skipBlanks_eq_nil_iff.mp hblanks) hwritten hspaced⟩
          calc text = blanks ++ (part ++ rest) := by rw [← hpart, ← hsplit]
            _ = blanks ++ (part ++ (front ++ (readItems item.read? fuel rest).2)) := by
              rw [← hfront]
            _ = blanks ++ (part ++ front) ++ (readItems item.read? fuel rest).2 := by simp

theorem many {item : Grammar ρ α} (hT : PassesOn T) (h : Shows T item Written) :
    Shows T (Grammar.many item) (Spaced Written) := by
  intro text values rest htext hread
  rw [read?, Option.some.injEq] at hread
  have hspaced := exists_spaced_readItems hT h (text.length + 1) htext
  rwa [hread] at hspaced

/-- The text that is kept with a part is the one it was read from. -/
theorem captured {body : Grammar ρ α} (h : Shows T body Written) :
    Shows T body.captured fun text value =>
      value.1 = String.ofList text ∧ Written text value.2 := by
  intro text value rest htext hread
  rw [read?] at hread
  split at hread
  · cases hread
  · next a last hbody =>
      cases hread
      obtain ⟨front, rfl, hwritten⟩ := h htext hbody
      refine ⟨front, rfl, ?_, hwritten⟩
      simp

/-- A run holds characters of its class only. -/
theorem run (name : ρ) (member : Char → Bool) (value? : String → Option α) :
    Shows T (Grammar.token name (.run member) value?) fun text value =>
      (∀ c ∈ text, member c = true) ∧ value? (String.ofList text) = some value := by
  intro text value rest htext hread
  obtain ⟨a, hvalue, heq⟩ := Option.map_eq_some_iff.mp hread
  cases heq
  exact ⟨text.takeWhile member, ((Lexeme.run member).piece_append_rest text).symm,
    fun _ hc => List.mem_takeWhile_imp hc, hvalue⟩

end Shows

end ObjectActions.Grammar
