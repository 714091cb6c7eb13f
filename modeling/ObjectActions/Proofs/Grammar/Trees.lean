import Mathlib.Data.List.Forall2
import ObjectActions.Grammar.Tree
import ObjectActions.Proofs.Grammar.Provenance
import ObjectActions.Proofs.Grammar.Reach

/-!
# What trees stand for

A text is matched to trees exactly where a value can be read from it, and as much of it is taken
(`map_snd_trees?`).  Beyond that, the trees stand for the value in some way, and what the parts of a
grammar build is put together to what the whole builds, one statement for each way of putting
grammars together:

* `Builds grammar Stands`: whatever is read, the trees of it stand for its value;
* `BuildsOne grammar Stands`: it is a single tree, whose text is the text that was taken.
-/

namespace ObjectActions.Grammar

variable {ρ α β : Type} {text rest : List Char}

/-! ## Trees without values -/

theorem trees?_seq (first : Grammar ρ α) (second : Grammar ρ β) (text : List Char) :
    (seq first second).trees? text =
      (first.trees? text).bind fun front =>
        (second.trees? (Text.skipBlanks front.2)).map fun behind =>
          (front.1 ++ behind.1, behind.2) := by
  rw [trees?]
  cases first.trees? text with
  | none => rfl
  | some front => cases h : second.trees? (Text.skipBlanks front.2) <;> simp [h]

theorem trees?_join (first : Grammar ρ α) (second : Grammar ρ β) (text : List Char) :
    (join first second).trees? text =
      (first.trees? text).bind fun front =>
        (second.trees? front.2).map fun behind => (front.1 ++ behind.1, behind.2) := by
  rw [trees?]
  cases first.trees? text with
  | none => rfl
  | some front => cases h : second.trees? front.2 <;> simp [h]

theorem trees?_rule (name : ρ) (body : Grammar ρ α) (text : List Char) :
    (rule name body).trees? text =
      (body.trees? text).map fun result =>
        ([.node name (between text result.2) result.1], result.2) := by
  rw [trees?]
  cases body.trees? text <;> rfl

example : (rule 'r' (seq (token 'a' .letter some) (token 'b' .letter some))).trees? "x y.".toList =
    some ([.node 'r' "x y" [.node 'a' "x" [], .node 'b' "y" []]], ['.']) := by cbv

theorem trees?_many (item : Grammar ρ α) (text : List Char) :
    (many item).trees? text =
      some ((readItems item.trees? (text.length + 1) text).1.flatten,
        (readItems item.trees? (text.length + 1) text).2) := rfl

/-- A repetition takes the same whatever it makes of its items. -/
theorem readItems_snd_congr {item? : List Char → Option (α × List Char)}
    {other? : List Char → Option (β × List Char)}
    (h : ∀ text, (item? text).map Prod.snd = (other? text).map Prod.snd) (fuel : Nat)
    (text : List Char) : (readItems item? fuel text).2 = (readItems other? fuel text).2 := by
  induction fuel generalizing text with
  | zero => rfl
  | succ fuel ih =>
      have hstart := h (Text.skipBlanks text)
      rw [readItems, readItems]
      cases hitem : item? (Text.skipBlanks text) with
      | none =>
          rw [hitem] at hstart
          rw [Option.map_eq_none_iff.mp hstart.symm]
      | some result =>
          rw [hitem] at hstart
          obtain ⟨other, hother, hrest⟩ := Option.map_eq_some_iff.mp hstart.symm
          rw [hother]
          simp only
          rw [ih, hrest]

/-- **Trees take what values take.**  The trees of a text end where the value that is read from it
ends. -/
theorem map_snd_trees? (grammar : Grammar ρ α) (text : List Char) :
    (grammar.trees? text).map Prod.snd = grammar.rest? text := by
  induction grammar generalizing text with
  | token name lexeme value? =>
      rw [trees?, rest?_token]
      cases value? (String.ofList (lexeme.piece text)) <;> rfl
  | literal characters =>
      rw [trees?, rest?_literal, Option.map_map]
      exact Option.map_id_apply
  | finish name =>
      rw [trees?, rest?, read?]
      split <;> rfl
  | rule name body ih =>
      rw [trees?_rule, rest?_rule, ← ih, Option.map_map]
      rfl
  | seq first second ihfirst ihsecond =>
      rw [trees?_seq, rest?_seq, ← ihfirst]
      cases first.trees? text with
      | none => rfl
      | some front => simp [← ihsecond, Function.comp_def]
  | join first second ihfirst ihsecond =>
      rw [trees?_join, rest?_join, ← ihfirst]
      cases first.trees? text with
      | none => rfl
      | some front => simp [← ihsecond, Function.comp_def]
  | choice first second ihfirst ihsecond =>
      rw [trees?, rest?_choice, ← ihfirst, ← ihsecond]
      cases first.trees? text <;> rfl
  | optional body ih =>
      rw [trees?, rest?_optional, ← ih]
      cases body.trees? text <;> rfl
  | many item ih =>
      rw [trees?_many, rest?, read?]
      exact congrArg some (readItems_snd_congr (fun text => ih text) _ text)
  | map f body ih =>
      rw [trees?, rest?_map]
      exact ih text
  | captured body ih =>
      rw [trees?, rest?_captured]
      exact ih text

theorem trees?_eq_none_iff {grammar : Grammar ρ α} :
    grammar.trees? text = none ↔ grammar.read? text = none := by
  rw [← rest?_eq_none_iff, ← map_snd_trees?, Option.map_eq_none_iff]

/-- The trees of a choice are those of the alternative that is read. -/
theorem read?_trees?_choice {first second : Grammar ρ α} {value : α}
    (h : (choice first second).read? text = some (value, rest)) :
    first.read? text = some (value, rest) ∧
        (choice first second).trees? text = first.trees? text ∨
      second.read? text = some (value, rest) ∧
        (choice first second).trees? text = second.trees? text := by
  rw [read?] at h
  rw [trees?]
  cases hread : first.read? text with
  | none =>
      rw [hread] at h
      rw [trees?_eq_none_iff.mpr hread]
      exact .inr ⟨h, rfl⟩
  | some result =>
      rw [hread] at h
      cases htrees : first.trees? text with
      | none => rw [trees?_eq_none_iff.mp htrees] at hread; cases hread
      | some trees => exact .inl ⟨h, rfl⟩

/-! ## Texts between two places -/

theorem between_append (front rest : List Char) :
    between (front ++ rest) rest = String.ofList front := by
  simp [between]

theorem between_rest (lexeme : Lexeme) (text : List Char) :
    between text (lexeme.rest text) = String.ofList (lexeme.piece text) := by
  have h := between_append (lexeme.piece text) (lexeme.rest text)
  rwa [lexeme.piece_append_rest text] at h

/-! ## Any trees -/

/-- Whether the trees of whatever is read stand for its value. -/
def Builds (grammar : Grammar ρ α) (Stands : List (Tree ρ) → α → Prop) : Prop :=
  ∀ ⦃text value rest⦄, grammar.read? text = some (value, rest) →
    ∃ parts, grammar.trees? text = some (parts, rest) ∧ Stands parts value

/-- Whether whatever is read has a single tree, which has its text and stands for its value. -/
def BuildsOne (grammar : Grammar ρ α) (Stands : Tree ρ → α → Prop) : Prop :=
  ∀ ⦃text value rest⦄, grammar.read? text = some (value, rest) →
    ∃ part, grammar.trees? text = some ([part], rest) ∧ part.text = between text rest ∧
      Stands part value

/-- Whether there is a single tree, which stands for a value. -/
def Alone (Stands : Tree ρ → α → Prop) (parts : List (Tree ρ)) (value : α) : Prop :=
  ∃ part, parts = [part] ∧ Stands part value

/-- Whatever is read has trees. -/
theorem builds_any (grammar : Grammar ρ α) : Builds grammar fun _ _ => True := by
  intro text value rest hread
  have hrest := grammar.map_snd_trees? text
  rw [rest?_of_read? hread] at hrest
  obtain ⟨⟨parts, last⟩, htrees, rfl⟩ := Option.map_eq_some_iff.mp hrest
  exact ⟨parts, htrees, trivial⟩

theorem builds_literal (characters : String) :
    Builds (literal characters : Grammar ρ Unit) fun parts _ => parts = [] := by
  intro text value rest hread
  obtain ⟨last, hlast, heq⟩ := Option.map_eq_some_iff.mp hread
  cases heq
  exact ⟨[], by rw [trees?, hlast, Option.map_some], rfl⟩

theorem builds_finish (name : ρ) :
    Builds (finish name) fun parts _ => parts = [.node name "" []] := by
  intro text value rest hread
  rw [read?] at hread
  split at hread
  · next hnil =>
      cases hread
      exact ⟨_, by rw [trees?, if_pos hnil], rfl⟩
  · cases hread

namespace Builds

variable {Stands Weaker : List (Tree ρ) → α → Prop} {Other : List (Tree ρ) → β → Prop}

theorem mono {grammar : Grammar ρ α} (h : Builds grammar Stands)
    (himp : ∀ parts value, Stands parts value → Weaker parts value) : Builds grammar Weaker := by
  intro text value rest hread
  obtain ⟨parts, htrees, hstands⟩ := h hread
  exact ⟨parts, htrees, himp parts value hstands⟩

theorem map {body : Grammar ρ α} {f : α → β} (h : Builds body fun parts a => Other parts (f a)) :
    Builds (Grammar.map f body) Other := by
  intro text value rest hread
  rw [read?_map, Option.map_eq_some_iff] at hread
  obtain ⟨⟨a, last⟩, hbody, heq⟩ := hread
  cases heq
  exact h hbody

theorem optional {body : Grammar ρ α} (h : Builds body Stands) :
    Builds body.optional fun parts value =>
      value = none ∧ parts = [] ∨ ∃ a, value = some a ∧ Stands parts a := by
  intro text value rest hread
  rw [read?] at hread
  rw [trees?]
  cases hnone : body.read? text with
  | none =>
      rw [hnone] at hread
      cases hread
      rw [trees?_eq_none_iff.mpr hnone]
      exact ⟨[], rfl, .inl ⟨rfl, rfl⟩⟩
  | some result =>
      rw [hnone] at hread
      cases hread
      obtain ⟨parts, htrees, hstands⟩ := h hnone
      exact ⟨parts, by rw [htrees, Option.getD_some], .inr ⟨_, rfl, hstands⟩⟩

theorem seq {first : Grammar ρ α} {second : Grammar ρ β} (hfirst : Builds first Stands)
    (hsecond : Builds second Other) :
    Builds (Grammar.seq first second) fun parts value =>
      ∃ front behind, parts = front ++ behind ∧ Stands front value.1 ∧ Other behind value.2 := by
  intro text value rest hread
  rw [read?_seq, Option.bind_eq_some_iff] at hread
  obtain ⟨⟨a, middle⟩, hread₁, hread₂⟩ := hread
  obtain ⟨⟨b, last⟩, hread₃, heq⟩ := Option.map_eq_some_iff.mp hread₂
  cases heq
  obtain ⟨front, hfront, hstands⟩ := hfirst hread₁
  obtain ⟨behind, hbehind, hother⟩ := hsecond hread₃
  refine ⟨front ++ behind, ?_, front, behind, rfl, hstands, hother⟩
  rw [trees?_seq, hfront, Option.bind_some, hbehind, Option.map_some]

theorem join {first : Grammar ρ α} {second : Grammar ρ β} (hfirst : Builds first Stands)
    (hsecond : Builds second Other) :
    Builds (Grammar.join first second) fun parts value =>
      ∃ front behind, parts = front ++ behind ∧ Stands front value.1 ∧ Other behind value.2 := by
  intro text value rest hread
  rw [read?_join, Option.bind_eq_some_iff] at hread
  obtain ⟨⟨a, middle⟩, hread₁, hread₂⟩ := hread
  obtain ⟨⟨b, last⟩, hread₃, heq⟩ := Option.map_eq_some_iff.mp hread₂
  cases heq
  obtain ⟨front, hfront, hstands⟩ := hfirst hread₁
  obtain ⟨behind, hbehind, hother⟩ := hsecond hread₃
  refine ⟨front ++ behind, ?_, front, behind, rfl, hstands, hother⟩
  rw [trees?_join, hfront, Option.bind_some, hbehind, Option.map_some]

private theorem forall₂_readItems {item : Grammar ρ α} (h : Builds item Stands) (fuel : Nat)
    (text : List Char) :
    List.Forall₂ Stands (readItems item.trees? fuel text).1 (readItems item.read? fuel text).1 := by
  induction fuel generalizing text with
  | zero => exact .nil
  | succ fuel ih =>
      rw [readItems, readItems]
      cases hread : item.read? (Text.skipBlanks text) with
      | none =>
          rw [trees?_eq_none_iff.mpr hread]
          exact .nil
      | some result =>
          obtain ⟨parts, htrees, hstands⟩ := h hread
          rw [htrees]
          exact .cons hstands (ih result.2)

/-- The trees of a repetition are those of its items, one after the other. -/
theorem many {item : Grammar ρ α} (h : Builds item Stands) :
    Builds (Grammar.many item) fun parts values =>
      ∃ groups, parts = groups.flatten ∧ List.Forall₂ Stands groups values := by
  intro text values rest hread
  obtain ⟨parts, htrees, -⟩ := builds_any _ hread
  rw [read?, Option.some.injEq] at hread
  refine ⟨parts, htrees, (readItems item.trees? (text.length + 1) text).1, ?_, ?_⟩
  · rw [trees?_many, Option.some.injEq] at htrees
    exact (congrArg Prod.fst htrees).symm
  · have hitems := forall₂_readItems h (text.length + 1) text
    rwa [hread] at hitems

/-- Items that leave no trees leave none together. -/
theorem many_nil {item : Grammar ρ α} (h : Builds item fun parts _ => parts = []) :
    Builds (Grammar.many item) fun parts _ => parts = [] := by
  refine h.many.mono ?_
  rintro parts values ⟨groups, rfl, hgroups⟩
  induction hgroups with
  | nil => rfl
  | cons hnil hrest ih => rw [List.flatten_cons, hnil, ih, List.append_nil]

/-- Items with one tree each. -/
theorem many_alone {Stands : Tree ρ → α → Prop} {item : Grammar ρ α}
    (h : Builds item (Alone Stands)) :
    Builds (Grammar.many item) fun parts values => List.Forall₂ Stands parts values := by
  refine h.many.mono ?_
  rintro parts values ⟨groups, rfl, hgroups⟩
  induction hgroups with
  | nil => exact .nil
  | cons hgroup hrest ih =>
      obtain ⟨part, rfl, hstands⟩ := hgroup
      exact .cons hstands ih

end Builds

/-! ## Single trees -/

theorem buildsOne_token (name : ρ) (lexeme : Lexeme) (value? : String → Option α) :
    BuildsOne (token name lexeme value?) fun part value =>
      part.name = name ∧ value? part.text = some value := by
  intro text value rest hread
  obtain ⟨a, hvalue, heq⟩ := Option.map_eq_some_iff.mp hread
  cases heq
  refine ⟨.node name (String.ofList (lexeme.piece text)) [], ?_, (between_rest lexeme text).symm,
    rfl, hvalue⟩
  rw [trees?, hvalue]

theorem Builds.rule {body : Grammar ρ α} {Stands : List (Tree ρ) → α → Prop}
    (h : Builds body Stands) (name : ρ) :
    BuildsOne (Grammar.rule name body) fun part value =>
      part.name = name ∧ Stands part.parts value := by
  intro text value rest hread
  obtain ⟨parts, htrees, hstands⟩ := h hread
  refine ⟨.node name (between text rest) parts, ?_, rfl, rfl, hstands⟩
  rw [trees?_rule, htrees, Option.map_some]

namespace BuildsOne

variable {Stands Weaker : Tree ρ → α → Prop} {Other : Tree ρ → β → Prop}

theorem alone {grammar : Grammar ρ α} (h : BuildsOne grammar Stands) :
    Builds grammar (Alone Stands) := by
  intro text value rest hread
  obtain ⟨part, htrees, -, hstands⟩ := h hread
  exact ⟨[part], htrees, part, rfl, hstands⟩

theorem mono {grammar : Grammar ρ α} (h : BuildsOne grammar Stands)
    (himp : ∀ part value, Stands part value → Weaker part value) : BuildsOne grammar Weaker := by
  intro text value rest hread
  obtain ⟨part, htrees, htext, hstands⟩ := h hread
  exact ⟨part, htrees, htext, himp part value hstands⟩

theorem map {body : Grammar ρ α} {f : α → β} (h : BuildsOne body fun part a => Other part (f a)) :
    BuildsOne (Grammar.map f body) Other := by
  intro text value rest hread
  rw [read?_map, Option.map_eq_some_iff] at hread
  obtain ⟨⟨a, last⟩, hbody, heq⟩ := hread
  cases heq
  exact h hbody

theorem choice {first second : Grammar ρ α} (hfirst : BuildsOne first Stands)
    (hsecond : BuildsOne second Stands) : BuildsOne (Grammar.choice first second) Stands := by
  intro text value rest hread
  rcases read?_trees?_choice hread with ⟨hread, htrees⟩ | ⟨hread, htrees⟩
  · exact htrees ▸ hfirst hread
  · exact htrees ▸ hsecond hread

/-- The text that is kept with a part is the one of its tree. -/
theorem captured {body : Grammar ρ α} (h : BuildsOne body Stands) :
    BuildsOne body.captured fun part value => part.text = value.1 ∧ Stands part value.2 := by
  intro text value rest hread
  rw [read?] at hread
  split at hread
  · cases hread
  · next a last hbody =>
      cases hread
      obtain ⟨part, htrees, htext, hstands⟩ := h hbody
      exact ⟨part, htrees, htext, htext, hstands⟩

/-- The text of the tree is written as the value. -/
theorem of_shows {grammar : Grammar ρ α} {Written : List Char → α → Prop}
    (h : BuildsOne grammar Stands) (hshows : Shows (fun _ => True) grammar Written) :
    BuildsOne grammar fun part value =>
      ∃ front, part.text = String.ofList front ∧ Written front value ∧ Stands part value := by
  intro text value rest hread
  obtain ⟨part, htrees, htext, hstands⟩ := h hread
  obtain ⟨front, rfl, hwritten⟩ := hshows trivial hread
  exact ⟨part, htrees, htext, front, htext.trans (between_append front rest), hwritten, hstands⟩

end BuildsOne

end ObjectActions.Grammar
