import ObjectActions.Proofs.Script.ArgumentProvenance

/-!
# Arguments that say nothing

An argument sets one attribute or says nothing.  Only two sorts of arguments say nothing: the word
`overlap` of a noise, and a color that does not resolve, whether it stands by itself or behind
the equals sign of a parameter (`Verb.says_none_iff`).
-/

namespace ObjectActions

open Script

/-- How an argument of a verb can be written that says nothing. -/
inductive Verb.Silent : Verb → List Char → Prop where
  | overlap : Verb.Silent .noise "overlap".toList
  | color {text : List Char} (hrow : IsRow Char.isAlphanum text)
      (hcolor : Color.resolve? (String.ofList text) = none) : Verb.Silent .color text
  | parameter {verb : Verb} {p : Parameter} {mem : verb.Sets p.attribute}
      {key before after text : List Char} (hp : p = .color ∨ p = .bcolor)
      (hmem : .parameter p mem ∈ verb.usages) (hkey : Text.lower key = p.key.toList)
      (hbefore : before.all Text.isBlank) (hafter : after.all Text.isBlank)
      (hrow : IsRow Char.isAlphanum text) (hcolor : Color.resolve? (String.ofList text) = none) :
      Verb.Silent verb (key ++ (before ++ '=' :: (after ++ text)))

namespace Script

variable {verb : Verb}

/-- Whether whatever spells a usage and says nothing is silent. -/
def Usage.Speaks (usage : Usage verb) : Prop := ∀ ⦃text⦄, usage.Spells text none → verb.Silent text

/-- Parameters whose values are no colors always say something. -/
theorem isColor_of_spells_none {p : Parameter} {text : List Char} (h : p.Spells text none) :
    (p = .color ∨ p = .bcolor) ∧ SpellsColor text none := by
  cases p with
  | color => exact ⟨.inl rfl, h⟩
  | bcolor => exact ⟨.inr rfl, h⟩
  | name | mask | tag | size | update | type | fx => cases h.2
  | time | wait | brightness | radius | angle | pitch =>
      obtain ⟨x, -, hx⟩ := h
      cases hx

theorem speaks_parameter {p : Parameter} {mem : verb.Sets p.attribute}
    (hmem : Usage.parameter p mem ∈ verb.usages) : (Usage.parameter p mem).Speaks := by
  intro text hspells
  generalize hsaid : (none : Argument verb) = said at hspells
  cases hspells with
  | parameter hkey hbefore hafter hvalue =>
      rw [Option.map_eq_none_iff.mp hsaid.symm] at hvalue
      obtain ⟨hp, hrow, hcolor⟩ := isColor_of_spells_none hvalue
      exact .parameter hp hmem hkey hbefore hafter hrow hcolor.symm

theorem speaks_word {a : Attribute} {table : List (String × Option a.Value)}
    {mem : verb.Sets a} (h : ∀ entry ∈ table, entry.2 = none → verb.Silent entry.1.toList) :
    (Usage.word a table mem).Speaks := by
  intro text hspells
  generalize hsaid : (none : Argument verb) = said at hspells
  cases hspells with
  | word hmem => exact h _ hmem (Option.map_eq_none_iff.mp hsaid.symm)

theorem speaks_row {a : Attribute} {member : Char → Bool} {value? : String → Option a.Value}
    {mem : verb.Sets a}
    (h : ∀ text, IsRow member text → value? (String.ofList text) = none → verb.Silent text) :
    (Usage.row a member value? mem).Speaks := by
  intro text hspells
  generalize hsaid : (none : Argument verb) = said at hspells
  cases hspells with
  | row hrow => exact h text hrow (Option.map_eq_none_iff.mp hsaid.symm)

theorem speaks_numbers {a : Attribute} {value : List Binary64 → a.Value} {mem : verb.Sets a} :
    (Usage.numbers a value mem).Speaks := fun _ hspells => nomatch hspells

theorem speaks_quotation {a : Attribute} {value : String → a.Value} {mem : verb.Sets a} :
    (Usage.quotation a value mem).Speaks := fun _ hspells => nomatch hspells

/-- What must hold of the words and rows of a usage if it speaks. -/
def Usage.IsOutspoken : Usage verb → Prop
  | .word _ table _ => ∀ entry ∈ table, entry.2 = none → verb.Silent entry.1.toList
  | .row _ member value? _ =>
      ∀ text, IsRow member text → value? (String.ofList text) = none → verb.Silent text
  | _ => True

theorem isOutspoken_of_mem : ∀ usage ∈ verb.usages, usage.IsOutspoken := by
  cases verb with
  | noise =>
      simp only [Verb.usages, List.forall_mem_cons, Usage.IsOutspoken]
      exact ⟨⟨fun _ => .overlap, List.forall_mem_nil _⟩, fun _ _ h => (nomatch h),
        List.forall_mem_nil _⟩
  | color =>
      simp only [Verb.usages, List.forall_mem_cons, Usage.IsOutspoken]
      exact ⟨trivial, ⟨fun h => (nomatch h), List.forall_mem_nil _⟩, fun _ => .color,
        List.forall_mem_nil _⟩
  | _ => simp [Verb.usages, statusWords, Usage.IsOutspoken, -Prod.forall]

theorem speaks_usages (verb : Verb) : ∀ usage ∈ verb.usages, usage.Speaks := by
  intro usage hmem
  have houtspoken := isOutspoken_of_mem usage hmem
  cases usage with
  | parameter p mem => exact speaks_parameter hmem
  | word a table mem => exact speaks_word houtspoken
  | row a member value? mem => exact speaks_row houtspoken
  | numbers a value mem => exact speaks_numbers
  | quotation a value mem => exact speaks_quotation

end Script

/-- **Silence.**  An argument says nothing if and only if it is the word `overlap` of a noise or a
color that does not resolve. -/
theorem Verb.says_none_iff {verb : Verb} {text : List Char} :
    verb.Says text none ↔ verb.Silent text := by
  constructor
  · intro h
    generalize hsaid : (none : Argument verb) = said at h
    cases h with
    | usage hmem hspells => exact speaks_usages verb _ hmem (hsaid ▸ hspells)
    | sound | url | name | world | place => cases hsaid
  · intro h
    cases h with
    | overlap => exact .usage List.mem_cons_self (.word List.mem_cons_self)
    | color hrow hcolor =>
        have hspells : Usage.Spells (.row .color Char.isAlphanum Color.resolve?) text
            ((Color.resolve? (String.ofList text)).map
              (⟨.color, ·, by decide⟩ : Color → Setting Verb.color.attributes)) := .row hrow
        rw [hcolor] at hspells
        exact .usage (by simp [Verb.usages]) hspells
    | @parameter _ p _ _ _ _ name hp hmem hkey hbefore hafter hrow hcolor =>
        have hvalue : p.Spells name none := by
          rcases hp with rfl | rfl <;> exact ⟨hrow, hcolor.symm⟩
        exact .usage hmem (.parameter hkey hbefore hafter hvalue)

end ObjectActions
