import ObjectActions.Proofs.Grammar.Spacing
import ObjectActions.Proofs.Script.Separators

/-!
# Blanks in scripts

Outside quotes only the pieces of a script between its blanks matter: scripts with the same
pieces and without quotes both make no sense, or give the same actions
(`ofScript?_of_pieces_eq`).  The one thing that keeps its blanks is a command that is not
understood, whose text is what was written; two such texts may differ in the blanks between
their pieces.

The named clauses are solid (`solid_namedClause`), which is computed, so squeezing makes no
difference to them.  Lists of statements are brought in step from there, up to the text of
invalid clauses.
-/

namespace ObjectActions

/-! ## What may differ -/

/-- Texts with the same pieces that neither begin nor end with a blank: they differ at most in
the blanks between their pieces. -/
structure Text.AlikeInside (first second : List Char) : Prop where
  pieces_eq : pieces first = pieces second
  skipBlanks_first : skipBlanks first = first
  trimRight_first : trimRight first = first
  skipBlanks_second : skipBlanks second = second
  trimRight_second : trimRight second = second

/-- Clauses that are equal, or both invalid with texts that differ at most in their blanks. -/
inductive Clause.AlikeInside : Clause → Clause → Prop where
  | refl (clause : Clause) : AlikeInside clause clause
  | invalid {first second : String} (h : Text.AlikeInside first.toList second.toList) :
      AlikeInside (.invalid first) (.invalid second)

/-- Commands that are equal, or both invalid with texts that differ at most in their blanks. -/
inductive Command.AlikeInside : Command → Command → Prop where
  | refl (command : Command) : AlikeInside command command
  | invalid {first second : String} (h : Text.AlikeInside first.toList second.toList) :
      AlikeInside (.invalid first) (.invalid second)

/-- Actions of the same trigger with commands that are alike one by one. -/
structure Action.AlikeInside (first second : Action) : Prop where
  trigger_eq : first.trigger = second.trigger
  commands : List.Forall₂ (Option.Rel Command.AlikeInside) first.commands second.commands

namespace Script

open Grammar

/-! ## Clauses -/

theorem solid_namedClause (k : Keyword) : (namedClause k).solid := by
  rcases k with v | _
  · cases v <;> rfl
  · rfl

/-- How the text of an invalid clause is cut. -/
def invalidPhrase : Lexeme := .phrase fun c => !Text.isSeparator c

theorem read?_invalidClause (text : List Char) :
    invalidClause.read? text =
      if invalidPhrase.piece text = [] then none
      else some (.invalid (String.ofList (invalidPhrase.piece text)), invalidPhrase.rest text) := by
  rw [invalidClause, read?_map, read?, nonempty?_ofList, invalidPhrase]
  split <;> rfl

theorem not_isSeparator_of_isBlank (c : Char) (h : Text.isBlank c = true) :
    (!Text.isSeparator c) = true := by
  cases hseparator : Text.isSeparator c with
  | false => rfl
  | true => simp [isBlank_of_isSeparator hseparator] at h

/-- The phrase is a front part of the text, so it does not begin with a blank either. -/
theorem skipBlanks_piece {text : List Char} (h : ∀ c ∈ text.head?, Text.isBlank c = false)
    (lexeme : Lexeme) : Text.skipBlanks (lexeme.piece text) = lexeme.piece text := by
  apply Text.skipBlanks_eq_self
  intro c hc
  apply h
  rw [← lexeme.piece_append_rest text]
  exact List.mem_head?_append_of_mem_head? hc

theorem piece_invalidPhrase_squeeze (text : List Char) :
    invalidPhrase.piece (Text.squeeze text) = Text.squeeze (invalidPhrase.piece text) :=
  piece_phrase_squeeze not_isSeparator_of_isBlank text

/-- The text of an invalid clause differs at most in its blanks after squeezing. -/
theorem alikeInside_piece_squeeze {text : List Char}
    (h : ∀ c ∈ text.head?, Text.isBlank c = false) :
    Text.AlikeInside (invalidPhrase.piece text) (invalidPhrase.piece (Text.squeeze text)) where
  pieces_eq := by rw [piece_invalidPhrase_squeeze, Text.pieces_squeeze]
  skipBlanks_first := skipBlanks_piece h invalidPhrase
  trimRight_first := Text.trimRight_trimRight _
  skipBlanks_second := by
    rw [piece_invalidPhrase_squeeze, Text.skipBlanks_squeeze, skipBlanks_piece h]
  trimRight_second := Text.trimRight_trimRight _

/-- The text of an invalid clause is squeezed, and so is what follows it. -/
theorem spaceBlind_invalidClause : invalidClause.SpaceBlind Clause.AlikeInside where
  read?_of_some text value rest _ hhead hread := by
    rw [read?_invalidClause] at hread ⊢
    split at hread
    · cases hread
    · next hpiece =>
        cases hread
        have halike := alikeInside_piece_squeeze hhead
        have hpiece' : invalidPhrase.piece (Text.squeeze text) ≠ [] := by
          obtain ⟨front, c, heq, hc⟩ := Text.exists_of_trimRight_ne_nil hpiece
          have hsplit : invalidPhrase.piece text = front ++ [c] := heq
          have hmem : c ∈ invalidPhrase.piece text := by simp [hsplit]
          rw [piece_invalidPhrase_squeeze]
          exact List.ne_nil_of_mem (Text.mem_squeeze hc hmem)
        refine ⟨.invalid (String.ofList (invalidPhrase.piece (Text.squeeze text))), ?_, ?_⟩
        · rw [if_neg hpiece', invalidPhrase,
            rest_phrase_squeeze not_isSeparator_of_isBlank hpiece]
        · apply Clause.AlikeInside.invalid
          rwa [String.toList_ofList, String.toList_ofList]
  read?_of_none text _ hhead hread := by
    rw [read?_invalidClause] at hread ⊢
    split at hread
    · next hpiece => rw [piece_invalidPhrase_squeeze, hpiece, Text.squeeze_nil, if_pos rfl]
    · cases hread

theorem spaceBlind_clause : clause.SpaceBlind Clause.AlikeInside := by
  unfold clause
  induction Keyword.all with
  | nil => exact spaceBlind_invalidClause
  | cons k keywords ih =>
      have hnamed : (namedClause k).SpaceBlind Clause.AlikeInside :=
        (spaceBlind_of_solid (solid_namedClause k)).mono fun a b heq => heq ▸ .refl a
      exact hnamed.choice ih

/-! ## Lists -/

theorem spaceBlind_statement :
    statement.SpaceBlind fun first second => first.clause.AlikeInside second.clause :=
  spaceBlind_clause.captured.map fun _ _ h => h

/-- Items between separators, of which there may be any number with any blanks between them. -/
theorem spaceBlind_separatedList {α : Type} {R : α → α → Prop} (mark : String)
    {item : Grammar Rule α} (h : item.SpaceBlind R) (hsolid : (separators mark).solid)
    (htakes : (separators mark).takes) :
    (separatedList mark item).SpaceBlind (List.Forall₂ R) := by
  have hmarks : (Grammar.many (.literal mark) : Grammar Rule (List Unit)).solid :=
    (Bool.and_eq_true _ _ ▸ hsolid).2
  have hfurther : (separators mark *> item).SpaceBlind R :=
    ((spaceBlind_of_solid hsolid).seq h).map fun _ _ h => h.2
  have hprod : (separators mark *> item).Productive :=
    ((productive_of_takes htakes).seq item).map _
  have hseparated : (separated mark item).SpaceBlind (List.Forall₂ R) :=
    (h.seq (hfurther.many hprod)).map fun _ _ h => .cons h.1 h.2
  have hgetD : ∀ first second : Option (List α) × List Unit,
      Option.Rel (List.Forall₂ R) first.1 second.1 ∧ first.2 = second.2 →
      List.Forall₂ R (first.1.getD []) (second.1.getD []) := by
    rintro ⟨first, marks⟩ ⟨second, marks'⟩ ⟨hitems, -⟩
    cases hitems with
    | none => exact .nil
    | some hitems => exact hitems
  exact (hseparated.optional.seq (spaceBlind_of_solid hmarks)).map hgetD

theorem Statement.command?_alikeInside {first second : Statement}
    (h : first.clause.AlikeInside second.clause) :
    Option.Rel Command.AlikeInside first.command? second.command? := by
  obtain ⟨text, clause⟩ := first
  obtain ⟨text', clause'⟩ := second
  cases h with
  | invalid h => exact .some (.invalid h)
  | refl =>
      have hsame : Statement.command? ⟨text', clause⟩ = Statement.command? ⟨text, clause⟩ := rfl
      rw [hsame]
      cases Statement.command? ⟨text, clause⟩ with
      | none => exact .none
      | some command => exact .some (.refl command)

theorem spaceBlind_action :
    action.SpaceBlind fun first second => first.action.AlikeInside second.action := by
  have hstatements := spaceBlind_separatedList "," spaceBlind_statement rfl rfl
  have htrigger : trigger.SpaceBlind Eq := spaceBlind_of_solid rfl
  refine ((htrigger.seq hstatements).map ?_).rule _
  rintro ⟨first, statements⟩ ⟨second, statements'⟩ ⟨rfl, hstatements⟩
  refine ⟨rfl, ?_⟩
  rw [WrittenAction.action, WrittenAction.action, List.forall₂_map_left_iff,
    List.forall₂_map_right_iff]
  exact hstatements.imp fun _ _ => Statement.command?_alikeInside

/-- What a cleaned script says does not depend on its blanks. -/
theorem written?_squeeze {text : List Char} (hquote : '"' ∉ text) :
    Option.Rel (List.Forall₂ fun first second => first.action.AlikeInside second.action)
      (written? text) (written? (Text.squeeze text)) := by
  have hactions : actions.SpaceBlind
      (List.Forall₂ fun first second => first.action.AlikeInside second.action) :=
    ((spaceBlind_separatedList ";" spaceBlind_action rfl rfl).seq
      (spaceBlind_finish _)).map fun _ _ h => h.1
  have hquote' := quote_notMem_skipBlanks hquote
  have hhead := Text.isBlank_head_skipBlanks text
  rw [written?, written?, Text.skipBlanks_squeeze]
  cases hread : actions.read? (Text.skipBlanks text) with
  | none =>
      rw [hactions.read?_of_none hquote' hhead hread]
      exact .none
  | some result =>
      obtain ⟨value', hread', hvalue⟩ := hactions.read?_of_some hquote' hhead hread
      rw [hread']
      exact .some hvalue

end Script

/-! ## Two scripts

Both are compared with the squeezed script, so what is like the same thing has to be alike. -/

/-- Whether things are related to each other as soon as they are related to the same thing. -/
def Shared {α : Type} (R : α → α → Prop) : Prop := ∀ ⦃a b c⦄, R a c → R b c → R a b

namespace Shared

variable {α : Type} {R : α → α → Prop}

theorem option (h : Shared R) : Shared (Option.Rel R) := by
  intro a b c hac hbc
  cases hac with
  | none =>
      cases hbc with
      | none => exact .none
  | some hac =>
      cases hbc with
      | some hbc => exact .some (h hac hbc)

theorem forall₂ (h : Shared R) : Shared (List.Forall₂ R) := by
  intro as bs cs hac hbc
  induction hac generalizing bs with
  | nil =>
      cases hbc
      exact .nil
  | cons hac _ ih =>
      cases hbc with
      | cons hbc hrest => exact .cons (h hac hbc) (ih hrest)

end Shared

theorem Text.AlikeInside.symm {first second : List Char} (h : AlikeInside first second) :
    AlikeInside second first :=
  ⟨h.pieces_eq.symm, h.skipBlanks_second, h.trimRight_second, h.skipBlanks_first,
    h.trimRight_first⟩

theorem Text.shared_alikeInside : Shared Text.AlikeInside :=
  fun _ _ _ h h' =>
    ⟨h.pieces_eq.trans h'.pieces_eq.symm, h.skipBlanks_first, h.trimRight_first,
      h'.skipBlanks_first, h'.trimRight_first⟩

theorem Command.shared_alikeInside : Shared Command.AlikeInside := by
  intro first second common h h'
  cases h with
  | refl =>
      cases h' with
      | refl => exact .refl _
      | invalid h' => exact .invalid h'.symm
  | invalid h =>
      cases h' with
      | refl => exact .invalid h
      | invalid h' => exact .invalid (Text.shared_alikeInside h h')

theorem Action.shared_alikeInside : Shared Action.AlikeInside :=
  fun _ _ _ h h' =>
    ⟨h.trigger_eq.trans h'.trigger_eq.symm,
      Command.shared_alikeInside.option.forall₂ h.commands h'.commands⟩

/-- What a script says, compared with the squeezed script. -/
theorem Action.ofScript?_alikeInside_squeeze {script : String} {text : List Char}
    (hquote : '"' ∉ (Text.clean script).toList)
    (htext : text = Text.squeeze (Text.skipBlanks (Text.clean script).toList)) :
    Option.Rel (List.Forall₂ Action.AlikeInside) (ofScript? script)
      ((Script.written? text).map (·.map WrittenAction.action)) := by
  have hskip : Script.written? (Text.skipBlanks (Text.clean script).toList) =
      Script.written? (Text.clean script).toList := by
    rw [Script.written?, Script.written?, Text.skipBlanks_skipBlanks]
  have hread := Script.written?_squeeze (Grammar.quote_notMem_skipBlanks hquote)
  rw [← htext, hskip] at hread
  unfold ofScript?
  generalize Script.written? (Text.clean script).toList = written at hread ⊢
  generalize Script.written? text = written' at hread ⊢
  cases hread with
  | none => exact .none
  | some hactions =>
      apply Option.Rel.some
      rwa [List.forall₂_map_left_iff, List.forall₂_map_right_iff]

/-- **Blanks do not matter outside quotes.**  Two scripts without quotes that have the same
pieces between their blanks both make no sense, or give the same triggers and the same commands
in the same order.  Only the texts of commands that are not understood may differ, and these only
in the blanks between their pieces. -/
theorem Action.ofScript?_of_pieces_eq {first second : String}
    (hfirst : '"' ∉ (Text.clean first).toList) (hsecond : '"' ∉ (Text.clean second).toList)
    (hpieces : Text.pieces (Text.clean first).toList = Text.pieces (Text.clean second).toList) :
    Option.Rel (List.Forall₂ Action.AlikeInside) (ofScript? first) (ofScript? second) := by
  have hcommon : Text.squeeze (Text.skipBlanks (Text.clean first).toList) =
      Text.squeeze (Text.skipBlanks (Text.clean second).toList) := by
    rw [Text.squeeze_skipBlanks, Text.squeeze_skipBlanks, hpieces]
  have hleft := ofScript?_alikeInside_squeeze hfirst rfl
  have hright := ofScript?_alikeInside_squeeze hsecond hcommon
  exact shared_alikeInside.forall₂.option hleft hright

/-- A script with a command that is not understood, written twice with other blanks. -/
theorem Action.ofScript?_other_blanks :
    Option.Rel (List.Forall₂ Action.AlikeInside)
      (ofScript? "create move  5 -2\tname =a, do  it ;")
      (ofScript? "\ncreate\tmove 5\r\n-2 name =a, do it\t;\n") := by
  exact ofScript?_of_pieces_eq (by decide) (by decide) (by decide)

end ObjectActions
