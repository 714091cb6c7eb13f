import ObjectActions.Proofs.Script.ArgumentProvenance
import ObjectActions.Proofs.Script.Composition
import ObjectActions.Proofs.Script.Unrecognized

/-!
# Where statements come from

Every statement of a script stands somewhere in the script as it is written: as a verb with its
arguments, as a journey to a place, or as something that is not understood (`Clause.Written`).
The statement keeps exactly this piece of the script as its text.

The commands of a script come from its statements, so they come from such pieces too
(`Action.exists_statement_of_mem_commands`).  Nothing is said about the order of statements or about
what stands between them; `Script.listing` does that.
-/

namespace ObjectActions

open Script Grammar in
/-- How a clause is written. -/
inductive Clause.Written : List Char → Clause → Prop where
  | act {verb : Verb} {text : List Char} {arguments : List (Argument verb)}
      (h : verb.Phrase text arguments) : Written text (.act verb (arguments.filterMap id))
  | warp {word blanks behind : List Char} {destination : Place}
      (hword : Text.lower word = Keyword.warp.word.toList)
      (hstop : ∀ c ∈ (blanks ++ behind).head?, Text.isNameChar c = false)
      (hblanks : blanks.all Text.isBlank) (hplace : Padded IsPlace behind destination) :
      Written (word ++ (blanks ++ behind)) (.warp destination)
  | invalid {text : List Char} (h : IsUnrecognized text) :
      Written text (.invalid (String.ofList text))

/-- How a statement is written. -/
structure Statement.Written (text : List Char) (statement : Statement) : Prop where
  text_eq : statement.text = String.ofList text
  clause : statement.clause.Written text

namespace Script

open Grammar

variable {text rest : List Char}

/-! ## Statements -/

/-- Whether a text holds nothing that cleaning takes out and does not begin with a blank. -/
def IsFront (text : List Char) : Prop :=
  Text.IsClean text ∧ ∀ c ∈ text.head?, Text.isBlank c = false

theorem shows_namedClause (k : Keyword) : Shows Text.IsClean (namedClause k) Clause.Written := by
  cases k with
  | verb verb =>
      exact (((shows_verbArguments verb).mono fun _ _ hphrase => .act hphrase).map).rule _
  | warp =>
      have hT := Text.passesOn_isClean
      refine (((shows_keyword hT .warp (shows_place hT)).mono ?_).map).rule _
      rintro text p ⟨word, rest, rfl, hword, hstop, blanks, behind, rfl, hblanks, hplace⟩
      exact .warp hword hstop hblanks hplace

/-- A clause is read as one of a keyword, or it is not understood. -/
theorem clause_cases {said : Clause} (h : clause.read? text = some (said, rest)) :
    (∃ k, (namedClause k).read? text = some (said, rest)) ∨
      Unread text ∧ invalidClause.read? text = some (said, rest) := by
  by_cases hunread : Unread text
  · exact .inr ⟨hunread, read?_clause_of_unread hunread ▸ h⟩
  · rw [← forall_rest?_namedClause_iff, not_forall] at hunread
    obtain ⟨k, hk⟩ := hunread
    obtain ⟨last, hlast⟩ := Option.ne_none_iff_exists'.mp hk
    obtain ⟨other, hnamed⟩ := exists_read?_of_rest? hlast
    rw [read?_clause_of_frontWord (frontWord_of_rest? hlast) hnamed] at h
    cases h
    exact .inl ⟨k, hnamed⟩

theorem shows_clause : Shows IsFront clause Clause.Written := by
  rintro text value rest ⟨hclean, hhead⟩ hread
  rcases clause_cases hread with ⟨k, hnamed⟩ | ⟨hunread, hinvalid⟩
  · exact shows_namedClause k hclean hnamed
  · obtain ⟨front, hfront, hunrecognized, rfl⟩ := exists_isUnrecognized hhead hunread hinvalid
    exact ⟨front, hfront, .invalid hunrecognized⟩

/-- The settings of a clause are what its arguments say, in the order in which they are read. -/
theorem exists_read?_verbArguments {verb : Verb} {settings : List (Setting verb.attributes)}
    (h : clause.read? text = some (.act verb settings, rest)) :
    ∃ arguments, (verbArguments verb).read? text = some (arguments, rest) ∧
      settings = arguments.filterMap id := by
  rcases clause_cases h with ⟨k, hnamed⟩ | ⟨-, hinvalid⟩
  · cases k with
    | verb other =>
        rw [namedClause, read?, read?_map, Option.map_eq_some_iff] at hnamed
        obtain ⟨⟨arguments, _⟩, hread, heq⟩ := hnamed
        cases heq
        exact ⟨arguments, hread, rfl⟩
    | warp =>
        rw [namedClause, read?, read?_map, Option.map_eq_some_iff] at hnamed
        obtain ⟨_, -, heq⟩ := hnamed
        cases heq
  · rw [invalidClause, read?_map, Option.map_eq_some_iff] at hinvalid
    obtain ⟨_, -, heq⟩ := hinvalid
    cases heq

theorem read?_clause_of_read?_statement {statement : Statement}
    (h : Script.statement.read? text = some (statement, rest)) :
    clause.read? text = some (statement.clause, rest) := by
  rw [Script.statement, read?_map, Option.map_eq_some_iff] at h
  obtain ⟨⟨⟨_, said⟩, last⟩, hcaptured, heq⟩ := h
  cases heq
  rw [read?] at hcaptured
  split at hcaptured
  · cases hcaptured
  · next hclause =>
      cases hcaptured
      exact hclause

theorem shows_statement : Shows IsFront statement Statement.Written := by
  refine (shows_clause.captured.mono ?_).map
  rintro text ⟨_, clause⟩ ⟨rfl, hclause⟩
  exact ⟨rfl, hclause⟩

/-! ## Lists -/

/-- Every item of a list was read from somewhere in the text, and not behind a blank. -/
theorem exists_read?_of_mem_listing {α : Type} {mark : String} {c : Char} {item : Grammar Rule α}
    (hprod : item.Productive) (hmark : mark.toList = [c]) (hc : Text.isSeparator c)
    (text : List Char) (hhead : ∀ d ∈ text.head?, Text.isBlank d = false) {value : α}
    (hmem : value ∈ (listing mark item text).1) :
    ∃ here rest, here <:+ text ∧ (∀ d ∈ here.head?, Text.isBlank d = false) ∧
      item.read? here = some (value, rest) := by
  induction text using listing_induction (c := c) hprod with
  | none text hnone =>
      rw [listing_of_none hmark hc hnone] at hmem
      cases hmem
  | last text first rest hread hlast =>
      rw [listing_of_end hmark hc hread hlast, List.mem_singleton] at hmem
      exact ⟨text, rest, List.suffix_rfl, hhead, hmem ▸ hread⟩
  | mark text first rest hread hnext ih =>
      rw [listing_of_mark hmark hc hread hnext, List.mem_cons] at hmem
      rcases hmem with rfl | hmem
      · exact ⟨text, rest, List.suffix_rfl, hhead, hread⟩
      · have hhead' : ∀ d ∈ (skipMarks c rest).head?, Text.isBlank d = false :=
          fun d hd => (head?_skipMarks rest d hd).1
        obtain ⟨here, last, hsuffix, hhere, hitem⟩ := ih hhead' hmem
        have hskip : skipMarks c rest <:+ rest := List.dropWhile_suffix _
        exact ⟨here, last, (hsuffix.trans hskip).trans (read?_isSuffix _ hread), hhere, hitem⟩

/-! ## Scripts -/

/-- Every statement of a script was read from somewhere in the script, and not behind a blank. -/
theorem exists_read?_of_mem_written {written : List WrittenAction}
    (h : written? text = some written) {action : WrittenAction} (haction : action ∈ written)
    {statement : Statement} (hstatement : statement ∈ action.statements) :
    ∃ here rest, here <:+ text ∧ (∀ c ∈ here.head?, Text.isBlank c = false) ∧
      Script.statement.read? here = some (statement, rest) := by
  rw [written?_eq] at h
  split at h
  · cases h
    -- the action stands in the script, and the statement in what follows its trigger
    obtain ⟨here, last, hsuffix, -, hread⟩ := exists_read?_of_mem_listing productive_action
      rfl rfl _ (Text.isBlank_head_skipBlanks text) haction
    rw [Script.action, read?, read?_map, read?_seq] at hread
    obtain ⟨⟨⟨trigger, statements⟩, _⟩, hparts, heq⟩ := Option.map_eq_some_iff.mp hread
    cases heq
    obtain ⟨⟨trigger', behind⟩, htrigger, hlist⟩ := Option.bind_eq_some_iff.mp hparts
    obtain ⟨rest, hlist', -⟩ := read?_separatedList "," Script.statement (Text.skipBlanks behind)
    rw [hlist', Option.map_some, Option.some.injEq] at hlist
    cases hlist
    obtain ⟨there, last', hsuffix', hhead, hitem⟩ := exists_read?_of_mem_listing
      productive_statement rfl rfl _ (Text.isBlank_head_skipBlanks behind) hstatement
    have hbehind : behind <:+ text :=
      ((read?_isSuffix _ htrigger).trans hsuffix).trans (skipBlanks_isSuffix text)
    exact ⟨there, last', (hsuffix'.trans (skipBlanks_isSuffix behind)).trans hbehind, hhead, hitem⟩
  · cases h

/-- **Statements.**  Every statement stands in the script as it is written, and its clause has been
read from there. -/
theorem exists_statement_written {written : List WrittenAction} (hclean : Text.IsClean text)
    (h : written? text = some written) {action : WrittenAction} (haction : action ∈ written)
    {statement : Statement} (hstatement : statement ∈ action.statements) :
    ∃ front rest, front ++ rest <:+ text ∧ statement.Written front ∧
      clause.read? (front ++ rest) = some (statement.clause, rest) := by
  obtain ⟨here, rest, hsuffix, hhead, hread⟩ := exists_read?_of_mem_written h haction hstatement
  obtain ⟨front, rfl, hwritten⟩ :=
    shows_statement ⟨Text.passesOn_isClean hsuffix hclean, hhead⟩ hread
  exact ⟨front, rest, hsuffix, hwritten, read?_clause_of_read?_statement hread⟩

end Script

/-- Every command of a script, and every gap between its commands, comes from a statement that
stands in the cleaned script. -/
theorem Action.exists_statement_of_mem_commands {script : String} {actions : List Action}
    (h : ofScript? script = some actions) {action : Action} (haction : action ∈ actions)
    {command? : Option Command} (hcommand : command? ∈ action.commands) :
    ∃ statement : Statement, statement.command? = command? ∧
      ∃ front, front <:+: (Text.clean script).toList ∧ statement.Written front := by
  obtain ⟨written, hwritten, rfl⟩ := Option.map_eq_some_iff.mp h
  obtain ⟨source, hsource, rfl⟩ := List.mem_map.mp haction
  obtain ⟨statement, hstatement, heq⟩ := List.mem_map.mp hcommand
  obtain ⟨front, rest, hsuffix, hfrom, -⟩ :=
    Script.exists_statement_written (Text.isClean_clean script) hwritten hsource hstatement
  exact ⟨statement, heq, front, (List.prefix_append front rest).isInfix.trans hsuffix.isInfix,
    hfrom⟩

end ObjectActions
