import ObjectActions.Proofs.Script.Separators

/-!
# Which clause is read

The word at the front of a clause decides which clause it is: the clause of the keyword that it
is, whatever its case.  All other clauses that begin with a keyword are refused at once, so
nothing is ever tried behind the keyword of another clause.
-/

namespace ObjectActions

theorem Keyword.word_injective {k l : Keyword} (h : k.word = l.word) : k = l := by
  have hfind (k : Keyword) : Keyword.all.find? (·.word == k.word) = some k := by
    rcases k with v | _
    · cases v <;> rfl
    · rfl
  exact Option.some.inj (by rw [← hfind k, ← hfind l, h])

/-- Keywords are lower-case words. -/
theorem Keyword.lower_word (k : Keyword) : Text.lower k.word.toList = k.word.toList := by
  rcases k with v | _
  · cases v <;> decide
  · decide

theorem Keyword.isAlpha_of_mem_word (k : Keyword) : ∀ c ∈ k.word.toList, c.isAlpha = true := by
  refine List.all_eq_true.mp ?_
  rcases k with v | _
  · cases v <;> decide
  · decide

namespace Script

open Grammar

variable {text rest : List Char}

/-- The word at the front of a text, with its letters in lower case. -/
def frontWord (text : List Char) : List Char :=
  Text.lower (text.takeWhile Text.isNameChar)

theorem read?_keyword (k : Keyword) (text : List Char) :
    (keyword k).read? text =
      if frontWord text = k.word.toList then some ((), text.dropWhile Text.isNameChar)
      else none := by
  have halike : Text.alike (String.ofList (text.takeWhile Text.isNameChar)) k.word =
      decide (frontWord text = k.word.toList) := by
    rw [Text.alike, String.toList_ofList, k.lower_word, frontWord, beq_eq_decide]
  rw [keyword, read?_word, halike]
  by_cases h : frontWord text = k.word.toList <;> simp [h]

theorem read?_verbArguments_of_ne {verb : Verb} (h : frontWord text ≠ verb.word.toList) :
    (verbArguments verb).read? text = none := by
  have hkeyword : (keyword (.verb verb)).read? text = none := by
    rw [read?_keyword]
    exact if_neg h
  by_cases hforms : verb.forms = []
  · cases verb with
    | sound | url | name =>
        rw [verbArguments, oneArgument, read?_map, read?_seqRight, hkeyword]
        rfl
    | examine =>
        rw [verbArguments, read?_map, hkeyword]
        rfl
    | teleport =>
        rw [verbArguments, read?_map, read?_seqRight, hkeyword]
        rfl
    | _ => simp [Verb.forms, Verb.usages] at hforms
  · obtain ⟨argument, harguments, -⟩ := exists_choices_forms hforms
    rw [harguments, manyArguments, read?_seqRight, hkeyword]
    rfl

theorem read?_namedClause_of_ne {k : Keyword} (h : frontWord text ≠ k.word.toList) :
    (namedClause k).read? text = none := by
  cases k with
  | verb verb =>
      rw [namedClause, read?, read?_map, read?_verbArguments_of_ne h]
      rfl
  | warp =>
      rw [namedClause, read?, read?_map, read?_seqRight, read?_keyword, if_neg h]
      rfl

/-- **Dispatch.**  The clause of the word at the front is the one that is read. -/
theorem read?_clause_of_frontWord {k : Keyword} {result : Clause × List Char}
    (h : frontWord text = k.word.toList) (hread : (namedClause k).read? text = some result) :
    clause.read? text = some result := by
  have hclause (keywords : List Keyword) (hmem : k ∈ keywords) :
      (keywords.foldr (fun k rest => namedClause k <|> rest) invalidClause).read? text =
        some result := by
    induction keywords with
    | nil => cases hmem
    | cons l keywords ih =>
        rw [List.foldr_cons, orElse_eq_choice, read?]
        by_cases heq : l = k
        · rw [heq, hread]
        · have hne : frontWord text ≠ l.word.toList := by
            intro hl
            exact heq (Keyword.word_injective (String.toList_inj.mp (hl.symm.trans h)))
          rw [read?_namedClause_of_ne hne]
          exact ih ((List.mem_cons.mp hmem).resolve_left (Ne.symm heq))
  exact hclause Keyword.all (Keyword.mem_all k)

end Script

end ObjectActions
