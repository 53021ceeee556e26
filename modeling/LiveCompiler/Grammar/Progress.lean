import LiveCompiler.Grammar.SourceUnit

/-!
# Progress of the rules for units

A unit uses at least one token, or its first token is refused and still ahead.  So a
loop that drops the token after each refused unit gets through every input.
-/

namespace LiveCompiler

namespace Lexer

theorem looked_looked (lexer : Lexer) : lexer.looked.looked = lexer.looked := by
  obtain ⟨cursor, ahead⟩ := lexer
  cases ahead <;> rfl

theorem peek_looked (lexer : Lexer) : lexer.looked.peek = lexer.peek := by
  obtain ⟨cursor, ahead⟩ := lexer
  cases ahead <;> rfl

theorem advance_looked (lexer : Lexer) : lexer.looked.advance = lexer.advance := by
  simp [advance, looked_looked]

end Lexer

namespace Rule

variable {α β : Type}

/-- A rule that uses a token unless it refuses the first one. -/
structure IsProductive (rule : Rule α) : Prop where
  used_of_ok : ∀ {lexer a after},
    rule.run lexer = (.ok a, after) → after.remaining < lexer.remaining
  used_of_error : ∀ {lexer e after}, rule.run lexer = (.error e, after) →
    after.remaining < lexer.remaining ∨ after = lexer.looked

theorem run_bind (first : Rule α) (next : α → Rule β) (lexer : Lexer) :
    (first >>= next).run lexer =
      match first.run lexer with
      | (.ok a, after) => (next a).run after
      | (.error e, after) => (.error e, after) :=
  rfl

@[simp] theorem run_pure (a : α) (lexer : Lexer) :
    (pure a : Rule α).run lexer = (.ok a, lexer) :=
  rfl

@[simp] theorem run_peek (lexer : Lexer) : peek.run lexer = (.ok lexer.peek, lexer.looked) :=
  rfl

@[simp] theorem run_advance (lexer : Lexer) : advance.run lexer = (.ok (), lexer.advance) :=
  rfl

@[simp] theorem run_fail (fault : SyntaxFault) (lexer : Lexer) :
    (fail fault : Rule α).run lexer =
      (.error { fault := fault, location := lexer.look.1.location }, lexer.looked) :=
  rfl

theorem remaining_le_of_run {rule : Rule α} {lexer after : Lexer} {r : Except SyntaxError α}
    (h : rule.run lexer = (r, after)) : after.remaining ≤ lexer.remaining := by
  have hle := rule.remaining_le lexer
  rwa [h] at hle

theorem IsProductive.bind {first : Rule α} (h : IsProductive first) (next : α → Rule β) :
    IsProductive (first >>= next) where
  used_of_ok {lexer b after} hrun := by
    rw [run_bind] at hrun
    split at hrun
    · rename_i a mid hfirst
      exact Nat.lt_of_le_of_lt (remaining_le_of_run hrun) (h.used_of_ok hfirst)
    · simp at hrun
  used_of_error {lexer e after} hrun := by
    rw [run_bind] at hrun
    split at hrun
    · rename_i a mid hfirst
      exact .inl (Nat.lt_of_le_of_lt (remaining_le_of_run hrun) (h.used_of_ok hfirst))
    · rename_i e' mid hfirst
      obtain ⟨-, rfl⟩ := Prod.mk.inj hrun
      exact h.used_of_error hfirst

/-- A rule that drops the token it has looked at, and then goes on, uses a token. -/
theorem isProductive_of_peek {next : Token → Rule α}
    (h : ∀ token, IsProductive (next token) ∨ (∃ fault, next token = fail fault) ∨
      (token.isInput = true ∧ ∃ rest : Unit → Rule α, next token = (advance >>= rest))) :
    IsProductive (peek >>= next) where
  used_of_ok {lexer a after} hrun := by
    rw [run_bind, run_peek] at hrun
    simp only at hrun
    rcases h lexer.peek with hp | ⟨fault, hp⟩ | ⟨hinput, rest, hp⟩
    · exact Nat.lt_of_lt_of_le (hp.used_of_ok hrun) lexer.remaining_looked_le
    · simp [hp] at hrun
    · rw [hp, run_bind, run_advance, Lexer.advance_looked] at hrun
      exact Nat.lt_of_le_of_lt (remaining_le_of_run hrun) (lexer.remaining_advance_lt hinput)
  used_of_error {lexer e after} hrun := by
    rw [run_bind, run_peek] at hrun
    simp only at hrun
    rcases h lexer.peek with hp | ⟨fault, hp⟩ | ⟨hinput, rest, hp⟩
    · rcases hp.used_of_error hrun with hlt | heq
      · exact .inl (Nat.lt_of_lt_of_le hlt lexer.remaining_looked_le)
      · exact .inr (by rw [heq, Lexer.looked_looked])
    · rw [hp, run_fail, Lexer.looked_looked] at hrun
      exact .inr (Prod.mk.inj hrun).2.symm
    · rw [hp, run_bind, run_advance, Lexer.advance_looked] at hrun
      exact .inl (Nat.lt_of_le_of_lt (remaining_le_of_run hrun)
        (lexer.remaining_advance_lt hinput))

theorem isProductive_keyword (word : Keyword) : IsProductive (keyword word) := by
  refine isProductive_of_peek fun token => ?_
  cases token with
  | keyword found =>
    by_cases hfound : found = word
    · exact .inr (.inr ⟨rfl, pure, by simp only [hfound, if_true]; rfl⟩)
    · exact .inr (.inl ⟨_, by simp only [hfound, if_false]; rfl⟩)
  | _ => exact .inr (.inl ⟨_, rfl⟩)

theorem isProductive_char (c : Char) : IsProductive (char c) := by
  refine isProductive_of_peek fun token => ?_
  cases token with
  | char found =>
    by_cases hfound : found = c
    · exact .inr (.inr ⟨rfl, pure, by simp only [hfound, if_true]; rfl⟩)
    · exact .inr (.inl ⟨_, by simp only [hfound, if_false]; rfl⟩)
  | _ => exact .inr (.inl ⟨_, rfl⟩)

theorem isProductive_operand (inner : Rule Expr) : IsProductive (operand inner) := by
  refine isProductive_of_peek fun token => ?_
  split
  · exact .inr (.inr ⟨rfl, _, rfl⟩)
  · exact .inr (.inl ⟨_, rfl⟩)
  · exact .inr (.inr ⟨rfl, _, rfl⟩)
  · exact .inl ((isProductive_char '(').bind _)
  · exact .inl ((isProductive_keyword .ifWord).bind _)
  · exact .inl ((isProductive_keyword .forWord).bind _)
  · exact .inr (.inl ⟨_, rfl⟩)

theorem isProductive_expression (table : OperatorTable) : IsProductive (expression table) :=
  (isProductive_operand (expressionWithin table 255)).bind _

theorem isProductive_sourceUnit (table : OperatorTable) (kind : SourceUnit.Kind) :
    IsProductive (sourceUnit table kind) := by
  cases kind with
  | definition => exact ((isProductive_keyword .define).bind _).bind _
  | declaration => exact ((isProductive_keyword .external).bind _).bind _
  | expression => exact ((isProductive_expression table).bind _).bind _

/-- Dropping a token after a refused unit uses a token in any case. -/
theorem IsProductive.remaining_advance_lt {rule : Rule α} (h : IsProductive rule)
    {lexer after : Lexer} {e : SyntaxError} (hinput : lexer.peek.isInput = true)
    (hrun : rule.run lexer = (.error e, after)) :
    after.advance.remaining < lexer.remaining := by
  rcases h.used_of_error hrun with hlt | heq
  · exact Nat.lt_of_le_of_lt after.remaining_advance_le hlt
  · rw [heq, Lexer.advance_looked]
    exact lexer.remaining_advance_lt hinput

end Rule

end LiveCompiler
