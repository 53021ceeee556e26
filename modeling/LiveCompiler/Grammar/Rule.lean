import LiveCompiler.Grammar.SyntaxError
import LiveCompiler.Token.Lexer

/-!
# Grammar rules

A rule reads tokens off a lexer and gives a value or a syntax error.  Either way the
lexer stands behind the tokens that were used.  A rule never puts a token back, and it
carries the proof: this is what makes repetition end.
-/

namespace LiveCompiler

/-- A rule of the grammar. -/
structure Rule (α : Type) where
  run : Lexer → Except SyntaxError α × Lexer
  remaining_le : ∀ lexer, (run lexer).2.remaining ≤ lexer.remaining

namespace Rule

variable {α β : Type}

/-- Use no token. -/
protected def pure (a : α) : Rule α where
  run lexer := (.ok a, lexer)
  remaining_le _ := Nat.le_refl _

/-- One rule after another.  The first error ends the sequence. -/
protected def bind (first : Rule α) (next : α → Rule β) : Rule β where
  run lexer :=
    match first.run lexer with
    | (.ok a, after) => (next a).run after
    | (.error e, after) => (.error e, after)
  remaining_le lexer := by
    have h := first.remaining_le lexer
    split
    · rename_i a after hrun
      rw [hrun] at h
      exact Nat.le_trans ((next a).remaining_le after) h
    · rename_i e after hrun
      rw [hrun] at h
      exact h

instance : Monad Rule where
  pure := Rule.pure
  bind := Rule.bind

/-- Look at the token ahead. -/
def peek : Rule Token where
  run lexer := (.ok lexer.peek, lexer.looked)
  remaining_le lexer := lexer.remaining_looked_le

/-- Drop the token ahead. -/
def advance : Rule Unit where
  run lexer := (.ok (), lexer.advance)
  remaining_le lexer := lexer.remaining_advance_le

/-- Refuse the token ahead. -/
def fail (fault : SyntaxFault) : Rule α where
  run lexer :=
    (.error { fault := fault, location := lexer.look.1.location }, lexer.looked)
  remaining_le lexer := lexer.remaining_looked_le

/-- Read one keyword. -/
def keyword (word : Keyword) : Rule Unit := do
  match ← peek with
  | .keyword found =>
    if found = word then advance else fail (.expected (.keyword word) (.keyword found))
  | found => fail (.expected (.keyword word) found)

/-- Read one character. -/
def char (c : Char) : Rule Unit := do
  match ← peek with
  | .char found => if found = c then advance else fail (.expected (.char c) (.char found))
  | found => fail (.expected (.char c) found)

/-- Read an identifier. -/
def identifier (wanted : Expectation) : Rule String := do
  match ← peek with
  | .identifier name => do advance; return name
  | found => fail (.expected wanted found)

/-- Whether the token ahead is a given character. -/
def isAhead (c : Char) : Rule Bool := do
  match ← peek with
  | .char found => return found == c
  | _ => return false

/-! ## Repetition -/

/-- Read identifiers as long as they come. -/
def identifiersFrom (lexer : Lexer) : List String × Lexer :=
  match _h : lexer.peek with
  | .identifier name =>
    let (names, after) := identifiersFrom lexer.advance
    (name :: names, after)
  | _ => ([], lexer.looked)
termination_by lexer.remaining
decreasing_by exact lexer.remaining_advance_lt (by rw [_h]; rfl)

theorem remaining_identifiersFrom_le (lexer : Lexer) :
    (identifiersFrom lexer).2.remaining ≤ lexer.remaining := by
  fun_induction identifiersFrom lexer with
  | case1 lexer name h names after heq ih =>
    rw [heq] at ih
    exact Nat.le_trans ih lexer.remaining_advance_le
  | case2 lexer h => exact lexer.remaining_looked_le

/-- Read identifiers as long as they come. -/
def identifiers : Rule (List String) where
  run lexer :=
    let (names, after) := identifiersFrom lexer
    (.ok names, after)
  remaining_le lexer := remaining_identifiersFrom_le lexer

/-- Read items with a comma between them, up to a closing bracket. -/
def itemsFrom (item : Rule α) (lexer : Lexer) : Except SyntaxError (List α) × Lexer :=
  match _hitem : item.run lexer with
  | (.error e, after) => (.error e, after)
  | (.ok a, after) =>
    match _h : after.peek with
    | .char ')' => (.ok [a], after.advance)
    | .char ',' =>
      let (more, rest) := itemsFrom item after.advance
      (more.map (a :: ·), rest)
    | found => (fail (.expected .moreArguments found)).run after
termination_by lexer.remaining
decreasing_by
  have hlt := after.remaining_advance_lt (by rw [_h]; rfl)
  have hle := item.remaining_le lexer
  rw [_hitem] at hle
  exact Nat.lt_of_lt_of_le hlt hle

theorem remaining_itemsFrom_le (item : Rule α) (lexer : Lexer) :
    (itemsFrom item lexer).2.remaining ≤ lexer.remaining := by
  fun_induction itemsFrom item lexer with
  | case1 lexer e after hitem =>
    have hle := item.remaining_le lexer
    rw [hitem] at hle
    exact hle
  | case2 lexer a after hitem h =>
    have hle := item.remaining_le lexer
    rw [hitem] at hle
    exact Nat.le_trans after.remaining_advance_le hle
  | case3 lexer a after hitem h more rest heq ih =>
    have hle := item.remaining_le lexer
    rw [hitem] at hle
    rw [heq] at ih
    exact Nat.le_trans ih (Nat.le_trans after.remaining_advance_le hle)
  | case4 lexer a after hitem =>
    have hle := item.remaining_le lexer
    rw [hitem] at hle
    exact Nat.le_trans after.remaining_looked_le hle

/-- Read items with a comma between them, up to a closing bracket. -/
def items (item : Rule α) : Rule (List α) where
  run := itemsFrom item
  remaining_le := remaining_itemsFrom_le item

end Rule

end LiveCompiler
