import LiveCompiler.Proofs.Token.Stream

/-!
# What a rule can see of the input

A rule knows its input from the token ahead only, and it drops a token only if that is a word, a
number, an operator, or one of the four characters of punctuation.  So on two lexers that match, as
long as such tokens are dropped, a rule does the same (`Rule.Sees`): it gives the same value, or
finds the same fault at matching places, and leaves matching lexers behind.

What "matching" is can be chosen.  With lexers that show the same up to some semicolon, a rule
cannot tell what is behind the semicolon; with a lexer and itself, a rule takes tokens off the front
of the stream and does nothing else to it.
-/

namespace LiveCompiler

/-- The tokens that the rules may drop. -/
def OperatorTable.Drops (table : OperatorTable) : Token → Prop
  | .keyword _ => True
  | .identifier _ => True
  | .number _ => True
  | .char c => c ∈ ['(', ')', ',', '='] ∨ (table.get? c).isSome
  | .malformed _ => False
  | .endOfInput => False

theorem OperatorTable.Drops.isInput {table : OperatorTable} {token : Token}
    (h : table.Drops token) : token.isInput = true := by
  cases token with
  | endOfInput => exact absurd h id
  | _ => rfl

/-- The same error at another place. -/
def SyntaxError.moved (place : Location → Location) (e : SyntaxError) : SyntaxError :=
  { e with location := place e.location }

/-- Two lexers match if they show the same token, at places that belong together, and still match
when it has been looked at, and dropped if the rules may drop it. -/
structure Lexer.Matching (table : OperatorTable) (place : Location → Location)
    (rel : Lexer → Lexer → Prop) : Prop where
  look : ∀ {l w}, rel l w → w.look.1 = l.look.1.moved place
  looked : ∀ {l w}, rel l w → rel l.looked w.looked
  advance : ∀ {l w}, rel l w → table.Drops l.peek → rel l.advance w.advance

namespace Rule

variable {α β : Type} {table : OperatorTable} {known : Token → Prop}

/-- What a rule gives on lexers that match. -/
def Agree (place : Location → Location) (rel : Lexer → Lexer → Prop)
    (r w : Except SyntaxError α × Lexer) : Prop :=
  w.1 = r.1.mapError (SyntaxError.moved place) ∧ rel r.2 w.2

/-- If the token ahead is a known one, a rule does the same on lexers that match. -/
def Sees (table : OperatorTable) (known : Token → Prop) (rule : Rule α) : Prop :=
  ∀ place rel, Lexer.Matching table place rel → ∀ l w, rel l w → known l.peek →
    Agree place rel (rule.run l) (rule.run w)

theorem peek_eq {place : Location → Location} {rel : Lexer → Lexer → Prop}
    (hMatching : Lexer.Matching table place rel) {l w : Lexer} (h : rel l w) : w.peek = l.peek :=
  (congrArg Lexeme.token (hMatching.look h)).trans rfl

theorem sees_pure (a : α) : Sees table known (pure a) :=
  fun _ _ _ _ _ hRel _ => ⟨rfl, hRel⟩

theorem sees_fail (fault : SyntaxFault) : Sees table known (fail fault : Rule α) := by
  intro place rel hMatching l w h _
  refine ⟨?_, hMatching.looked h⟩
  show Except.error _ = Except.error _
  rw [hMatching.look h]
  rfl

theorem sees_advance (h : ∀ token, known token → table.Drops token) :
    Sees table known advance :=
  fun _ _ hMatching _ _ hRel hKnown => ⟨rfl, hMatching.advance hRel (h _ hKnown)⟩

/-- A rule that needs to know nothing. -/
theorem Sees.weaken {rule : Rule α} (h : Sees table (fun _ => True) rule) :
    Sees table known rule :=
  fun place rel hMatching l w hRel _ => h place rel hMatching l w hRel trivial

/-- Of what is ahead after a rule nothing is known. -/
theorem Sees.bind {first : Rule α} {next : α → Rule β} (h : Sees table known first)
    (hNext : ∀ a, Sees table (fun _ => True) (next a)) : Sees table known (first >>= next) := by
  intro place rel hMatching l w hRel hKnown
  obtain ⟨hResult, hAfter⟩ := h place rel hMatching l w hRel hKnown
  rw [run_bind, run_bind]
  generalize first.run l = r at hResult hAfter
  generalize first.run w = q at hResult hAfter
  obtain ⟨result, after⟩ := r
  obtain ⟨result', after'⟩ := q
  obtain rfl := hResult
  cases result with
  | ok a => exact hNext a place rel hMatching after after' hAfter trivial
  | error e => exact ⟨rfl, hAfter⟩

/-- After a look the token ahead is known. -/
theorem sees_peek {next : Token → Rule α}
    (hNext : ∀ token, known token → Sees table (· = token) (next token)) :
    Sees table known (peek >>= next) := by
  intro place rel hMatching l w hRel hKnown
  rw [run_bind, run_bind, run_peek, run_peek]
  dsimp only
  rw [peek_eq hMatching hRel]
  exact hNext l.peek hKnown place rel hMatching l.looked w.looked (hMatching.looked hRel)
    l.peek_looked

/-- Rules are the same if they do the same. -/
theorem eq_of_run {first second : Rule α} (h : first.run = second.run) : first = second := by
  cases first
  cases second
  cases h
  rfl

/-- Testing for a character is a look at the token ahead. -/
theorem isAhead_bind (c : Char) (next : Bool → Rule α) :
    (isAhead c >>= next) = (peek >>= fun token =>
      next (match token with | .char found => found == c | _ => false)) := by
  refine eq_of_run ?_
  funext l
  rw [run_bind, isAhead, run_bind, run_bind, run_peek]
  cases l.peek <;> rfl

/-- After a test for a character it is known to be ahead, if the test says so. -/
theorem sees_isAhead {c : Char} {next : Bool → Rule α}
    (hYes : Sees table (· = .char c) (next true))
    (hNo : Sees table (fun _ => True) (next false)) : Sees table known (isAhead c >>= next) := by
  rw [isAhead_bind]
  refine sees_peek fun token _ => ?_
  cases token with
  | char found =>
    by_cases hSame : found = c
    · subst hSame
      dsimp only
      rw [beq_self_eq_true]
      exact hYes
    · dsimp only
      rw [beq_false_of_ne hSame]
      exact hNo.weaken
  | _ => exact hNo.weaken

/-- A token is dropped that is known to be ahead. -/
theorem sees_advance_bind {token : Token} (h : table.Drops token) {next : Unit → Rule α}
    (hNext : Sees table (fun _ => True) (next ())) :
    Sees table (· = token) (advance >>= next) := by
  refine Sees.bind (sees_advance ?_) fun _ => hNext
  rintro _ rfl
  exact h

/-! ## Single tokens -/

theorem drops_punctuation {c : Char} (h : c ∈ ['(', ')', ',', '=']) : table.Drops (.char c) :=
  Or.inl h

theorem drops_operator {c : Char} (h : (table.get? c).isSome) : table.Drops (.char c) :=
  Or.inr h

theorem drops_identifier (name : String) : table.Drops (.identifier name) :=
  trivial

theorem drops_number (value : Float) : table.Drops (.number value) :=
  trivial

theorem sees_keyword (word : Keyword) : Sees table known (keyword word) := by
  refine sees_peek fun token _ => ?_
  cases token with
  | keyword found =>
    dsimp only
    split
    · refine sees_advance ?_
      rintro _ rfl
      trivial
    · exact sees_fail _
  | _ => exact sees_fail _

theorem sees_char {c : Char} (h : c ∈ ['(', ')', ',', '=']) : Sees table known (char c) := by
  refine sees_peek fun token _ => ?_
  cases token with
  | char found =>
    dsimp only
    split
    · rename_i hSame
      refine sees_advance ?_
      rintro _ rfl
      rw [hSame]
      exact drops_punctuation h
    · exact sees_fail _
  | _ => exact sees_fail _

theorem sees_identifier (wanted : Expectation) : Sees table known (identifier wanted) := by
  refine sees_peek fun token _ => ?_
  cases token with
  | identifier name => exact sees_advance_bind (drops_identifier name) (sees_pure _)
  | _ => exact sees_fail _

/-! ## Repetition -/

theorem identifiersFrom_of_identifier {l : Lexer} {name : String} (h : l.peek = .identifier name) :
    identifiersFrom l =
      (name :: (identifiersFrom l.advance).1, (identifiersFrom l.advance).2) := by
  rw [identifiersFrom]
  split
  · rename_i found hFound
    obtain rfl := Token.identifier.inj (hFound.symm.trans h)
    rfl
  · rename_i hNone
    exact absurd h (hNone name)

theorem identifiersFrom_of_ne {l : Lexer} (h : ∀ name, l.peek ≠ .identifier name) :
    identifiersFrom l = ([], l.looked) := by
  rw [identifiersFrom]
  split
  · rename_i found hFound
    exact absurd hFound (h found)
  · rfl

theorem identifiersFrom_matching {place : Location → Location} {rel : Lexer → Lexer → Prop}
    (hMatching : Lexer.Matching table place rel) {l w : Lexer} (hRel : rel l w) :
    (identifiersFrom w).1 = (identifiersFrom l).1 ∧
      rel (identifiersFrom l).2 (identifiersFrom w).2 := by
  fun_induction identifiersFrom l generalizing w with
  | case1 l name hPeek names after hRest ih =>
    have hDrops : table.Drops l.peek := by
      rw [hPeek]
      trivial
    obtain ⟨hNames, hAfter⟩ := ih (hMatching.advance hRel hDrops)
    rw [hRest] at hNames hAfter
    rw [identifiersFrom_of_identifier ((peek_eq hMatching hRel).trans hPeek)]
    exact ⟨congrArg (name :: ·) hNames, hAfter⟩
  | case2 l hPeek =>
    rw [identifiersFrom_of_ne fun name h => hPeek name ((peek_eq hMatching hRel).symm.trans h)]
    exact ⟨rfl, hMatching.looked hRel⟩

theorem sees_identifiers : Sees table known identifiers := by
  intro place rel hMatching l w hRel _
  obtain ⟨hNames, hAfter⟩ := identifiersFrom_matching hMatching hRel
  exact ⟨congrArg Except.ok hNames, hAfter⟩

theorem itemsFrom_of_error {item : Rule α} {l after : Lexer} {e : SyntaxError}
    (h : item.run l = (.error e, after)) : itemsFrom item l = (.error e, after) := by
  rw [itemsFrom]
  split
  · rename_i e' after' h'
    cases h'.symm.trans h
    rfl
  · rename_i a after' h'
    cases h'.symm.trans h

/-- What the token behind an item means for the list. -/
theorem itemsFrom_of_ok {item : Rule α} {l after : Lexer} {a : α}
    (h : item.run l = (.ok a, after)) :
    (after.peek = .char ')' → itemsFrom item l = (.ok [a], after.advance)) ∧
    (after.peek = .char ',' → itemsFrom item l =
      ((itemsFrom item after.advance).1.map (a :: ·), (itemsFrom item after.advance).2)) ∧
    (after.peek ≠ .char ')' → after.peek ≠ .char ',' → itemsFrom item l =
      (fail (.expected .moreArguments after.peek)).run after) := by
  rw [itemsFrom]
  split
  · rename_i e after' h'
    cases h'.symm.trans h
  · rename_i a' after' h'
    cases h'.symm.trans h
    split
    · rename_i hClose
      exact ⟨fun _ => rfl, fun hComma => absurd (hClose.symm.trans hComma) (by simp),
        fun hNot => absurd hClose hNot⟩
    · rename_i hComma
      exact ⟨fun hClose => absurd (hComma.symm.trans hClose) (by simp), fun _ => rfl,
        fun _ hNot => absurd hComma hNot⟩
    · rename_i hClose hComma
      exact ⟨fun h => absurd h hClose, fun h => absurd h hComma, fun _ _ => rfl⟩

theorem itemsFrom_matching {item : Rule α} (hItem : Sees table (fun _ => True) item)
    {place : Location → Location} {rel : Lexer → Lexer → Prop}
    (hMatching : Lexer.Matching table place rel) {l w : Lexer} (hRel : rel l w) :
    Agree place rel (itemsFrom item l) (itemsFrom item w) := by
  have hStep : ∀ {l w : Lexer}, rel l w → ∀ {a : α} {after : Lexer},
      item.run l = (.ok a, after) →
      ∃ after', item.run w = (.ok a, after') ∧ rel after after' ∧ after'.peek = after.peek := by
    intro l w hRel a after hRun
    obtain ⟨hResult, hAfter⟩ := hItem place rel hMatching l w hRel trivial
    rw [hRun] at hResult hAfter
    exact ⟨_, Prod.ext hResult rfl, hAfter, peek_eq hMatching hAfter⟩
  have hDrops : ∀ {l : Lexer} {c : Char}, l.peek = .char c → c ∈ ['(', ')', ',', '='] →
      table.Drops l.peek := by
    intro l c hPeek hMem
    rw [hPeek]
    exact drops_punctuation hMem
  fun_induction itemsFrom item l generalizing w with
  | case1 l e after hRun =>
    obtain ⟨hResult, hAfter⟩ := hItem place rel hMatching l w hRel trivial
    rw [hRun] at hResult hAfter
    rw [itemsFrom_of_error (Prod.ext hResult rfl)]
    exact ⟨rfl, hAfter⟩
  | case2 l a after hRun hPeek =>
    obtain ⟨after', hRun', hAfter, hSame⟩ := hStep hRel hRun
    rw [(itemsFrom_of_ok hRun').1 (hSame.trans hPeek)]
    exact ⟨rfl, hMatching.advance hAfter (hDrops hPeek (by simp))⟩
  | case3 l a after hRun hPeek more rest hMore ih =>
    obtain ⟨after', hRun', hAfter, hSame⟩ := hStep hRel hRun
    obtain ⟨hResult, hRest⟩ := ih (hMatching.advance hAfter (hDrops hPeek (by simp)))
    rw [hMore] at hResult hRest
    rw [(itemsFrom_of_ok hRun').2.1 (hSame.trans hPeek)]
    refine ⟨?_, hRest⟩
    dsimp only
    rw [hResult]
    cases more <;> rfl
  | case4 l a after hRun hClose hComma =>
    obtain ⟨after', hRun', hAfter, hSame⟩ := hStep hRel hRun
    rw [(itemsFrom_of_ok hRun').2.2 (hSame ▸ hClose) (hSame ▸ hComma), hSame]
    have hFail : Sees table (fun _ => True)
        (fail (.expected .moreArguments after.peek) : Rule (List α)) := sees_fail _
    exact hFail place rel hMatching after after' hAfter trivial

theorem Sees.items {item : Rule α} (h : Sees table (fun _ => True) item) :
    Sees table known (items item) :=
  fun _ _ hMatching _ _ hRel _ => itemsFrom_matching h hMatching hRel

/-! ## Expressions -/

variable {inner : Rule Expr}

/-- Looking for an operator is a look at the token ahead. -/
theorem operatorAhead_bind (table : OperatorTable) (next : Option (Char × Int32) → Rule α) :
    (operatorAhead table >>= next) = (peek >>= fun token =>
      next (match token with | .char c => (table.get? c).map fun p => (c, p) | _ => none)) := by
  refine eq_of_run ?_
  funext l
  rw [run_bind, operatorAhead, run_bind, run_bind, run_peek]
  cases l.peek <;> rfl

theorem sees_operatorAhead {next : Option (Char × Int32) → Rule α}
    (hNone : Sees table (fun _ => True) (next none))
    (hSome : ∀ op precedence, (table.get? op).isSome →
      Sees table (· = .char op) (next (some (op, precedence)))) :
    Sees table known (operatorAhead table >>= next) := by
  rw [operatorAhead_bind]
  refine sees_peek fun token _ => ?_
  cases token with
  | char op =>
    dsimp only
    cases hGet : table.get? op with
    | none => exact hNone.weaken
    | some precedence => exact hSome op precedence (by rw [hGet]; rfl)
  | _ => exact hNone.weaken

theorem sees_named (h : Sees table (fun _ => True) inner) (name : String) :
    Sees table known (named inner name) := by
  refine sees_isAhead ?_ (sees_pure _)
  refine sees_advance_bind (drops_punctuation (by simp)) ?_
  refine sees_isAhead ?_ ?_
  · exact sees_advance_bind (drops_punctuation (by simp)) (sees_pure _)
  · exact h.items.bind fun _ => sees_pure _

theorem sees_bracketed (h : Sees table (fun _ => True) inner) :
    Sees table known (bracketed inner) :=
  (sees_char (by simp)).bind fun _ => h.bind fun _ =>
    (sees_char (by simp)).bind fun _ => sees_pure _

theorem sees_conditional (h : Sees table (fun _ => True) inner) :
    Sees table known (conditional inner) :=
  (sees_keyword _).bind fun _ => h.bind fun _ => (sees_keyword _).bind fun _ =>
    h.bind fun _ => (sees_keyword _).bind fun _ => h.bind fun _ => sees_pure _

theorem sees_loopStep (h : Sees table (fun _ => True) inner) :
    Sees table known (loopStep inner) := by
  refine sees_isAhead ?_ (sees_pure _)
  exact sees_advance_bind (drops_punctuation (by simp)) (h.bind fun _ => sees_pure _)

theorem sees_loop (h : Sees table (fun _ => True) inner) : Sees table known (loop inner) :=
  (sees_keyword _).bind fun _ => (sees_identifier _).bind fun _ =>
    (sees_char (by simp)).bind fun _ => h.bind fun _ => (sees_char (by simp)).bind fun _ =>
      h.bind fun _ => (sees_loopStep h).bind fun _ => (sees_keyword _).bind fun _ =>
        h.bind fun _ => sees_pure _

theorem sees_operand (h : Sees table (fun _ => True) inner) : Sees table known (operand inner) := by
  refine sees_peek fun token _ => ?_
  split
  · exact sees_advance_bind (drops_number _) (sees_pure _)
  · exact sees_fail _
  · exact sees_advance_bind (drops_identifier _) (sees_named h _)
  · exact sees_bracketed h
  · exact sees_conditional h
  · exact sees_loop h
  · exact sees_fail _

theorem sees_operationsWithin {levels : Nat}
    (h : ∀ fewer, fewer < levels → Sees table (fun _ => True) (expressionWithin table fewer)) :
    Sees table known (operationsWithin table levels) := by
  induction levels generalizing known with
  | zero =>
    rw [operationsWithin]
    refine sees_operatorAhead (sees_pure _) fun op precedence hOp => ?_
    exact sees_advance_bind (drops_operator hOp) (sees_fail _)
  | succ levels ih =>
    rw [operationsWithin]
    refine sees_operatorAhead (sees_pure _) fun op precedence hOp => ?_
    refine sees_advance_bind (drops_operator hOp) ?_
    refine (sees_operand (h levels (Nat.lt_succ_self _))).bind fun right => ?_
    exact (ih fun fewer hFewer => h fewer (Nat.lt_succ_of_lt hFewer)).bind fun _ => sees_pure _

theorem sees_expressionWithin (levels : Nat) :
    Sees table known (expressionWithin table levels) := by
  induction levels using Nat.strongRecOn generalizing known with
  | ind levels ih =>
    cases levels with
    | zero =>
      rw [expressionWithin]
      exact sees_fail _
    | succ levels =>
      rw [expressionWithin]
      refine (sees_operand (ih levels (Nat.lt_succ_self _))).bind fun first => ?_
      exact (sees_operationsWithin fun fewer hFewer =>
        ih fewer (Nat.lt_succ_of_lt hFewer)).bind fun _ => sees_pure _

theorem sees_expression : Sees table known (expression table) :=
  sees_expressionWithin maxLevels

/-! ## Units -/

theorem sees_signature : Sees table known signature := by
  refine (sees_identifier _).bind fun _ => (sees_char (by simp)).bind fun _ => ?_
  refine sees_identifiers.bind fun _ => sees_isAhead ?_ ?_
  · exact sees_advance_bind (drops_punctuation (by simp)) (sees_pure _)
  · exact sees_peek fun _ _ => sees_fail _

/-- A unit is read from what can be seen of it. -/
theorem sees_sourceUnit (kind : SourceUnit.Kind) : Sees table known (sourceUnit table kind) := by
  cases kind with
  | definition =>
    refine Sees.bind ?_ fun _ => sees_pure _
    exact (sees_keyword _).bind fun _ => sees_signature.bind fun _ =>
      sees_expression.bind fun _ => sees_pure _
  | declaration =>
    refine Sees.bind ?_ fun _ => sees_pure _
    exact (sees_keyword _).bind fun _ => sees_signature
  | expression =>
    refine Sees.bind ?_ fun _ => sees_pure _
    exact sees_expression.bind fun _ => sees_pure _

end Rule

/-! ## What a rule takes -/

namespace Lexer

/-- A lexer that stands behind some tokens of another one.  As long as these are none it has at most
looked at the token ahead. -/
structure Behind (start lexer : Lexer) : Prop where
  shown : ∃ used, start.lexemes = used ++ lexer.lexemes ∧ (used = [] → lexer.looked = start.looked)
  genuine : start.Genuine → lexer.Genuine

theorem behind_refl (lexer : Lexer) : lexer.Behind lexer :=
  ⟨⟨[], rfl, fun _ => rfl⟩, fun h => h⟩

theorem matching_behind (table : OperatorTable) (start : Lexer) :
    Matching table id fun l w => w = l ∧ start.Behind l where
  look := by
    rintro _ w ⟨rfl, -⟩
    rfl
  looked := by
    rintro _ w ⟨rfl, ⟨used, hShown, hNone⟩, hGenuine⟩
    exact ⟨rfl, ⟨used, by rw [lexemes_looked, hShown], fun h => by rw [looked_looked, hNone h]⟩,
      fun h => (hGenuine h).looked⟩
  advance := by
    rintro _ w ⟨rfl, ⟨used, hShown, -⟩, -⟩ hDrops
    refine ⟨rfl, ⟨used ++ [w.look.1], ?_, by simp⟩, fun _ => genuine_advance w⟩
    rw [hShown, lexemes_of_input hDrops.isInput, List.append_assoc, List.singleton_append]

theorem look_looked (lexer : Lexer) : lexer.looked.look.1 = lexer.look.1 := by
  obtain ⟨cursor, ahead⟩ := lexer
  cases ahead <;> rfl

/-- Lexers that are the same once the token ahead has been looked at. -/
theorem matching_looked (table : OperatorTable) :
    Matching table id fun l w => w.looked = l.looked where
  look := by
    intro l w h
    rw [← look_looked w, h, look_looked]
    rfl
  looked := by
    intro l w h
    rw [looked_looked, looked_looked, h]
  advance := by
    intro l w h _
    rw [← advance_looked w, h, advance_looked]

end Lexer

namespace Rule

variable {α : Type} {table : OperatorTable} {rule : Rule α} {lexer after : Lexer}

/-- A rule takes tokens off the front of the stream. -/
theorem Sees.behind (h : Sees table (fun _ => True) rule) (lexer : Lexer) :
    lexer.Behind (rule.run lexer).2 :=
  (h id _ (lexer.matching_behind table) lexer lexer ⟨rfl, lexer.behind_refl⟩ trivial).2.2

/-- A rule that uses a token, in the measure of what is left of the input, takes one off the
stream. -/
theorem Sees.looked_ne (h : Sees table (fun _ => True) rule) (hProductive : IsProductive rule)
    {a : α} (hRun : rule.run lexer = (.ok a, after)) : after.looked ≠ lexer.looked := by
  -- Looking ahead lowers the measure too, so the rule is run where that has been done.
  obtain ⟨hResult, hLooked⟩ :=
    h id _ (Lexer.matching_looked table) lexer lexer.looked lexer.looked_looked trivial
  rw [hRun] at hResult hLooked
  have hLess : (rule.run lexer.looked).2.remaining < lexer.looked.remaining :=
    hProductive.used_of_ok (Prod.ext hResult rfl)
  intro hSame
  have hLe := (rule.run lexer.looked).2.remaining_looked_le
  rw [hLooked, hSame] at hLe
  exact absurd hLe (Nat.not_le_of_lt hLess)

end Rule

end LiveCompiler
