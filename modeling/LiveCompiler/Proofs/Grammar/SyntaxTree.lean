import LiveCompiler.Proofs.Grammar.Phrase
import LiveCompiler.Proofs.Grammar.Printing

/-!
# Syntax trees

The tree of the text of an expression.  It has a node for each pair of brackets, and each operator
stands between its operands as the table groups them.  The tree tells which tokens spell it and what
it stands for (`SyntaxTree.tokens`, `SyntaxTree.value`), and whether it may stand in front of a
token (`SyntaxTree.Fits`).  Whatever tokens spell has such a tree (`Phrase.SpelledBy.hasTree`).
-/

namespace LiveCompiler

/-- The kinds of text in an expression. -/
inductive Part where
  | expression
  /-- The arguments of a call, with the closing bracket. -/
  | arguments
  /-- The step of a loop, with the comma in front of it. -/
  | step

/-- What a part stands for; an expression is the tree of its outermost chain. -/
abbrev Part.Value : Part → Type
  | expression => Grouping
  | arguments => List Expr
  | step => Option Expr

/-- The tree of a text. -/
inductive SyntaxTree : Part → Type where
  | number (value : Float) : SyntaxTree .expression
  | name (name : String) : SyntaxTree .expression
  | callNone (callee : String) : SyntaxTree .expression
  | call (callee : String) (args : SyntaxTree .arguments) : SyntaxTree .expression
  | bracketed (inner : SyntaxTree .expression) : SyntaxTree .expression
  | conditional (condition onTrue onFalse : SyntaxTree .expression) : SyntaxTree .expression
  | loop (loopVar : String) (start finish : SyntaxTree .expression) (step : SyntaxTree .step)
      (body : SyntaxTree .expression) : SyntaxTree .expression
  | binary (operator : Char) (precedence : Int32) (left right : SyntaxTree .expression) :
      SyntaxTree .expression
  | lastArgument (e : SyntaxTree .expression) : SyntaxTree .arguments
  | argument (e : SyntaxTree .expression) (more : SyntaxTree .arguments) : SyntaxTree .arguments
  | noStep : SyntaxTree .step
  | someStep (e : SyntaxTree .expression) : SyntaxTree .step

namespace SyntaxTree

/-- What the text stands for.  Only operators that nothing encloses are nodes of its tree. -/
def value : {part : Part} → SyntaxTree part → part.Value
  | _, .number value => Grouping.operand (.number value)
  | _, .name text => Grouping.operand (.variable text)
  | _, .callNone callee => Grouping.operand (.call callee [])
  | _, .call callee args => Grouping.operand (.call callee args.value)
  | _, .bracketed inner => Grouping.operand inner.value.expr
  | _, .conditional condition onTrue onFalse =>
    Grouping.operand (.ifThenElse condition.value.expr onTrue.value.expr onFalse.value.expr)
  | _, .loop loopVar start finish step body =>
    Grouping.operand
      (.forLoop loopVar start.value.expr finish.value.expr step.value body.value.expr)
  | _, .binary operator precedence left right =>
    Grouping.node operator precedence left.value right.value
  | _, .lastArgument e => [e.value.expr]
  | _, .argument e more => List.cons e.value.expr more.value
  | _, .noStep => none
  | _, .someStep e => some e.value.expr

/-- The text, as tokens. -/
def tokens : {part : Part} → SyntaxTree part → List Token
  | _, .number value => [.number value]
  | _, .name text => [.identifier text]
  | _, .callNone callee => [.identifier callee, .char '(', .char ')']
  | _, .call callee args => .identifier callee :: .char '(' :: args.tokens
  | _, .bracketed inner => .char '(' :: (inner.tokens ++ [.char ')'])
  | _, .conditional condition onTrue onFalse =>
    .keyword .ifWord :: (condition.tokens ++ .keyword .thenWord ::
      (onTrue.tokens ++ .keyword .elseWord :: onFalse.tokens))
  | _, .loop loopVar start finish step body =>
    .keyword .forWord :: .identifier loopVar :: .char '=' :: (start.tokens ++ .char ',' ::
      (finish.tokens ++ (step.tokens ++ .keyword .inWord :: body.tokens)))
  | _, .binary operator _ left right => left.tokens ++ .char operator :: right.tokens
  | _, .lastArgument e => e.tokens ++ [.char ')']
  | _, .argument e more => e.tokens ++ .char ',' :: more.tokens
  | _, .noStep => []
  | _, .someStep e => .char ',' :: e.tokens

/-- The tree may stand in front of a token: its operators are those of the table, grouped by their
precedences, and nothing in it goes on where it is meant to end. -/
def Fits (table : OperatorTable) : {part : Part} → SyntaxTree part → Token → Prop
  | _, .number _, _ => True
  | _, .name _, next => next ≠ .char '('
  | _, .callNone _, _ => True
  | _, .call _ args, next => args.Fits table next
  | _, .bracketed inner, _ =>
    inner.Fits table (.char ')') ∧ table.precedence? (.char ')') = none
  | _, .conditional condition onTrue onFalse, next =>
    condition.Fits table (.keyword .thenWord) ∧ onTrue.Fits table (.keyword .elseWord) ∧
      onFalse.Fits table next ∧ table.precedence? next = none
  | _, .loop _ start finish step body, next =>
    start.Fits table (.char ',') ∧ table.precedence? (.char ',') = none ∧
      finish.Fits table (step.tokens.headD (.keyword .inWord)) ∧
      step.Fits table (.keyword .inWord) ∧ body.Fits table next ∧ table.precedence? next = none
  | _, .binary operator precedence left right, next =>
    table.get? operator = some precedence ∧ left.Fits table (.char operator) ∧
      right.Fits table next ∧ left.value.Root (precedence ≤ ·) ∧
      right.value.Root (precedence < ·)
  | _, .lastArgument e, _ => e.Fits table (.char ')') ∧ table.precedence? (.char ')') = none
  | _, .argument e more, next =>
    e.Fits table (.char ',') ∧ table.precedence? (.char ',') = none ∧ more.Fits table next
  | _, .noStep, next => next ≠ .char ','
  | _, .someStep e, next => e.Fits table next ∧ table.precedence? next = none

/-- What starts with an operand does not start with a closing bracket. -/
theorem begins_tokens {part : Part} (w : SyntaxTree part) (h : part ≠ .step) :
    Begins (· ≠ .char ')') w.tokens := by
  induction w with
  | binary operator precedence left right ih => exact Begins.append_right (ih h) _
  | lastArgument e ih => exact Begins.append_right (ih nofun) _
  | argument e more ih => exact Begins.append_right (ih nofun) _
  | noStep => exact absurd rfl h
  | someStep e => exact absurd rfl h
  | _ => simp [tokens, Begins]

variable {table : OperatorTable} {next : Token} {op : Char} {precedence : Int32} {e f : Expr}
  {left right : SyntaxTree .expression}

/-- An operator between two operands. -/
theorem Fits.exists_push_operand (hOp : table.get? op = some precedence)
    (hLeft : left.Fits table (.char op)) (hLeftValue : left.value = .operand f)
    (hRight : right.Fits table next) (hRightValue : right.value = .operand e) :
    ∃ tree : SyntaxTree .expression, tree.value = Grouping.push left.value ⟨op, precedence, e⟩ ∧
      tree.tokens = left.tokens ++ .char op :: right.tokens ∧ tree.Fits table next := by
  refine ⟨.binary op precedence left right, ?_, rfl, hOp, hLeft, hRight, ?_, ?_⟩
  · rw [hLeftValue, value, hLeftValue, hRightValue]
    rfl
  · rw [hLeftValue]
    trivial
  · rw [hRightValue]
    trivial

/-- An operator with an operand is added on the right of a tree. -/
theorem Fits.exists_push (hOp : table.get? op = some precedence) (hRight : right.Fits table next)
    (hRightValue : right.value = .operand e) : ∀ {left : SyntaxTree .expression},
    left.Fits table (.char op) →
      ∃ tree : SyntaxTree .expression, tree.value = Grouping.push left.value ⟨op, precedence, e⟩ ∧
        tree.tokens = left.tokens ++ .char op :: right.tokens ∧ tree.Fits table next
  | .binary leftOp leftPrecedence first second, hFits => by
    obtain ⟨hLeftOp, hFirst, hSecond, hFirstRoot, hSecondRoot⟩ := hFits
    by_cases hLe : precedence ≤ leftPrecedence
    · refine ⟨.binary op precedence (.binary leftOp leftPrecedence first second) right, ?_, rfl,
        hOp, ⟨hLeftOp, hFirst, hSecond, hFirstRoot, hSecondRoot⟩, hRight, hLe, ?_⟩
      · rw [value, hRightValue]
        exact (if_pos hLe).symm
      · rw [hRightValue]
        trivial
    · obtain ⟨tree, hTree, hTokens, hFits⟩ := exists_push hOp hRight hRightValue hSecond
      refine ⟨.binary leftOp leftPrecedence first tree, ?_, ?_, hLeftOp, hFirst, hFits, hFirstRoot,
        ?_⟩
      · rw [value, hTree]
        exact (if_neg hLe).symm
      · rw [tokens, hTokens, tokens, List.append_assoc, List.cons_append]
      · rw [hTree]
        exact hSecondRoot.push (Int32.not_le.mp hLe)
  | .number _, hFits => exists_push_operand hOp hFits rfl hRight hRightValue
  | .name _, hFits => exists_push_operand hOp hFits rfl hRight hRightValue
  | .callNone _, hFits => exists_push_operand hOp hFits rfl hRight hRightValue
  | .call _ _, hFits => exists_push_operand hOp hFits rfl hRight hRightValue
  | .bracketed _, hFits => exists_push_operand hOp hFits rfl hRight hRightValue
  | .conditional _ _ _, hFits => exists_push_operand hOp hFits rfl hRight hRightValue
  | .loop _ _ _ _ _, hFits => exists_push_operand hOp hFits rfl hRight hRightValue

end SyntaxTree

namespace Phrase

open SyntaxTree

variable {table : OperatorTable} {phrase : Phrase} {tokens : List Token} {next : Token}

/-- There is a tree of a phrase, with these tokens, that may stand in front of a token.  Operators
make the tree of what stands in front of them larger. -/
def HasTree (table : OperatorTable) : Phrase → List Token → Token → Prop
  | operand e, tokens, next => ∃ tree : SyntaxTree .expression,
    tree.value = .operand e ∧ tree.tokens = tokens ∧ tree.Fits table next
  | operations all, tokens, next => table.precedence? next = none ∧
    ∀ left : SyntaxTree .expression, left.Fits table (tokens.headD next) →
      ∃ tree : SyntaxTree .expression, tree.value = all.foldl Grouping.push left.value ∧
        tree.tokens = left.tokens ++ tokens ∧ tree.Fits table next
  | expression e, tokens, next => table.precedence? next = none ∧
    ∃ tree : SyntaxTree .expression,
      tree.value.expr = e ∧ tree.tokens = tokens ∧ tree.Fits table next
  | arguments args, tokens, next => ∃ tree : SyntaxTree .arguments,
    tree.value = args ∧ tree.tokens = tokens ∧ tree.Fits table next
  | step given, tokens, next => ∃ tree : SyntaxTree .step,
    tree.value = given ∧ tree.tokens = tokens ∧ tree.Fits table next

/-- What tokens spell has a tree. -/
theorem SpelledBy.hasTree (h : phrase.SpelledBy table tokens next) :
    phrase.HasTree table tokens next := by
  induction h with
  | number value next => exact ⟨.number value, rfl, rfl, trivial⟩
  | name name hNext => exact ⟨.name name, rfl, rfl, hNext⟩
  | callNone callee next => exact ⟨.callNone callee, rfl, rfl, trivial⟩
  | call callee hArgs ih =>
    obtain ⟨args, rfl, rfl, hFits⟩ := ih
    exact ⟨.call callee args, rfl, rfl, hFits⟩
  | bracketed next hInner ih =>
    obtain ⟨hClose, inner, rfl, rfl, hFits⟩ := ih
    exact ⟨.bracketed inner, rfl, rfl, hFits, hClose⟩
  | conditional _ _ _ ihCondition ihTrue ihFalse =>
    obtain ⟨-, condition, rfl, rfl, hCondition⟩ := ihCondition
    obtain ⟨-, onTrue, rfl, rfl, hTrue⟩ := ihTrue
    obtain ⟨hNext, onFalse, rfl, rfl, hFalse⟩ := ihFalse
    exact ⟨.conditional condition onTrue onFalse, rfl, rfl, hCondition, hTrue, hFalse, hNext⟩
  | loop loopVar _ _ _ _ ihStart ihFinish ihStep ihBody =>
    obtain ⟨hComma, start, rfl, rfl, hStart⟩ := ihStart
    obtain ⟨-, finish, rfl, rfl, hFinish⟩ := ihFinish
    obtain ⟨step, rfl, rfl, hStep⟩ := ihStep
    obtain ⟨hNext, body, rfl, rfl, hBody⟩ := ihBody
    exact ⟨.loop loopVar start finish step body, rfl, rfl, hStart, hComma, hFinish, hStep, hBody,
      hNext⟩
  | noStep => exact ⟨.noStep, rfl, rfl, by simp [Fits]⟩
  | someStep _ ih =>
    obtain ⟨hEnd, e, rfl, rfl, hFits⟩ := ih
    exact ⟨.someStep e, rfl, rfl, hFits, hEnd⟩
  | lastArgument next _ ih =>
    obtain ⟨hClose, e, rfl, rfl, hFits⟩ := ih
    exact ⟨.lastArgument e, rfl, rfl, hFits, hClose⟩
  | argument _ _ ihFirst ihMore =>
    obtain ⟨hComma, e, rfl, rfl, hFirst⟩ := ihFirst
    obtain ⟨more, rfl, rfl, hMore⟩ := ihMore
    exact ⟨.argument e more, rfl, rfl, hFirst, hComma, hMore⟩
  | noOperations hNext =>
    exact ⟨hNext, fun left hLeft => ⟨left, rfl, (List.append_nil _).symm, hLeft⟩⟩
  | operation hOp _ _ ihRight ihMore =>
    obtain ⟨right, hRightValue, rfl, hRight⟩ := ihRight
    obtain ⟨hNext, hMore⟩ := ihMore
    -- The operation is pushed onto the tree to its left, and the rest goes on from there.
    refine ⟨hNext, fun left hLeft => ?_⟩
    obtain ⟨pushed, hPushed, hPushedTokens, hPushedFits⟩ :=
      Fits.exists_push hOp hRight hRightValue hLeft
    obtain ⟨tree, hTree, hTokens, hFits⟩ := hMore pushed hPushedFits
    refine ⟨tree, ?_, ?_, hFits⟩
    · rw [hTree, hPushed, List.foldl_cons]
    · rw [hTokens, hPushedTokens, List.append_assoc, List.cons_append]
  | chain hOrdered _ _ ihFirst ihMore =>
    obtain ⟨first, hFirstValue, rfl, hFirst⟩ := ihFirst
    obtain ⟨hNext, hMore⟩ := ihMore
    obtain ⟨tree, hTree, hTokens, hFits⟩ := hMore first hFirst
    refine ⟨hNext, tree, ?_, hTokens, hFits⟩
    rw [hTree, hFirstValue]
    exact congrArg Grouping.expr hOrdered.ofChain_eq

end Phrase

end LiveCompiler
