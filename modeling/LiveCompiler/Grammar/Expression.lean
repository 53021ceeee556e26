import LiveCompiler.Grammar.Chain
import LiveCompiler.Grammar.Rule
import LiveCompiler.OperatorTable

/-!
# The grammar of expressions

An expression is a chain of operands.  The rules count levels: each bracket, argument,
arm or loop part is one level below the expression around it, and each operator of a
chain adds a level to its chain.  When no level is left the expression is refused, so
the height of what is read, and the recursion of every later walk, is bounded.
-/

namespace LiveCompiler

namespace Rule

/-- The operator ahead and its precedence, if the table knows one. -/
def operatorAhead (table : OperatorTable) : Rule (Option (Char × Int32)) := do
  match ← peek with
  | .char c => return (table.get? c).map fun p => (c, p)
  | _ => return none

/-- A variable, or a call if a bracket follows the name. -/
def named (inner : Rule Expr) (name : String) : Rule Expr := do
  if ← isAhead '(' then
    advance
    if ← isAhead ')' then
      advance
      return .call name []
    else
      return .call name (← items inner)
  else
    return .variable name

/-- An expression in brackets. -/
def bracketed (inner : Rule Expr) : Rule Expr := do
  char '('
  let e ← inner
  char ')'
  return e

/-- A conditional. -/
def conditional (inner : Rule Expr) : Rule Expr := do
  keyword .ifWord
  let condition ← inner
  keyword .thenWord
  let onTrue ← inner
  keyword .elseWord
  let onFalse ← inner
  return .ifThenElse condition onTrue onFalse

/-- The step of a loop, if there is one. -/
def loopStep (inner : Rule Expr) : Rule (Option Expr) := do
  if ← isAhead ',' then
    advance
    return some (← inner)
  else
    return none

/-- A loop. -/
def loop (inner : Rule Expr) : Rule Expr := do
  keyword .forWord
  let loopVar ← identifier .loopVariable
  char '='
  let start ← inner
  char ','
  let finish ← inner
  let step ← loopStep inner
  keyword .inWord
  let body ← inner
  return .forLoop loopVar start finish step body

/-- One operand of a chain; `inner` reads the expressions inside it. -/
def operand (inner : Rule Expr) : Rule Expr := do
  match ← peek with
  | .number value => do advance; return .number value
  | .malformed text => fail (.malformedNumber text)
  | .identifier name => do advance; named inner name
  | .char '(' => bracketed inner
  | .keyword .ifWord => conditional inner
  | .keyword .forWord => loop inner
  | found => fail (.noExpression found)

mutual

/-- An expression that may use so many levels. -/
def expressionWithin (table : OperatorTable) : Nat → Rule Expr
  | 0 => fail .tooDeep
  | levels + 1 => do
    let first ← operand (expressionWithin table levels)
    let operations ← operationsWithin table levels
    return groupChain first operations

/-- The operators that continue a chain.  Each takes a level from those after it. -/
def operationsWithin (table : OperatorTable) : Nat → Rule (List Operation)
  | 0 => do
    match ← operatorAhead table with
    | none => return []
    -- The operator itself is still read; the error stands at the token behind it.
    | some _ => do advance; fail .tooDeep
  | levels + 1 => do
    match ← operatorAhead table with
    | none => return []
    | some (op, precedence) => do
      advance
      let right ← operand (expressionWithin table levels)
      let more ← operationsWithin table levels
      return { operator := op, precedence := precedence, operand := right } :: more

end

/-- An expression. -/
def expression (table : OperatorTable) : Rule Expr :=
  expressionWithin table maxLevels

end Rule

end LiveCompiler
