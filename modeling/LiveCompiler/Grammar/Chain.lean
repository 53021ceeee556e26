import LiveCompiler.Expr

/-!
# Chains of operators

A chain is an operand followed by operators with an operand each, all on one level of
brackets.  This module turns a chain into a tree: an operator that binds tighter is
nearer to the leaves, and of two that bind alike the left one is.
-/

namespace LiveCompiler

/-- An operator with its precedence and the operand on its right. -/
structure Operation where
  operator : Char
  precedence : Int32
  operand : Expr

/-- An operator whose right side is not complete, with its left side. -/
structure OpenOperator where
  left : Expr
  operator : Char
  precedence : Int32

/-- Complete the open operators, innermost first, that bind at least as tight as an
operator of the given precedence, which comes next. -/
def completeFor (next : Int32) : List OpenOperator → Expr → List OpenOperator × Expr
  | [], right => ([], right)
  | o :: outer, right =>
    if next ≤ o.precedence then completeFor next outer (.binary o.operator o.left right)
    else (o :: outer, right)

/-- Complete all open operators, innermost first. -/
def completeAll (opened : List OpenOperator) (right : Expr) : Expr :=
  opened.foldl (fun right o => .binary o.operator o.left right) right

/-- Read a chain from left to right.  `right` is the operand just read, and the open
operators bind tighter from the outermost to the innermost. -/
def groupFrom (opened : List OpenOperator) (right : Expr) : List Operation → Expr
  | [] => completeAll opened right
  | next :: rest =>
    -- What binds at least as tight as the next operator lies on its left side.
    let (outer, left) := completeFor next.precedence opened right
    groupFrom
      ({ left := left, operator := next.operator, precedence := next.precedence } :: outer)
      next.operand rest

/-- The tree of a chain. -/
def groupChain (first : Expr) (operations : List Operation) : Expr :=
  groupFrom [] first operations

end LiveCompiler
