/-!
# Expressions and top-level units

Every value of the language is a double.  A program is a sequence of units: function
definitions, declarations of external functions, and bare expressions to evaluate.
-/

namespace LiveCompiler

/-- An expression. -/
inductive Expr where
  | number (value : Float)
  | variable (name : String)
  | binary (op : Char) (left right : Expr)
  | call (callee : String) (args : List Expr)
  | ifThenElse (condition onTrue onFalse : Expr)
  /-- Repeat the body while the end condition holds, and give zero.  Without a step the
  variable goes up by one. -/
  | forLoop (loopVar : String) (start finish : Expr) (step : Option Expr) (body : Expr)
deriving Inhabited

/-- The name of a function and the names of its parameters. -/
structure Signature where
  name : String
  params : List String
deriving DecidableEq, Repr

namespace Signature

/-- The number of parameters. -/
def arity (s : Signature) : Nat :=
  s.params.length

/-- The signature around a bare expression. -/
def unnamed : Signature where
  name := ""
  params := []

end Signature

/-- A signature with a body. -/
structure Procedure where
  signature : Signature
  body : Expr

/-- What a unit is. -/
inductive SourceUnit.Kind where
  | definition
  | declaration
  | expression
deriving DecidableEq, Repr

/-- How messages name a kind of unit. -/
def SourceUnit.Kind.describe : SourceUnit.Kind → String
  | definition => "definition"
  | declaration => "extern"
  | expression => "top-level expression"

/-- A complete top-level unit.  A bare expression comes wrapped into a procedure. -/
inductive SourceUnit where
  | definition (procedure : Procedure)
  | declaration (signature : Signature)
  | expression (procedure : Procedure)

/-- The kind of a unit. -/
def SourceUnit.kind : SourceUnit → SourceUnit.Kind
  | definition _ => .definition
  | declaration _ => .declaration
  | expression _ => .expression

end LiveCompiler
