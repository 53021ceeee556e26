import LiveCompiler.Binary64.Text
import LiveCompiler.Expr

/-!
# Expressions as bracketed text

A tree is listed with every node in brackets and its operator or keyword first, so that
its shape can be read off.  Variables carry a `$`, an absent step is an underscore.
-/

namespace LiveCompiler

mutual

/-- The bracketed text of an expression. -/
def Expr.listing : Expr → String
  | .number value => Binary64.constantText value
  | .variable name => "$" ++ name
  | .binary op left right =>
    "(" ++ String.singleton op ++ " " ++ left.listing ++ " " ++ right.listing ++ ")"
  | .call callee args => "(call " ++ callee ++ Expr.listingAll args ++ ")"
  | .ifThenElse condition onTrue onFalse =>
    "(if " ++ condition.listing ++ " " ++ onTrue.listing ++ " " ++ onFalse.listing ++ ")"
  | .forLoop loopVar start finish step body =>
    "(for " ++ loopVar ++ " " ++ start.listing ++ " " ++ finish.listing ++ " " ++
      Expr.listingStep step ++ " " ++ body.listing ++ ")"

/-- The texts of arguments, each after a space. -/
def Expr.listingAll : List Expr → String
  | [] => ""
  | arg :: rest => " " ++ arg.listing ++ Expr.listingAll rest

/-- The text of a step. -/
def Expr.listingStep : Option Expr → String
  | none => "_"
  | some step => step.listing

end

end LiveCompiler
