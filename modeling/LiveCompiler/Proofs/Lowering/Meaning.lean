import LiveCompiler.Lowering.Procedure
import LiveCompiler.Proofs.Ir.Run

/-!
# What an expression evaluates to

Expressions are evaluated directly, without a body of blocks.  `Evaluates` says that an
expression, with values for the variables in scope and after some calls, comes to a value after
more calls.  Operands are evaluated from left to right, and what a call gives may depend on all
calls before it, as in `Body.Returns`.

A loop need not end, so its turns are given by an inductive relation; everything else follows
the structure of the expression.
-/

namespace LiveCompiler

open Ir

namespace Lowering

/-- The variables in scope with their values, innermost first. -/
abbrev Bindings := List (String × Float)

/-- What an operator computes. -/
def operate? (op : Char) (x y : Float) : Option Float :=
  match op with
  | '+' => some (x + y)
  | '-' => some (x - y)
  | '*' => some (x * y)
  | '<' => some (lessThan x y)
  | _ => none

/-- A turn of a loop: from a value of the variable and the calls made so far it comes to the
raised value, whether the loop goes on, and the calls made then. -/
abbrev Turn := Float → List Call → Float → Bool → List Call → Prop

/-- The turns of a loop, until one ends it. -/
inductive Repeats (turn : Turn) : Float → List Call → List Call → Prop
  | last {x raised : Float} {calls after : List Call} (ends : turn x calls raised false after) :
      Repeats turn x calls after
  | again {x raised : Float} {calls middle after : List Call}
      (goesOn : turn x calls raised true middle) (rest : Repeats turn raised middle after) :
      Repeats turn x calls after

mutual

/-- An expression comes to a value after some calls. -/
def Evaluates (names : Names) (answers : Answers) :
    Expr → Bindings → List Call → Float → List Call → Prop
  | .number value, _, calls, y, after => y = value ∧ after = calls
  | .variable name, vars, calls, y, after => vars.lookup name = some y ∧ after = calls
  | .binary op left right, vars, calls, y, after =>
    ∃ a middle b, Evaluates names answers left vars calls a middle ∧
      Evaluates names answers right vars middle b after ∧ operate? op a b = some y
  | .call name args, vars, calls, y, after =>
    ∃ binding values middle, names.callee name = some binding ∧
      EvaluatesAll names answers args vars calls values middle ∧
      y = answers middle ⟨binding.func, values⟩ ∧ after = middle ++ [⟨binding.func, values⟩]
  | .ifThenElse condition onTrue onFalse, vars, calls, y, after =>
    ∃ c middle, Evaluates names answers condition vars calls c middle ∧
      ((countsAsTrue c = true ∧ Evaluates names answers onTrue vars middle y after) ∨
        (countsAsTrue c = false ∧ Evaluates names answers onFalse vars middle y after))
  | .forLoop loopVar start finish step body, vars, calls, y, after =>
    ∃ first middle, Evaluates names answers start vars calls first middle ∧ y = 0.0 ∧
      Repeats (fun x calls raised goesOn after =>
        ∃ unused afterBody increment afterStep c,
          Evaluates names answers body ((loopVar, x) :: vars) calls unused afterBody ∧
          EvaluatesStep names answers step ((loopVar, x) :: vars) afterBody increment afterStep ∧
          Evaluates names answers finish ((loopVar, x) :: vars) afterStep c after ∧
          raised = x + increment ∧ goesOn = countsAsTrue c) first middle after

/-- Arguments come to values, one after another. -/
def EvaluatesAll (names : Names) (answers : Answers) :
    List Expr → Bindings → List Call → List Float → List Call → Prop
  | [], _, calls, values, after => values = [] ∧ after = calls
  | arg :: rest, vars, calls, values, after =>
    ∃ y middle ys, Evaluates names answers arg vars calls y middle ∧
      EvaluatesAll names answers rest vars middle ys after ∧ values = y :: ys

/-- The step of a loop comes to a value, which is one if none is given. -/
def EvaluatesStep (names : Names) (answers : Answers) :
    Option Expr → Bindings → List Call → Float → List Call → Prop
  | none, _, calls, y, after => y = 1.0 ∧ after = calls
  | some step, vars, calls, y, after => Evaluates names answers step vars calls y after

end

/-- A turn of a loop with given body, step and end condition. -/
def loopTurn (names : Names) (answers : Answers) (loopVar : String) (finish : Expr)
    (step : Option Expr) (body : Expr) (vars : Bindings) : Turn :=
  fun x calls raised goesOn after =>
    ∃ unused afterBody increment afterStep c,
      Evaluates names answers body ((loopVar, x) :: vars) calls unused afterBody ∧
      EvaluatesStep names answers step ((loopVar, x) :: vars) afterBody increment afterStep ∧
      Evaluates names answers finish ((loopVar, x) :: vars) afterStep c after ∧
      raised = x + increment ∧ goesOn = countsAsTrue c

theorem evaluates_forLoop {names : Names} {answers : Answers} {loopVar : String}
    {start finish body : Expr} {step : Option Expr} {vars : Bindings} {calls after : List Call}
    {y : Float} :
    Evaluates names answers (.forLoop loopVar start finish step body) vars calls y after ↔
      ∃ first middle, Evaluates names answers start vars calls first middle ∧ y = 0.0 ∧
        Repeats (loopTurn names answers loopVar finish step body vars) first middle after := by
  rw [Evaluates]
  rfl

/-- The arguments of a procedure as the variables in its scope. -/
def argumentBindings (procedure : Procedure) (args : List Float) : Bindings :=
  (procedure.signature.params.zip args).reverse

end Lowering

end LiveCompiler
