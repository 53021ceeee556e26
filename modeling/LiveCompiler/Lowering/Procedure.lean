import LiveCompiler.Expr
import LiveCompiler.Lowering.Builder
import LiveCompiler.Program.Symbols
import Std.Data.TreeSet

/-!
# From procedures to bodies

Every variable lives in a slot of its own.  Operands are computed from left to right.
An arm of a conditional hands its value to the block where the arms meet.  A loop runs
its body, its step and its end condition, in this order, before it raises the variable.

Lowering reads the symbols and changes nothing: a unit that fails leaves no trace.
-/

namespace LiveCompiler

open Ir

namespace Lowering

/-- What the names of functions stand for in a body.  A definition may call itself. -/
structure Names where
  self : Option (String × Binding)
  symbols : Symbols

/-- What a callee stands for; the name of the body itself comes first. -/
def Names.callee (names : Names) (name : String) : Option Binding :=
  match names.self with
  | some (own, binding) => if own = name then some binding else names.symbols.lookup name
  | none => names.symbols.lookup name

/-- The variables in scope with their slots, innermost first. -/
abbrev Scope := List (String × Slot)

/-- The instruction for an operator. -/
def operatorInstr? (op : Char) (left right : Reg) : Option (Reg → Instr) :=
  match op with
  | '+' => some fun dst => .arith .add dst left right
  | '-' => some fun dst => .arith .sub dst left right
  | '*' => some fun dst => .arith .mul dst left right
  | '<' => some fun dst => .less dst left right
  | _ => none

mutual

/-- Compute an expression; the result is the register that holds its value. -/
def compute (names : Names) (scope : Scope) : Expr → Lower Reg
  | .number value => Lower.appendTo fun dst => .const dst value
  | .variable name =>
    match scope.lookup name with
    | some slot => Lower.appendTo fun dst => .load dst slot
    | none => throw (.unknownVariable name)
  | .binary op left right => do
    let left ← compute names scope left
    let right ← compute names scope right
    match operatorInstr? op left right with
    | some instr => Lower.appendTo instr
    | none => throw (.unknownOperator op)
  | .call name args =>
    match names.callee name with
    | none => throw (.unknownFunction name)
    | some binding =>
      if binding.arity = args.length then do
        let values ← computeAll names scope args
        Lower.appendTo fun dst => .call dst binding.func values
      else
        throw (.arityMismatch name binding.arity args.length)
  | .ifThenElse condition onTrue onFalse => do
    let condition ← compute names scope condition
    let trueBlock ← Lower.freshBlock []
    let falseBlock ← Lower.freshBlock []
    let result ← Lower.freshReg
    let meetBlock ← Lower.freshBlock [result]
    Lower.endBlock
      (.branch condition { target := trueBlock, args := [] } { target := falseBlock, args := [] })
    -- An arm may open blocks of its own, so the jump leaves from the block it ends in.
    Lower.continueIn trueBlock
    let onTrue ← compute names scope onTrue
    Lower.endBlock (.jump { target := meetBlock, args := [onTrue] })
    Lower.continueIn falseBlock
    let onFalse ← compute names scope onFalse
    Lower.endBlock (.jump { target := meetBlock, args := [onFalse] })
    Lower.continueIn meetBlock
    return result
  | .forLoop loopVar start finish step body => do
    let start ← compute names scope start
    let slot ← Lower.freshSlot
    Lower.append (.store slot start)
    let loopBlock ← Lower.freshBlock []
    Lower.endBlock (.jump { target := loopBlock, args := [] })
    Lower.continueIn loopBlock
    let inner := (loopVar, slot) :: scope
    let _ ← compute names inner body
    let step ← computeStep names inner step
    -- The end condition still sees the variable as it was before the step.
    let goOn ← compute names inner finish
    let current ← Lower.appendTo fun dst => .load dst slot
    let next ← Lower.appendTo fun dst => .arith .add dst current step
    Lower.append (.store slot next)
    let afterBlock ← Lower.freshBlock []
    Lower.endBlock
      (.branch goOn { target := loopBlock, args := [] } { target := afterBlock, args := [] })
    Lower.continueIn afterBlock
    Lower.appendTo fun dst => .const dst 0.0

/-- Compute arguments from left to right. -/
def computeAll (names : Names) (scope : Scope) : List Expr → Lower (List Reg)
  | [] => return []
  | arg :: rest => do
    let value ← compute names scope arg
    let values ← computeAll names scope rest
    return value :: values

/-- Compute the step of a loop, which is one if none is given. -/
def computeStep (names : Names) (scope : Scope) : Option Expr → Lower Reg
  | none => Lower.appendTo fun dst => .const dst 1.0
  | some step => compute names scope step

end

/-- Store the arguments of the function into slots.  The index of a parameter has
sixteen bits. -/
def lowerParams (scope : Scope) (index : Nat) : List String → Lower Scope
  | [] => return scope
  | param :: rest => do
    let value ← Lower.appendTo fun dst => .param dst (UInt16.ofNat index)
    let slot ← Lower.freshSlot
    Lower.append (.store slot value)
    lowerParams ((param, slot) :: scope) (index + 1) rest

/-- Compute a body and return its value. -/
def lowerBody (names : Names) (procedure : Procedure) : Lower Unit := do
  let scope ← lowerParams [] 0 procedure.signature.params
  let result ← compute names scope procedure.body
  Lower.endBlock (.ret result)

/-- The first name that stands earlier in the list as well. -/
def firstRepeated? (seen : Std.TreeSet String) : List String → Option String
  | [] => none
  | name :: rest =>
    if seen.contains name then some name else firstRepeated? (seen.insert name) rest

/-- Check that the parameters of a signature differ, and that its name is not declared
with another number of parameters. -/
def acceptSignature (signature : Signature) (symbols : Symbols) : Except LoweringError Unit :=
  match firstRepeated? ∅ signature.params with
  | some param => throw (.duplicateParameter signature.name param)
  | none =>
    match symbols.lookup signature.name with
    | some existing =>
      if existing.kind = .external ∧ existing.arity ≠ signature.arity then
        throw (.conflictingSignature signature.name existing.arity signature.arity)
      else return ()
    | none => return ()

/-- The body of a procedure under a name.  A definition gets the position `this`, under
which it can call itself; anything else cannot be called by name. -/
def lowerProcedure (procedure : Procedure) (name : String) (this : FuncId) (kind : FunctionKind)
    (symbols : Symbols) : Except LoweringError Body := do
  let signature := procedure.signature
  let self ←
    if kind = .definition then do
      acceptSignature signature symbols
      pure (some (signature.name, { func := this, arity := signature.arity, kind := kind }))
    else pure none
  let names : Names := { self := self, symbols := symbols }
  let (_, builder) ← (lowerBody names procedure).run (Builder.start name signature.arity)
  return builder.body

end Lowering

end LiveCompiler
