import LiveCompiler.Ir.Flow
import LiveCompiler.Pass.Basic
import LiveCompiler.Pass.Substitution

/-!
# Folding of operations

Operations on constants are computed, exact identities give way to their left operand,
and a constant moves to the right of an operation whose operands may change places.
Then pure instructions that nothing reads are taken out.

Only three identities are exact for every double, signed zeros and not-a-number
included: `x * 1`, `x - 0` and `x + -0`.
-/

namespace LiveCompiler

open Ir

namespace Folding

/-- Whether `x op c` is `x` for every `x`. -/
def isNeutralOnRight (op : ArithOp) (c : Float) : Bool :=
  match op with
  | .mul => c == 1.0
  | .sub => c.toBits == (0.0 : Float).toBits
  | .add => c.toBits == (-0.0 : Float).toBits

/-- The state of the sweep. -/
structure Sweep where
  /-- Registers known to hold a constant, the latest first. -/
  constants : List (Reg × Float)
  replaced : Substitution
  changed : Bool

/-- Nothing known yet. -/
def Sweep.start : Sweep where
  constants := []
  replaced := Substitution.empty
  changed := false

/-- The constant that a register holds, if it is known. -/
def Sweep.constant? (s : Sweep) (r : Reg) : Option Float :=
  s.constants.lookup r

/-- Note that a register holds a constant. -/
def Sweep.note (s : Sweep) (r : Reg) (value : Float) : Sweep :=
  { s with constants := (r, value) :: s.constants }

/-- Put a computed constant in the place of an operation. -/
def Sweep.compute (s : Sweep) (dst : Reg) (value : Float) : Instr × Sweep :=
  (.const dst value, { s.note dst value with changed := true })

/-- Let the left operand stand for an operation that is an identity. -/
def Sweep.dropIdentity (s : Sweep) (op : ArithOp) (dst left right : Reg) : Sweep :=
  match s.constant? right with
  | some c =>
    if isNeutralOnRight op c then
      { s with replaced := s.replaced.insert dst left, changed := true }
    else s
  | none => s

/-- Fold an operation whose operands are not both constant. -/
def Sweep.simplify (s : Sweep) (op : ArithOp) (dst left right : Reg) : Instr × Sweep :=
  if op.isCommutative && (s.constant? left).isSome then
    (.arith op dst right left, { s with changed := true }.dropIdentity op dst right left)
  else
    (.arith op dst left right, s.dropIdentity op dst left right)

/-- Fold one instruction whose operands have been replaced. -/
def Sweep.fold (s : Sweep) : Instr → Instr × Sweep
  | .const dst value => (.const dst value, s.note dst value)
  | .arith op dst left right =>
    match s.constant? left, s.constant? right with
    | some x, some y => s.compute dst (op.apply x y)
    | _, _ => s.simplify op dst left right
  | .less dst left right =>
    match s.constant? left, s.constant? right with
    | some x, some y => s.compute dst (lessThan x y)
    | _, _ => (.less dst left right, s)
  | i => (i, s)

/-- Fold instructions from first to last. -/
def foldInstrs (s : Sweep) : List Instr → List Instr × Sweep
  | [] => ([], s)
  | i :: rest =>
    let (folded, s) := s.fold (i.renameUses s.replaced.representative)
    let (more, s) := foldInstrs s rest
    (folded :: more, s)

/-- Fold the instructions of one block. -/
def foldBlock (state : Body × Sweep) (label : Label) : Body × Sweep :=
  let (body, s) := state
  let (folded, s) := foldInstrs s (body.block label).instrs
  (body.modifyBlock label fun b => { b with instrs := folded }, s)

/-- Fold the whole body.  The order of the search brings every definition before the
uses that it dominates. -/
def fold (body : Body) : Body × Bool :=
  let (folded, s) := body.order.foldl foldBlock (body, Sweep.start)
  (s.replaced.apply folded, s.changed)

/-- Whether an instruction does nothing but write a register that is not read. -/
def isDead (used : List Reg) (i : Instr) : Bool :=
  i.isPure && i.dst.any fun dst => !used.contains dst

/-- Take out the pure instructions that nothing reads now. -/
def dropOnce (body : Body) : Body :=
  let used := body.uses
  body.mapBlocks fun b => { b with instrs := b.instrs.filter fun i => !isDead used i }

/-- Take out dead instructions for at most so many rounds. -/
def dropRounds : Nat → Body → Body × Bool
  | 0, body => (body, false)
  | count + 1, body =>
    let after := dropOnce body
    if after.instrCount = body.instrCount then (body, false)
    else ((dropRounds count after).1, true)

/-- Take out pure instructions until all that are left are read.  Each round takes out
one at least. -/
def dropDead (body : Body) : Body × Bool :=
  dropRounds body.instrCount body

/-- Fold, then take out what is dead. -/
def run (body : Body) : Body × Bool :=
  let (folded, changed) := fold body
  let (swept, removed) := dropDead folded
  (swept, changed || removed)

end Folding

/-- The pass that folds operations. -/
def folding : Pass where
  name := "instcombine"
  run := Folding.run

end LiveCompiler
