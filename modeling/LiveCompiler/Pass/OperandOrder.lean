import LiveCompiler.Ir.Flow
import LiveCompiler.Pass.Basic

/-!
# Order of operands

Where the operands of an operation may change places, the one of higher rank goes to the
left.  Constants have the lowest rank, then come the arguments of the function, then all
other values by the place of their block in the search order.  Operations are never
regrouped, as neither sums nor products of doubles are associative.
-/

namespace LiveCompiler

open Ir

namespace OperandOrder

/-- Ranks of registers, the latest first. -/
abbrev Ranks := List (Reg × Nat)

/-- The rank of the value that an instruction writes. -/
def instrRank (blockRank : Nat) : Instr → Nat
  | .const _ _ => 0
  | .param _ index => 1 + index.toNat
  | _ => blockRank

/-- Rank what a block writes. -/
def rankBlock (blockRank : Nat) (ranks : Ranks) (b : Block) : Ranks :=
  let withParams := b.params.foldl (fun ranks r => (r, blockRank) :: ranks) ranks
  b.instrs.foldl
    (fun ranks i =>
      match i.dst with
      | some dst => (dst, instrRank blockRank i) :: ranks
      | none => ranks)
    withParams

/-- Rank what the blocks of the search order write. -/
def ranks (body : Body) : Ranks :=
  (body.order.foldl
    (fun (state : Nat × Ranks) label =>
      (state.1 + 1, rankBlock state.1 state.2 (body.block label)))
    (body.arity + 2, [])).2

/-- Whether the left operand comes below the right one; equal ranks go by number. -/
def isBelow (ranks : Ranks) (left right : Reg) : Bool :=
  let l := (ranks.lookup left).getD 0
  let r := (ranks.lookup right).getD 0
  l < r || (l == r && left < right)

/-- Whether an instruction has its operands in the wrong order. -/
def isMisordered (ranks : Ranks) : Instr → Bool
  | .arith op _ left right => op.isCommutative && isBelow ranks left right
  | _ => false

/-- Exchange the operands of an operation. -/
def exchange : Instr → Instr
  | .arith op dst left right => .arith op dst right left
  | i => i

/-- Put the operands of all operations in order. -/
def run (body : Body) : Body × Bool :=
  let ranks := ranks body
  (body.mapBlocks fun b =>
      { b with instrs := b.instrs.map fun i => if isMisordered ranks i then exchange i else i },
    body.blocks.any fun b => b.instrs.any (isMisordered ranks))

end OperandOrder

/-- The pass that puts operands in order. -/
def operandOrder : Pass where
  name := "reassociate"
  run := OperandOrder.run

end LiveCompiler
