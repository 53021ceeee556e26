import LiveCompiler.Ir.Flow
import LiveCompiler.Pass.Basic
import LiveCompiler.Pass.Substitution

/-!
# Value numbering

A pure instruction that repeats one in a dominating place is taken out, and the earlier
register takes the place of its own.  A block inherits what is known at the end of its
parent in the dominator tree.  Calls, loads and stores are left alone.
-/

namespace LiveCompiler

open Ir

namespace ValueNumbering

/-- What an instruction computes.  Equal keys give equal values. -/
inductive Key where
  /-- The bits of a constant, so that the two zeros differ. -/
  | const (bits : UInt64)
  | param (index : UInt16)
  | arith (op : ArithOp) (left right : Reg)
  | less (left right : Reg)
deriving DecidableEq, Repr

/-- The key of a pure instruction.  If the operands may change places, the one with the
higher number comes first. -/
def keyOf : Instr → Option Key
  | .const _ value => some (.const value.toBits)
  | .param _ index => some (.param index)
  | .arith op _ left right =>
    if op.isCommutative && left < right then some (.arith op right left)
    else some (.arith op left right)
  | .less _ left right => some (.less left right)
  | .load _ _ => none
  | .store _ _ => none
  | .call _ _ _ => none

/-- What is computed already and in which register. -/
abbrev Known := List (Key × Reg)

/-- The state of the walk. -/
structure Walk where
  body : Body
  replaced : Substitution
  changed : Bool
  /-- What is known at the end of each block that has been visited. -/
  atEnd : List (Label × Known)

/-- Number the instructions of a block.  The flag tells whether one was taken out. -/
def numberInstrs :
    List Instr → Known → Substitution → Bool → List Instr × Known × Substitution × Bool
  | [], known, replaced, changed => ([], known, replaced, changed)
  | i :: rest, known, replaced, changed =>
    let i := i.renameUses replaced.representative
    match keyOf i, i.dst with
    | some key, some dst =>
      match known.lookup key with
      | some earlier => numberInstrs rest known (replaced.insert dst earlier) true
      | none =>
        let (kept, state) := numberInstrs rest ((key, dst) :: known) replaced changed
        (i :: kept, state)
    | _, _ =>
      let (kept, state) := numberInstrs rest known replaced changed
      (i :: kept, state)

/-- Visit one block of the dominator tree, after its parent. -/
def numberBlock (w : Walk) (visit : Label × Option Label) : Walk :=
  let (label, parent) := visit
  let inherited := (parent.bind fun p => w.atEnd.lookup p).getD []
  let (kept, known, replaced, changed) :=
    numberInstrs (w.body.block label).instrs inherited w.replaced w.changed
  { body := w.body.modifyBlock label fun b => { b with instrs := kept }
    replaced := replaced
    changed := changed
    atEnd := (label, known) :: w.atEnd }

/-- Number the values of a body. -/
def run (body : Body) : Body × Bool :=
  let start : Walk :=
    { body := body, replaced := Substitution.empty, changed := false, atEnd := [] }
  let walked := body.dominance.preorder.foldl numberBlock start
  (walked.replaced.apply walked.body, walked.changed)

end ValueNumbering

/-- The pass that merges repeated computations. -/
def valueNumbering : Pass where
  name := "gvn"
  run := ValueNumbering.run

end LiveCompiler
