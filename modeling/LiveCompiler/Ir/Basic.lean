/-!
# Function bodies in block form

A body is a list of blocks.  A block has parameters, straight-line instructions and one
terminator; it is named by its position in the list.  Every register holds a double and
is meant to be written in one place.  Slots are cells that can be written again.

Edges between blocks pass a value for each parameter of their target.
-/

namespace LiveCompiler

/-- The position of a function in the program image. -/
abbrev FuncId := Nat

namespace Ir

/-- A register of a body. -/
abbrev Reg := Nat

/-- A slot of a body. -/
abbrev Slot := Nat

/-- The position of a block in its body. -/
abbrev Label := Nat

/-- The arithmetic operations. -/
inductive ArithOp where
  | add
  | sub
  | mul
deriving DecidableEq, Repr

namespace ArithOp

/-- What an operation computes. -/
def apply : ArithOp → Float → Float → Float
  | add, x, y => x + y
  | sub, x, y => x - y
  | mul, x, y => x * y

/-- How listings name an operation. -/
def mnemonic : ArithOp → String
  | add => "fadd"
  | sub => "fsub"
  | mul => "fmul"

/-- Whether the operands may change places. -/
def isCommutative : ArithOp → Bool
  | add => true
  | sub => false
  | mul => true

end ArithOp

/-- The comparison: one if the left value is below the right one, else zero. -/
def lessThan (x y : Float) : Float :=
  if x < y then 1.0 else 0.0

/-- How listings name the comparison. -/
def lessThanMnemonic : String :=
  "fcmp.lt"

/-- Whether a value counts as true: it is ordered and not zero. -/
def countsAsTrue (x : Float) : Bool :=
  !x.isNaN && x != 0.0

/-- One instruction. -/
inductive Instr where
  | const (dst : Reg) (value : Float)
  /-- Read an argument of the function. -/
  | param (dst : Reg) (index : UInt16)
  | load (dst : Reg) (slot : Slot)
  | store (slot : Slot) (src : Reg)
  | arith (op : ArithOp) (dst left right : Reg)
  | less (dst left right : Reg)
  | call (dst : Reg) (callee : FuncId) (args : List Reg)

namespace Instr

/-- The register that an instruction writes. -/
def dst : Instr → Option Reg
  | const dst _ => some dst
  | param dst _ => some dst
  | load dst _ => some dst
  | store _ _ => none
  | arith _ dst _ _ => some dst
  | less dst _ _ => some dst
  | call dst _ _ => some dst

/-- The registers that an instruction reads, in order. -/
def uses : Instr → List Reg
  | const _ _ => []
  | param _ _ => []
  | load _ _ => []
  | store _ src => [src]
  | arith _ _ left right => [left, right]
  | less _ left right => [left, right]
  | call _ _ args => args

/-- Replace the registers that an instruction reads. -/
def renameUses (f : Reg → Reg) : Instr → Instr
  | const dst value => const dst value
  | param dst index => param dst index
  | load dst slot => load dst slot
  | store slot src => store slot (f src)
  | arith op dst left right => arith op dst (f left) (f right)
  | less dst left right => less dst (f left) (f right)
  | call dst callee args => call dst callee (args.map f)

@[simp] theorem dst_renameUses (f : Reg → Reg) (i : Instr) : (i.renameUses f).dst = i.dst := by
  cases i <;> rfl

@[simp] theorem uses_renameUses (f : Reg → Reg) (i : Instr) :
    (i.renameUses f).uses = i.uses.map f := by
  cases i <;> rfl

/-- Whether an instruction does nothing but write its register, from registers and
arguments alone. -/
def isPure : Instr → Bool
  | const _ _ => true
  | param _ _ => true
  | load _ _ => false
  | store _ _ => false
  | arith _ _ _ _ => true
  | less _ _ _ => true
  | call _ _ _ => false

end Instr

/-- An edge to a block, with a value for each parameter of it. -/
structure Edge where
  target : Label
  args : List Reg
deriving DecidableEq, Repr

namespace Edge

/-- Replace the registers that an edge passes. -/
def renameUses (f : Reg → Reg) (e : Edge) : Edge where
  target := e.target
  args := e.args.map f

end Edge

/-- How a block ends. -/
inductive Terminator where
  | ret (value : Reg)
  | jump (edge : Edge)
  /-- Take the first edge if the condition is truthy, else the second. -/
  | branch (condition : Reg) (onTrue onFalse : Edge)
  | unreachable
deriving DecidableEq, Repr

namespace Terminator

/-- The edges of a terminator, in order. -/
def edges : Terminator → List Edge
  | ret _ => []
  | jump edge => [edge]
  | branch _ onTrue onFalse => [onTrue, onFalse]
  | unreachable => []

/-- The targets of the edges, in order. -/
def successors (t : Terminator) : List Label :=
  t.edges.map Edge.target

/-- Replace the edges of a terminator. -/
def mapEdges (f : Edge → Edge) : Terminator → Terminator
  | ret value => ret value
  | jump edge => jump (f edge)
  | branch condition onTrue onFalse => branch condition (f onTrue) (f onFalse)
  | unreachable => unreachable

/-- The registers that a terminator reads outside of its edges. -/
def operands : Terminator → List Reg
  | ret value => [value]
  | jump _ => []
  | branch condition _ _ => [condition]
  | unreachable => []

/-- The registers that a terminator reads, those of its edges last. -/
def uses (t : Terminator) : List Reg :=
  t.operands ++ t.edges.flatMap Edge.args

/-- Replace the registers that a terminator reads. -/
def renameUses (f : Reg → Reg) : Terminator → Terminator
  | ret value => ret (f value)
  | jump edge => jump (edge.renameUses f)
  | branch condition onTrue onFalse =>
    branch (f condition) (onTrue.renameUses f) (onFalse.renameUses f)
  | unreachable => unreachable

@[simp] theorem successors_renameUses (f : Reg → Reg) (t : Terminator) :
    (t.renameUses f).successors = t.successors := by
  cases t <;> rfl

@[simp] theorem uses_renameUses (f : Reg → Reg) (t : Terminator) :
    (t.renameUses f).uses = t.uses.map f := by
  cases t <;> simp [renameUses, uses, operands, edges, Edge.renameUses]

end Terminator

/-- A block: parameters, straight-line instructions, one terminator.  A block holds no label: its
label is its position in the body, and a block that moves is labelled by its new position. -/
structure Block where
  params : List Reg
  instrs : List Instr
  terminator : Terminator

namespace Block

/-- A block without content. -/
def empty : Block where
  params := []
  instrs := []
  terminator := .unreachable

instance : Inhabited Block where
  default := empty

/-- Replace the registers that a block reads. -/
def renameUses (f : Reg → Reg) (b : Block) : Block where
  params := b.params
  instrs := b.instrs.map (Instr.renameUses f)
  terminator := b.terminator.renameUses f

/-- The registers that a block reads. -/
def uses (b : Block) : List Reg :=
  b.instrs.flatMap Instr.uses ++ b.terminator.uses

/-- The registers that a block writes, its parameters first. -/
def defs (b : Block) : List Reg :=
  b.params ++ b.instrs.filterMap Instr.dst

end Block

/-- Who may touch a slot. -/
inductive Ownership where
  | unknown
  /-- Nothing but the loads and stores of its body touches the slot. -/
  | exclusive
  | shared
deriving DecidableEq, Repr

/-- How listings name who may touch a slot. -/
def Ownership.text : Ownership → String
  | unknown => "unknown"
  | exclusive => "private"
  | shared => "may-alias"

/-- The body of a function. -/
structure Body where
  /-- The name in the source, for listings. -/
  name : String
  arity : Nat
  blocks : List Block
  entry : Label
  /-- How many registers have been handed out. -/
  regCount : Nat
  slots : List Ownership

namespace Body

/-- A body without blocks. -/
def empty (name : String) (arity : Nat) : Body where
  name := name
  arity := arity
  blocks := []
  entry := 0
  regCount := 0
  slots := []

/-- The block with a label. -/
def block (body : Body) (label : Label) : Block :=
  body.blocks.getD label Block.empty

/-- Change the block with a label. -/
def modifyBlock (body : Body) (label : Label) (f : Block → Block) : Body :=
  { body with blocks := body.blocks.modify label f }

/-- Change every block. -/
def mapBlocks (body : Body) (f : Block → Block) : Body :=
  { body with blocks := body.blocks.map f }

/-- Replace the registers that a body reads. -/
def renameUses (f : Reg → Reg) (body : Body) : Body :=
  body.mapBlocks (Block.renameUses f)

/-- All instructions, block by block. -/
def instrs (body : Body) : List Instr :=
  body.blocks.flatMap Block.instrs

/-- The number of instructions. -/
def instrCount (body : Body) : Nat :=
  body.instrs.length

/-- All block parameters, block by block. -/
def params (body : Body) : List Reg :=
  body.blocks.flatMap Block.params

/-- All edges, block by block. -/
def edges (body : Body) : List Edge :=
  body.blocks.flatMap fun b => b.terminator.edges

/-- All registers that are read. -/
def uses (body : Body) : List Reg :=
  body.blocks.flatMap Block.uses

end Body

end Ir

end LiveCompiler
