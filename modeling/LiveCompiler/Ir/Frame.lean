import LiveCompiler.Ir.Basic
import LiveCompiler.Ir.Cells

/-!
# Running a body

A frame is a body that is being run: the instructions left in its block and one bank of
cells.  The cell of a register has the register's own number; the slots come behind the
registers that were handed out.  So slots and registers keep apart in a body that uses no
other registers (`load_write_of_lt`, `read_store_of_lt`), and a register beyond them shares
its cell with a slot.  What was never written holds zero.

A step does one instruction or takes one edge.  A call is not done by the frame; the step
hands it out and the frame goes on when it is given the result.
-/

namespace LiveCompiler

namespace Ir

/-- The cell of a slot. -/
def Body.slotCell (body : Body) (slot : Slot) : Nat :=
  body.regCount + slot

/-- The number of cells of a body: one for each register and each slot. -/
def Body.cellCount (body : Body) : Nat :=
  body.regCount + body.slots.length

/-- A body that is being run. -/
structure Frame where
  body : Body
  args : Array Float
  /-- The instructions left in the block. -/
  rest : List Instr
  terminator : Terminator
  cells : Cells

/-- What a step of a frame comes to. -/
inductive Step where
  /-- The frame goes on. -/
  | next (frame : Frame)
  /-- The frame waits for the result of a call, which goes into a register. -/
  | call (callee : FuncId) (args : List Float) (dst : Reg) (frame : Frame)
  | returned (value : Float)
  /-- The frame came to a place that is not to be reached. -/
  | trapped

namespace Frame

/-! ## Registers and slots -/

/-- Read a register. -/
def read (frame : Frame) (r : Reg) : Float :=
  frame.cells.get r

/-- Write a register. -/
def write (frame : Frame) (r : Reg) (x : Float) : Frame :=
  { frame with cells := frame.cells.set r x }

/-- Read a slot. -/
def load (frame : Frame) (slot : Slot) : Float :=
  frame.cells.get (frame.body.slotCell slot)

/-- Write a slot. -/
def store (frame : Frame) (slot : Slot) (x : Float) : Frame :=
  { frame with cells := frame.cells.set (frame.body.slotCell slot) x }

theorem read_write (frame : Frame) (r other : Reg) (x : Float) :
    (frame.write r x).read other = if other = r then x else frame.read other :=
  Cells.get_set frame.cells r other x

theorem load_store (frame : Frame) (slot other : Slot) (x : Float) :
    (frame.store slot x).load other = if other = slot then x else frame.load other := by
  simp only [store, load, Cells.get_set, Body.slotCell, Nat.add_left_cancel_iff]

/-- A register that was handed out is no slot. -/
theorem load_write_of_lt (frame : Frame) {r : Reg} (slot : Slot) (x : Float)
    (h : r < frame.body.regCount) : (frame.write r x).load slot = frame.load slot :=
  Cells.get_set_of_ne frame.cells x
    (Nat.ne_of_gt (Nat.lt_of_lt_of_le h (Nat.le_add_right _ slot)))

/-- A slot is no register that was handed out. -/
theorem read_store_of_lt (frame : Frame) {r : Reg} (slot : Slot) (x : Float)
    (h : r < frame.body.regCount) : (frame.store slot x).read r = frame.read r :=
  Cells.get_set_of_ne frame.cells x
    (Nat.ne_of_lt (Nat.lt_of_lt_of_le h (Nat.le_add_right _ slot)))

/-! ## Blocks -/

/-- Start a block.  The values for its parameters are bound from left to right. -/
def startBlock (frame : Frame) (label : Label) (values : List Float) : Frame :=
  let b := frame.body.block label
  { frame with
    rest := b.instrs
    terminator := b.terminator
    cells := frame.cells.setAll b.params values }

/-- Start a body with arguments. -/
def start (body : Body) (args : List Float) : Frame :=
  let frame : Frame :=
    { body := body
      args := args.toArray
      rest := []
      terminator := .unreachable
      cells := Cells.ofSize body.cellCount }
  frame.startBlock body.entry []

/-- Take an edge.  All values are read before the first parameter is bound. -/
def takeEdge (frame : Frame) (e : Edge) : Frame :=
  frame.startBlock e.target (e.args.map frame.read)

/-! ## Steps -/

/-- Do one instruction. -/
def doInstr (frame : Frame) : Instr → Step
  | .const dst value => .next (frame.write dst value)
  | .param dst index => .next (frame.write dst (frame.args.getD index.toNat 0.0))
  | .load dst slot => .next (frame.write dst (frame.load slot))
  | .store slot src => .next (frame.store slot (frame.read src))
  | .arith op dst left right =>
    .next (frame.write dst (op.apply (frame.read left) (frame.read right)))
  | .less dst left right =>
    .next (frame.write dst (lessThan (frame.read left) (frame.read right)))
  | .call dst callee args => .call callee (args.map frame.read) dst frame

/-- End the block. -/
def doTerminator (frame : Frame) : Terminator → Step
  | .ret value => .returned (frame.read value)
  | .jump edge => .next (frame.takeEdge edge)
  | .branch condition onTrue onFalse =>
    .next (frame.takeEdge (if countsAsTrue (frame.read condition) then onTrue else onFalse))
  | .unreachable => .trapped

/-- Do one step. -/
def step (frame : Frame) : Step :=
  match frame.rest with
  | i :: rest => { frame with rest := rest }.doInstr i
  | [] => frame.doTerminator frame.terminator

end Frame

end Ir

end LiveCompiler
