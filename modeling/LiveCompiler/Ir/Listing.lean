import LiveCompiler.Binary64.Text
import LiveCompiler.Ir.Basic

/-!
# Listings of bodies

The text form of a body: its slots with who may touch them, then each block with its label,
parameters, instructions and terminator.
-/

namespace LiveCompiler

/-- How listings and messages name a function of the image. -/
def FuncId.text (f : FuncId) : String :=
  "fn" ++ toString f

namespace Ir

/-- The text of a register. -/
def regText (r : Reg) : String :=
  "r" ++ toString r

/-- The text of a slot. -/
def slotText (s : Slot) : String :=
  "s" ++ toString s

/-- The text of a label. -/
def labelText (l : Label) : String :=
  "block" ++ toString l

/-- Registers with commas between them. -/
def regsText (regs : List Reg) : String :=
  String.intercalate ", " (regs.map regText)

/-- Registers in brackets, or nothing if there are none. -/
def bracketedRegs (regs : List Reg) : String :=
  if regs.isEmpty then "" else "(" ++ regsText regs ++ ")"

/-- The text of an edge. -/
def Edge.text (e : Edge) : String :=
  labelText e.target ++ bracketedRegs e.args

/-- The text of an instruction. -/
def Instr.text : Instr → String
  | .const dst value => regText dst ++ " = const " ++ Binary64.constantText value
  | .param dst index => regText dst ++ " = param " ++ toString index.toNat
  | .load dst slot => regText dst ++ " = load " ++ slotText slot
  | .store slot src => "store " ++ slotText slot ++ ", " ++ regText src
  | .arith op dst left right =>
    regText dst ++ " = " ++ op.mnemonic ++ " " ++ regText left ++ ", " ++ regText right
  | .less dst left right =>
    regText dst ++ " = " ++ lessThanMnemonic ++ " " ++ regText left ++ ", " ++ regText right
  | .call dst callee args =>
    regText dst ++ " = call " ++ FuncId.text callee ++ "(" ++ regsText args ++ ")"

/-- The text of a terminator. -/
def Terminator.text : Terminator → String
  | .ret value => "ret " ++ regText value
  | .jump edge => "jump " ++ edge.text
  | .branch condition onTrue onFalse =>
    "brif " ++ regText condition ++ ", " ++ onTrue.text ++ ", " ++ onFalse.text
  | .unreachable => "unreachable"

/-- One line of the inside of a block. -/
def blockLine (text : String) : String :=
  "    " ++ text ++ "\n"

/-- The text of a block with a label. -/
def Block.text (label : Label) (b : Block) : String :=
  labelText label ++ bracketedRegs b.params ++ ":\n" ++
    String.join (b.instrs.map fun i => blockLine i.text) ++ blockLine b.terminator.text

/-- The line of a slot in the slot table. -/
def slotLine (slot : Slot) (owner : Ownership) : String :=
  "  " ++ slotText slot ++ ": " ++ owner.text ++ "\n"

/-- The listing of a body whose blocks stand under labels of their own. -/
def Body.listingUnder (label : Nat → Label) (body : Body) : String :=
  "function " ++ body.name ++ "/" ++ toString body.arity ++ " \x7b\n" ++
    String.join (body.slots.mapIdx slotLine) ++
    String.join (body.blocks.mapIdx fun position b => b.text (label position)) ++ "\x7d\n"

/-- The listing of a body.  The label of a block is its position. -/
def Body.listing (body : Body) : String :=
  body.listingUnder id

end Ir

end LiveCompiler
