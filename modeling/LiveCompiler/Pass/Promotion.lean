import LiveCompiler.Ir.Flow
import LiveCompiler.Pass.Basic
import LiveCompiler.Pass.Forwarding
import LiveCompiler.Pass.Substitution

/-!
# Promotion of slots to registers

An exclusive slot needs no memory.  Where paths with different stores meet, the block
gets a parameter for the slot: these are the iterated frontiers of the storing blocks.
A walk over the dominator tree then puts the value that reaches a load in its place and
passes the current values along the edges.  A load that no store reaches gives zero.
-/

namespace LiveCompiler

open Ir

namespace Promotion

/-- The slots that can be promoted. -/
def promotable (body : Body) : List Slot :=
  (List.range body.slots.length).filter fun slot => body.slots[slot]? == some .exclusive

/-- Empty the blocks that the entry does not lead to; their labels stay. -/
def emptyUnreached (d : Dominance) (body : Body) : Body :=
  { body with
    blocks := body.blocks.mapIdx fun label b => if d.isReachable label then b else Block.empty }

/-- Whether a block stores to a slot. -/
def storesTo (slot : Slot) (b : Block) : Bool :=
  b.instrs.any fun
    | .store s _ => s == slot
    | _ => false

/-- The state of the search for the places of parameters. -/
structure Placing where
  /-- Blocks whose frontiers are still to be looked at, the next one first. -/
  work : List Label
  /-- Blocks that are or were in `work`. -/
  queued : List Label
  /-- Blocks that get a parameter, in the order in which they were found. -/
  placed : List Label

/-- Give a parameter to one block of a frontier. -/
def Placing.place (s : Placing) (label : Label) : Placing :=
  if s.placed.contains label then s
  else
    let found := { s with placed := s.placed ++ [label] }
    if s.queued.contains label then found
    else { found with work := label :: s.work, queued := label :: s.queued }

/-- Look at the frontiers of the blocks in work, for at most so many blocks. -/
def iterate (frontier : Label → List Label) : Nat → Placing → Placing
  | 0, s => s
  | count + 1, s =>
    match s.work with
    | [] => s
    | label :: rest =>
      iterate frontier count ((frontier label).foldl Placing.place { s with work := rest })

/-- The blocks that need a parameter for a slot which the given blocks store to.  Every
block is in work at most once. -/
def placesFor (frontier : Label → List Label) (blockCount : Nat) (storing : List Label) :
    List Label :=
  -- The block found last is looked at first, also among those that store.
  let start : Placing := { work := storing.reverse, queued := storing, placed := [] }
  (iterate frontier blockCount start).placed

/-- A parameter that stands for a slot at the start of a block. -/
structure SlotParam where
  label : Label
  slot : Slot
  reg : Reg
deriving DecidableEq, Repr

/-- All places of parameters, slot by slot. -/
def places (d : Dominance) (body : Body) (slots : List Slot) : List (Label × Slot) :=
  let frontiers := d.frontiers.toArray
  slots.flatMap fun slot =>
    let storing := d.order.filter fun label => storesTo slot (body.block label)
    (placesFor (fun label => frontiers.getD label []) body.blocks.length storing).map
      fun label => (label, slot)

/-- Hand out registers for the parameters. -/
def slotParams (d : Dominance) (body : Body) (slots : List Slot) : List SlotParam :=
  (places d body slots).mapIdx fun i place =>
    { label := place.1, slot := place.2, reg := body.regCount + i }

/-- The parameters of a block that stand for slots. -/
def paramsOf (params : List SlotParam) (label : Label) : List SlotParam :=
  params.filter fun p => p.label == label

/-- Append the parameters to their blocks. -/
def appendSlotParams (body : Body) (params : List SlotParam) : Body :=
  { body with
    regCount := body.regCount + params.length
    blocks := body.blocks.mapIdx fun label b =>
      { b with params := b.params ++ (paramsOf params label).map SlotParam.reg } }

/-- The register that holds each slot, the latest store first. -/
abbrev Current := List (Slot × Reg)

/-- The state of the walk. -/
structure Renaming where
  body : Body
  replaced : Substitution
  /-- Some load or edge took the zero of a slot that was never stored to. -/
  usesZero : Bool
  /-- The current registers at the end of each block that has been visited. -/
  atEnd : List (Label × Current)

/-- The register that holds a slot; `zeroReg` if nothing was stored. -/
def holding (zeroReg : Reg) (current : Current) (slot : Slot) : Reg :=
  (current.lookup slot).getD zeroReg

/-- Take the loads and stores of promoted slots out of a list of instructions. -/
def renameInstrs (slots : List Slot) (zeroReg : Reg) :
    List Instr → Current → Substitution → Bool →
      List Instr × Current × Substitution × Bool
  | [], current, replaced, usesZero => ([], current, replaced, usesZero)
  | .load dst slot :: rest, current, replaced, usesZero =>
    if slots.contains slot then
      renameInstrs slots zeroReg rest current
        (replaced.insert dst (holding zeroReg current slot))
        (usesZero || (current.lookup slot).isNone)
    else
      let (kept, state) := renameInstrs slots zeroReg rest current replaced usesZero
      (.load dst slot :: kept, state)
  | .store slot src :: rest, current, replaced, usesZero =>
    if slots.contains slot then
      renameInstrs slots zeroReg rest ((slot, replaced.representative src) :: current) replaced
        usesZero
    else
      let (kept, state) := renameInstrs slots zeroReg rest current replaced usesZero
      (.store slot src :: kept, state)
  | i :: rest, current, replaced, usesZero =>
    let (kept, state) := renameInstrs slots zeroReg rest current replaced usesZero
    (i :: kept, state)

/-- Pass the current registers to the parameters of the target. -/
def feedEdge (params : List SlotParam) (zeroReg : Reg) (current : Current) (e : Edge) : Edge :=
  { e with
    args := e.args ++ (paramsOf params e.target).map fun p => holding zeroReg current p.slot }

/-- Whether an edge passes the zero of a slot that was never stored to. -/
def feedsZero (params : List SlotParam) (current : Current) (e : Edge) : Bool :=
  (paramsOf params e.target).any fun p => (current.lookup p.slot).isNone

/-- Visit one block of the dominator tree, after its parent. -/
def renameBlock (slots : List Slot) (params : List SlotParam) (zeroReg : Reg) (s : Renaming)
    (visit : Label × Option Label) : Renaming :=
  let (label, parent) := visit
  -- A block that stores a slot on another branch of the tree does not reach this one.
  let inherited := (parent.bind fun p => s.atEnd.lookup p).getD []
  let entering := (paramsOf params label).foldl
    (fun current p => (p.slot, p.reg) :: current) inherited
  let b := s.body.block label
  let (kept, current, replaced, usesZero) :=
    renameInstrs slots zeroReg b.instrs entering s.replaced s.usesZero
  { body := s.body.modifyBlock label fun b =>
      { b with
        instrs := kept
        terminator := b.terminator.mapEdges (feedEdge params zeroReg current) }
    replaced := replaced
    usesZero := usesZero || b.terminator.edges.any (feedsZero params current)
    atEnd := (label, current) :: s.atEnd }

/-- Put the values that reach the loads in their place.  The register for zero is written
at the start of the entry, if anything uses it. -/
def renameSlots (d : Dominance) (slots : List Slot) (params : List SlotParam) (body : Body) :
    Body :=
  let zeroReg := body.regCount
  let start : Renaming :=
    { body := { body with regCount := body.regCount + 1 }
      replaced := Substitution.empty
      usesZero := false
      atEnd := [] }
  let walked := d.preorder.foldl (renameBlock slots params zeroReg) start
  let zeroed :=
    if walked.usesZero then
      walked.body.modifyBlock body.entry fun b =>
        { b with instrs := .const zeroReg 0.0 :: b.instrs }
    else walked.body
  walked.replaced.apply zeroed

/-- The new number of a slot that stays: how many of those before it stay. -/
def slotAfter (slots : List Slot) (slot : Slot) : Slot :=
  ((List.range slot).filter fun s => !slots.contains s).length

/-- Renumber the slot of a load or store. -/
def renumber (f : Slot → Slot) : Instr → Instr
  | .load dst slot => .load dst (f slot)
  | .store slot src => .store (f slot) src
  | i => i

/-- Take the promoted slots out of the table and close the gaps.  Slots outside of the
table keep their number. -/
def closeSlotGaps (slots : List Slot) (body : Body) : Body :=
  let size := body.slots.length
  let f (slot : Slot) : Slot :=
    if slot < size ∧ slot ∉ slots then slotAfter slots slot else slot
  let kept := ((List.range size).filter fun s => !slots.contains s).filterMap (body.slots[·]?)
  { body with
    slots := kept
    blocks := body.blocks.map fun b => { b with instrs := b.instrs.map (renumber f) } }

/-- Promote all exclusive slots. -/
def run (body : Body) : Body × Bool :=
  let slots := promotable body
  if slots.isEmpty then (body, false)
  else
    let d := body.dominance
    let cleared := emptyUnreached d body
    let params := slotParams d cleared slots
    let renamed := renameSlots d slots params (appendSlotParams cleared params)
    ((forwardParams (closeSlotGaps slots renamed)).1, true)

end Promotion

/-- The pass that promotes slots. -/
def promotion : Pass where
  name := "mem2reg"
  run := Promotion.run

end LiveCompiler
