import LiveCompiler.Pass.Basic

/-!
# Ownership of slots

Only loads and stores touch a slot, so every slot of the table is exclusive to its body.
A slot that is used but not in the table cannot be followed; the table grows to hold it,
and what is added counts as shared.
-/

namespace LiveCompiler

open Ir

namespace SlotOwnership

/-- The slot that an instruction touches. -/
def touched : Instr → Option Slot
  | .load _ slot => some slot
  | .store slot _ => some slot
  | _ => none

/-- The least table size that holds every slot in use. -/
def sizeInUse (body : Body) : Nat :=
  body.blocks.foldl
    (fun size b => (b.instrs.filterMap touched).foldl (fun size slot => max size (slot + 1)) size)
    body.slots.length

/-- Who owns each slot of a body. -/
def owners (body : Body) : List Ownership :=
  let known := body.slots.length
  List.replicate known .exclusive ++ List.replicate (sizeInUse body - known) .shared

/-- Write the owners into the slot table. -/
def run (body : Body) : Body × Bool :=
  let found := owners body
  ({ body with slots := found }, found != body.slots)

end SlotOwnership

/-- The pass that classifies slots. -/
def slotOwnership : Pass where
  name := "alias-hints"
  run := SlotOwnership.run

end LiveCompiler
