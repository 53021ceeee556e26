import LiveCompiler.Ir.Flow
import LiveCompiler.Pass.Basic
import LiveCompiler.Pass.Forwarding

/-!
# Cleanup of the control flow

A branch whose way is known becomes a jump, parameters that get one single value are
forwarded, and a block that is entered by one jump only is joined to the block that
jumps to it.  This goes on until nothing changes.  Then the blocks that the entry does
not lead to are dropped and the labels are closed up.
-/

namespace LiveCompiler

open Ir

namespace FlowCleanup

/-- The registers that are written by constants, the last in the body first. -/
def constants (body : Body) : List (Reg × Float) :=
  (body.blocks.flatMap fun b =>
    b.instrs.filterMap fun
      | .const dst value => some (dst, value)
      | _ => none).reverse

/-- The edge that a branch is known to take. -/
def knownEdge? (constants : List (Reg × Float)) : Terminator → Option Edge
  | .branch condition onTrue onFalse =>
    if onTrue = onFalse then some onTrue
    else
      (constants.lookup condition).map fun value =>
        if countsAsTrue value then onTrue else onFalse
  | _ => none

/-- Turn the branches with a known way into jumps. -/
def settleBranches (body : Body) : Body × Bool :=
  let constants := constants body
  (body.mapBlocks fun b =>
      match knownEdge? constants b.terminator with
      | some edge => { b with terminator := .jump edge }
      | none => b,
    body.blocks.any fun b => (knownEdge? constants b.terminator).isSome)

/-- The state of a round of joins. -/
structure Joining where
  body : Body
  /-- The number of edges into each block, from blocks that the entry leads to. -/
  entering : List Nat
  changed : Bool

/-- The number of edges into each block, from blocks that the entry leads to. -/
def enteringEdges (body : Body) (order : List Label) : List Nat :=
  let targets := order.flatMap fun label => (body.block label).terminator.successors
  (List.range body.blocks.length).map fun label => targets.count label

/-- The edge of a jump that is the only way into another block, which is not the
entry. -/
def onlyJump? (s : Joining) (label : Label) : Option Edge :=
  match (s.body.block label).terminator with
  | .jump edge =>
    if edge.target ≠ label ∧ edge.target ≠ s.body.entry ∧ s.entering[edge.target]? = some 1 then
      some edge
    else none
  | _ => none

/-- Join the target of a jump to the block that jumps.  The values that the edge passes
take the place of the parameters. -/
def join (s : Joining) (label : Label) (edge : Edge) : Joining :=
  let target := s.body.block edge.target
  let emptied := s.body.modifyBlock edge.target fun _ => Block.empty
  let joined := emptied.modifyBlock label fun b =>
    { b with instrs := b.instrs ++ target.instrs, terminator := target.terminator }
  -- Of two parameters in one register the later one counts.
  let values := (target.params.zip edge.args).reverse
  { body := if values.isEmpty then joined else joined.renameUses fun r => (values.lookup r).getD r
    -- The target has no edges left; those it had now start at the block that jumped.
    entering := s.entering.set edge.target 0
    changed := true }

/-- Join blocks to one block, for at most so many blocks. -/
def joinFrom (label : Label) : Nat → Joining → Joining
  | 0, s => s
  | count + 1, s =>
    match onlyJump? s label with
    | some edge => joinFrom label count (join s label edge)
    | none => s

/-- Join blocks wherever one jump is the only way into the second. -/
def joinBlocks (body : Body) : Body × Bool :=
  let order := body.order
  let start : Joining :=
    { body := body, entering := enteringEdges body order, changed := false }
  let joined := order.foldl (fun s label => joinFrom label body.blocks.length s) start
  (joined.body, joined.changed)

/-- One round of the three steps. -/
def round (body : Body) : Body × Bool :=
  let (folded, foldedAny) := settleBranches body
  let (forwarded, forwardedAny) := forwardParams folded
  let (joined, joinedAny) := joinBlocks forwarded
  (joined, foldedAny || forwardedAny || joinedAny)

/-- A bound on the rounds that change something: a round takes away an edge of a branch,
a parameter, or the edge of a jump. -/
def weight (body : Body) : Nat :=
  body.edges.length + body.params.length

/-- Make rounds until one changes nothing, at most so many. -/
def rounds : Nat → Body → Body × Bool
  | 0, body => (body, false)
  | count + 1, body =>
    let (after, changed) := round body
    if changed then ((rounds count after).1, true) else (after, false)

/-- The new label of a block that stays: how many of those before it stay. -/
def newLabel (reached : Label → Bool) (label : Label) : Label :=
  ((List.range label).filter reached).length

/-- Give an edge the new label of its target. -/
def relabel (reached : Label → Bool) (e : Edge) : Edge :=
  if reached e.target then { e with target := newLabel reached e.target } else e

/-- Drop the blocks that the entry does not lead to and close up the labels. -/
def dropUnreachable (body : Body) : Body × Bool :=
  let search := body.graph.search body.entry
  let reached (label : Label) : Bool := search.seen.getD label false
  if search.finished.length = body.blocks.length then (body, false)
  else
    let kept := ((List.range body.blocks.length).filter reached).map body.block
    let relabelled := kept.map fun b =>
      { b with terminator := b.terminator.mapEdges (relabel reached) }
    ({ body with
        blocks := relabelled
        entry := if reached body.entry then newLabel reached body.entry else body.entry },
      true)

/-- Clean up a body. -/
def run (body : Body) : Body × Bool :=
  let (settled, changed) := rounds (weight body + 1) body
  let (dropped, droppedAny) := dropUnreachable settled
  (dropped, changed || droppedAny)

end FlowCleanup

/-- The pass that cleans up the control flow. -/
def flowCleanup : Pass where
  name := "simplify-cfg"
  run := FlowCleanup.run

end LiveCompiler
