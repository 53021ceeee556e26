import LiveCompiler.Ir.Basic

/-!
# Forwarding of block parameters

A parameter that gets one single value on all edges into its block, itself left out, is
only another name for that value.  Such a parameter is dropped and the value takes its
place everywhere.  The search starts again after each drop, until no parameter is left
to drop.
-/

namespace LiveCompiler

open Ir

namespace Forwarding

/-- The values that a parameter gets on the edges into its block, itself left out. -/
def incoming (body : Body) (label : Label) (index : Nat) (param : Reg) : List Reg :=
  body.edges.filterMap fun e =>
    if e.target = label then e.args[index]?.filter (· != param) else none

/-- The only value in a list, if there is exactly one. -/
def single? : List Reg → Option Reg
  | [] => none
  | value :: rest => if rest.all (· == value) then some value else none

/-- A parameter and the value that can take its place. -/
structure Forward where
  label : Label
  index : Nat
  param : Reg
  value : Reg
deriving DecidableEq, Repr

/-- The first parameter from a position on that gets one single value. -/
def findParam? (body : Body) (label : Label) (index : Nat) : List Reg → Option Forward
  | [] => none
  | param :: rest =>
    match single? (incoming body label index param) with
    | some value => some { label := label, index := index, param := param, value := value }
    | none => findParam? body label (index + 1) rest

/-- The first such parameter in the blocks from a label on.  The parameters of the entry
are left alone. -/
def findFrom? (body : Body) (label : Label) : List Block → Option Forward
  | [] => none
  | b :: rest =>
    if label = body.entry then findFrom? body (label + 1) rest
    else
      match findParam? body label 0 b.params with
      | some forward => some forward
      | none => findFrom? body (label + 1) rest

/-- The first parameter of a body that can be dropped. -/
def find? (body : Body) : Option Forward :=
  findFrom? body 0 body.blocks

/-- Take the value for a dropped parameter off the edges into its block. -/
def dropArg (forward : Forward) (e : Edge) : Edge :=
  if e.target = forward.label then { e with args := e.args.eraseIdx forward.index } else e

/-- Drop a parameter and put its value in its place. -/
def drop (body : Body) (forward : Forward) : Body :=
  let shortened := body.modifyBlock forward.label fun b =>
    { b with params := b.params.eraseIdx forward.index }
  let fed := shortened.mapBlocks fun b =>
    { b with terminator := b.terminator.mapEdges (dropArg forward) }
  fed.renameUses fun r => if r = forward.param then forward.value else r

/-- Drop parameters for at most so many rounds. -/
def rounds : Nat → Body → Body × Bool
  | 0, body => (body, false)
  | count + 1, body =>
    match find? body with
    | none => (body, false)
    | some forward => ((rounds count (drop body forward)).1, true)

end Forwarding

/-- Drop block parameters that get one single value.  Each round drops one, so there are
no more rounds than parameters. -/
def forwardParams (body : Body) : Body × Bool :=
  Forwarding.rounds body.params.length body

end LiveCompiler
