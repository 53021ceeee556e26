import LiveCompiler.Ir.Basic

/-!
# Passes over a body

A pass improves one body and tells whether it changed anything.  A pipeline runs passes
one after another.
-/

namespace LiveCompiler

open Ir

/-- A named change to bodies. -/
structure Pass where
  name : String
  run : Body → Body × Bool

/-- Run passes in order; the flag tells whether any of them changed the body. -/
def runPasses (passes : List Pass) (body : Body) : Body × Bool :=
  passes.foldl
    (fun state pass =>
      let (after, changed) := pass.run state.1
      (after, state.2 || changed))
    (body, false)

end LiveCompiler
