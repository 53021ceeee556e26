import LiveCompiler.Proofs.Lowering.Shape
import LiveCompiler.Proofs.Pass.Pipeline
import LiveCompiler.Proofs.Program.Image

/-!
# The bodies that a session keeps

A session keeps bodies that come out of lowering, with or without the standard pipeline.  Either
way the code generator finds nothing wrong with them, in any block, and every call passes as many
values as the binding of the called name says (`Prepared`).

Lowering says this of all blocks at once.  The pipeline says it of the blocks that the entry
leads to, and leaves no others.
-/

namespace LiveCompiler

open Ir

/-- What a session relies on in a body of a given arity. -/
structure Ir.Body.Prepared (callable : FuncId → Nat → Prop) (arity : Nat) (body : Body) :
    Prop where
  wellFormed : body.WellFormed callable
  fits : body.Fits arity
  calls : ∀ b ∈ body.blocks, ∀ dst callee args, Instr.call dst callee args ∈ b.instrs →
    callable callee args.length

namespace Ir.Body

variable {callable other : FuncId → Nat → Prop} {arity : Nat} {body : Body}

/-- A well-formed body with calls of another kind. -/
theorem WellFormed.calling (h : body.WellFormed callable)
    (hCalls : ∀ label, body.Reached label → ∀ dst callee args,
      Instr.call dst callee args ∈ (body.block label).instrs → other callee args.length) :
    body.WellFormed other where
  entry_lt := h.entry_lt
  entry_params := h.entry_params
  entry_first := h.entry_first
  defs_nodup := h.defs_nodup
  defs_unique := h.defs_unique
  defs_lt := h.defs_lt
  uses_known := h.uses_known
  exit_known := h.exit_known
  edge_fits := h.edge_fits
  ends := h.ends
  legal label hReached i hi := by
    have hLegal := h.legal label hReached i hi
    cases i with
    | call dst callee args => exact hCalls label hReached dst callee args hi
    | _ => exact hLegal

theorem WellFormed.imp (h : body.WellFormed callable)
    (hImp : ∀ f count, callable f count → other f count) : body.WellFormed other :=
  h.calling fun label hReached _ _ _ hi => hImp _ _ (h.legal label hReached _ hi)

theorem Prepared.imp (h : body.Prepared callable arity)
    (hImp : ∀ f count, callable f count → other f count) : body.Prepared other arity where
  wellFormed := h.wellFormed.imp hImp
  fits := h.fits
  calls b hb dst callee args hi := hImp _ _ (h.calls b hb dst callee args hi)

/-- A prepared body is prepared for calls of what it calls. -/
theorem Prepared.onlyCallees (h : body.Prepared callable arity) :
    body.Prepared (fun f _ => f ∈ calleesOf body) arity where
  wellFormed := h.wellFormed.calling fun _ _ dst _ args hi =>
    mem_calleesOf.mpr ⟨_, block_mem_of_instr hi, dst, args, hi⟩
  fits := h.fits
  calls b hb dst _ args hi := mem_calleesOf.mpr ⟨b, hb, dst, args, hi⟩

/-- A body all whose blocks keep to what a well-formed body says of the blocks that its entry
leads to. -/
theorem WellFormed.prepared (h : body.WellFormed callable) (hArity : body.arity = arity)
    (hEdges : ∀ label, label < body.blocks.length →
      ∀ e ∈ (body.block label).terminator.edges,
        e.target < body.blocks.length ∧ e.args.length = (body.block e.target).params.length)
    (hLegal : ∀ label, label < body.blocks.length → ∀ i ∈ (body.block label).instrs,
      i.Legal callable body.arity body.slots.length) : body.Prepared callable arity where
  wellFormed := h
  fits :=
    { arity_eq := hArity
      entry_lt := h.entry_lt
      entry_params := h.entry_params
      param_lt := by
        intro b hb dst index hi
        obtain ⟨label, hLt, rfl⟩ := List.mem_iff_getElem.mp hb
        rw [← block_of_lt hLt] at hi
        exact hLegal label hLt _ hi
      edge_fits := by
        intro b hb e he
        obtain ⟨label, hLt, rfl⟩ := List.mem_iff_getElem.mp hb
        rw [← block_of_lt hLt] at he
        exact hEdges label hLt e he }
  calls := by
    intro b hb dst callee args hi
    obtain ⟨label, hLt, rfl⟩ := List.mem_iff_getElem.mp hb
    rw [← block_of_lt hLt] at hi
    exact hLegal label hLt _ hi

end Ir.Body

/-- The pipeline keeps bodies prepared. -/
theorem prepared_optimize {callable : FuncId → Nat → Prop} {arity : Nat} {body : Body}
    (h : body.Prepared callable arity) (hTable : SlotOwnership.InTable body) :
    (optimize body).1.Prepared callable arity := by
  obtain ⟨hImproves, -, hAll⟩ := optimize_improves h.wellFormed hTable
  have hWf := hImproves.wellFormed
  exact hWf.prepared (hImproves.arity.trans h.fits.arity_eq)
    (fun label hLt => hWf.edge_fits label (hAll label hLt))
    (fun label hLt => hWf.legal label (hAll label hLt))

/-- The pipeline leaves no calls but those that were there. -/
theorem calleesOf_optimize {callable : FuncId → Nat → Prop} {arity : Nat} {body : Body}
    (h : body.Prepared callable arity) (hTable : SlotOwnership.InTable body) :
    ∀ f ∈ calleesOf (optimize body).1, f ∈ calleesOf body := by
  intro f hf
  obtain ⟨b, hb, dst, args, hi⟩ := mem_calleesOf.mp hf
  -- Bodies stay prepared for whatever kind of calls they have, so also for calls of what was
  -- called before.
  exact (prepared_optimize h.onlyCallees hTable).calls b hb dst f args hi

namespace Lowering

/-- Lowered bodies are prepared. -/
theorem prepared_lowerProcedure {procedure : Procedure} {name : String} {this : FuncId}
    {kind : FunctionKind} {symbols : Symbols} {body : Body}
    (h : lowerProcedure procedure name this kind symbols = .ok body) :
    body.Prepared (namesFor procedure this kind symbols).Callable
      procedure.signature.arity := by
  obtain ⟨⟨before, hCertified⟩, hArity, -⟩ := lowerProcedure_certified h
  exact (lowerProcedure_wellFormed h).prepared hArity
    (fun label _ e he => (hCertified.edge_fits label e he).2)
    (fun label _ => hCertified.legal label)

end Lowering

end LiveCompiler
