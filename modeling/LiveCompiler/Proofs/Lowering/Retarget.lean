import LiveCompiler.Proofs.Ir.Retarget
import LiveCompiler.Proofs.Lowering.Shape

/-!
# Lowering under other positions

The positions of functions come into a body from the symbols, and from the position of the body
itself where it is a definition; nothing in lowering depends on them.  If all names stand for
renamed positions, the body is retargeted and an error is the same (`lowerProcedure_retarget`).

Steps of the construction are taken on two sides, the second with the names of the second side
and on the retargeted builder (`Retargets`).
-/

namespace LiveCompiler

open Ir

/-- The binding of a renamed function. -/
def Binding.retarget (rename : FuncId → FuncId) (binding : Binding) : Binding :=
  { binding with func := rename binding.func }

/-- Symbols with the same names, which stand for renamed functions. -/
def Symbols.Retargets (rename : FuncId → FuncId) (symbols other : Symbols) : Prop :=
  ∀ name, other.lookup name = (symbols.lookup name).map (Binding.retarget rename)

/-- Rename the functions that a block in the making calls. -/
def BlockDraft.mapCallees (rename : FuncId → FuncId) (draft : BlockDraft) : BlockDraft :=
  { draft with instrs := draft.instrs.map (Instr.mapCallee rename) }

namespace Builder

variable {rename : FuncId → FuncId} {name : String} {b : Builder}

/-- A builder for a retargeted body. -/
def retarget (rename : FuncId → FuncId) (name : String) (b : Builder) : Builder :=
  { b with name := name, blocks := b.blocks.map (BlockDraft.mapCallees rename) }

theorem body_retarget (rename : FuncId → FuncId) (name : String) (b : Builder) :
    (b.retarget rename name).body = b.body.retarget rename name := by
  have hBlocks : (b.blocks.map (BlockDraft.mapCallees rename)).toList.map BlockDraft.block =
      (b.blocks.toList.map BlockDraft.block).map (Block.mapCallees rename) := by
    rw [Array.toList_map, List.map_map, List.map_map]
    refine List.map_congr_left fun draft _ => ?_
    simp [BlockDraft.mapCallees, BlockDraft.block, Block.mapCallees]
  exact congrArg (fun blocks => { b.body with name := name, blocks := blocks }) hBlocks

theorem map_mapCallees_modify {drafts : Array BlockDraft} {label : Label}
    {f g : BlockDraft → BlockDraft}
    (h : ∀ draft, g (draft.mapCallees rename) = (f draft).mapCallees rename) :
    (drafts.map (BlockDraft.mapCallees rename)).modify label g =
      (drafts.modify label f).map (BlockDraft.mapCallees rename) := by
  refine Array.ext_getElem? fun n => ?_
  simp only [Array.getElem?_modify, Array.getElem?_map]
  split <;> simp [Function.comp_def, h]

theorem append_retarget (b : Builder) (i : Instr) :
    (b.retarget rename name).append (i.mapCallee rename) = (b.append i).retarget rename name := by
  have hBlocks : ((b.retarget rename name).append (i.mapCallee rename)).blocks =
      ((b.append i).retarget rename name).blocks :=
    map_mapCallees_modify (f := fun draft => { draft with instrs := draft.instrs.push i })
      (g := fun draft => { draft with instrs := draft.instrs.push (i.mapCallee rename) })
      (by simp [BlockDraft.mapCallees])
  exact congrArg (fun blocks => { b with name := name, blocks := blocks }) hBlocks

theorem endBlock_retarget (b : Builder) (t : Terminator) :
    (b.retarget rename name).endBlock t = (b.endBlock t).retarget rename name := by
  have hBlocks : ((b.retarget rename name).endBlock t).blocks =
      ((b.endBlock t).retarget rename name).blocks :=
    map_mapCallees_modify (f := fun draft => { draft with terminator := t })
      (g := fun draft => { draft with terminator := t }) fun _ => rfl
  exact congrArg (fun blocks => { b with name := name, blocks := blocks }) hBlocks

theorem freshBlock_retarget (b : Builder) (params : List Reg) :
    (b.retarget rename name).freshBlock params =
      ((b.freshBlock params).1, (b.freshBlock params).2.retarget rename name) := by
  simp [freshBlock, retarget, BlockDraft.mapCallees, BlockDraft.start]

end Builder

namespace Lower

variable {α β : Type} {rename : FuncId → FuncId} {name : String}

/-- On a retargeted builder the second step comes to what the first one comes to. -/
def Retargets (rename : FuncId → FuncId) (name : String) (x other : Lower α) : Prop :=
  ∀ b : Builder, other.run (b.retarget rename name) =
    (x.run b).map fun result => (result.1, result.2.retarget rename name)

theorem Retargets.bind {x other : Lower α} {f g : α → Lower β}
    (h : Retargets rename name x other) (hNext : ∀ a, Retargets rename name (f a) (g a)) :
    Retargets rename name (x >>= f) (other >>= g) := by
  intro b
  rw [StateT.run_bind, StateT.run_bind, h b]
  cases x.run b with
  | error e => rfl
  | ok result => exact hNext result.1 result.2

theorem retargets_return (a : α) : Retargets rename name (return a) (return a) :=
  fun _ => rfl

theorem retargets_throw (e : LoweringError) :
    Retargets rename name (throw e : Lower α) (throw e) :=
  fun _ => rfl

theorem retargets_freshReg : Retargets rename name freshReg freshReg :=
  fun _ => rfl

theorem retargets_freshSlot : Retargets rename name freshSlot freshSlot :=
  fun _ => rfl

theorem retargets_freshBlock (params : List Reg) :
    Retargets rename name (freshBlock params) (freshBlock params) :=
  fun b => congrArg Except.ok (b.freshBlock_retarget params)

theorem retargets_append (i : Instr) :
    Retargets rename name (append i) (append (i.mapCallee rename)) :=
  fun b => congrArg (fun after => Except.ok ((), after)) (b.append_retarget i)

theorem retargets_endBlock (t : Terminator) :
    Retargets rename name (endBlock t) (endBlock t) :=
  fun b => congrArg (fun after => Except.ok ((), after)) (b.endBlock_retarget t)

theorem retargets_continueIn (label : Label) :
    Retargets rename name (continueIn label) (continueIn label) :=
  fun _ => rfl

theorem retargets_appendTo {i j : Reg → Instr} (h : ∀ dst, j dst = (i dst).mapCallee rename) :
    Retargets rename name (appendTo i) (appendTo j) := by
  refine retargets_freshReg.bind fun dst => ?_
  rw [h dst]
  exact (retargets_append (i dst)).bind fun _ => retargets_return dst

end Lower

namespace Lowering

open Lower

variable {rename : FuncId → FuncId} {name : String} {names other : Names}

/-- Names that stand for renamed functions. -/
def Names.Retargets (rename : FuncId → FuncId) (names other : Names) : Prop :=
  ∀ name, other.callee name = (names.callee name).map (Binding.retarget rename)

theorem retargets_computeAll (scope : Scope) (args : List Expr)
    (h : ∀ arg ∈ args, Lower.Retargets rename name (compute names scope arg)
      (compute other scope arg)) :
    Lower.Retargets rename name (computeAll names scope args) (computeAll other scope args) := by
  induction args with
  | nil => exact retargets_return []
  | cons arg rest ih =>
    rw [computeAll, computeAll]
    refine (h arg List.mem_cons_self).bind fun value => ?_
    refine (ih fun a ha => h a (List.mem_cons_of_mem arg ha)).bind fun values => ?_
    exact retargets_return (value :: values)

/-- Computing an expression with either names takes the same steps, in every scope. -/
def ComputesAlike (rename : FuncId → FuncId) (name : String) (names other : Names) (e : Expr) :
    Prop :=
  ∀ scope, Lower.Retargets rename name (compute names scope e) (compute other scope e)

theorem retargets_call (hNames : names.Retargets rename other) (callee : String) {args : List Expr}
    (ih : ∀ arg ∈ args, ComputesAlike rename name names other arg) :
    ComputesAlike rename name names other (.call callee args) := by
  intro scope
  rw [compute, compute, hNames callee]
  cases names.callee callee with
  | none => exact retargets_throw _
  | some binding =>
    simp only [Option.map_some, Binding.retarget]
    split
    · refine (retargets_computeAll scope args fun arg hArg => ih arg hArg scope).bind
        fun values => ?_
      exact retargets_appendTo fun _ => rfl
    · exact retargets_throw _

theorem retargets_ifThenElse {condition onTrue onFalse : Expr}
    (ihCondition : ComputesAlike rename name names other condition)
    (ihTrue : ComputesAlike rename name names other onTrue)
    (ihFalse : ComputesAlike rename name names other onFalse) :
    ComputesAlike rename name names other (.ifThenElse condition onTrue onFalse) := by
  intro scope
  rw [compute, compute]
  refine (ihCondition scope).bind fun c => ?_
  refine (retargets_freshBlock []).bind fun trueBlock => ?_
  refine (retargets_freshBlock []).bind fun falseBlock => ?_
  refine retargets_freshReg.bind fun result => ?_
  refine (retargets_freshBlock [result]).bind fun meetBlock => ?_
  refine (retargets_endBlock _).bind fun _ => (retargets_continueIn _).bind fun _ => ?_
  refine (ihTrue scope).bind fun x => ?_
  refine (retargets_endBlock _).bind fun _ => (retargets_continueIn _).bind fun _ => ?_
  refine (ihFalse scope).bind fun y => ?_
  refine (retargets_endBlock _).bind fun _ => (retargets_continueIn _).bind fun _ => ?_
  exact retargets_return result

theorem retargets_computeStep {step : Option Expr}
    (ih : ∀ s, step = some s → ComputesAlike rename name names other s) (scope : Scope) :
    Lower.Retargets rename name (computeStep names scope step) (computeStep other scope step) := by
  cases step with
  | none =>
    rw [computeStep, computeStep]
    exact retargets_appendTo fun _ => rfl
  | some s =>
    rw [computeStep, computeStep]
    exact ih s rfl scope

theorem retargets_forLoop (loopVar : String) {start finish body : Expr} {step : Option Expr}
    (ihStart : ComputesAlike rename name names other start)
    (ihFinish : ComputesAlike rename name names other finish)
    (ihStep : ∀ s, step = some s → ComputesAlike rename name names other s)
    (ihBody : ComputesAlike rename name names other body) :
    ComputesAlike rename name names other (.forLoop loopVar start finish step body) := by
  intro scope
  rw [compute, compute]
  refine (ihStart scope).bind fun first => retargets_freshSlot.bind fun slot => ?_
  refine (retargets_append (.store slot first)).bind fun _ => ?_
  refine (retargets_freshBlock []).bind fun loopBlock => ?_
  refine (retargets_endBlock _).bind fun _ => (retargets_continueIn _).bind fun _ => ?_
  refine (ihBody _).bind fun _ => (retargets_computeStep ihStep _).bind fun raise => ?_
  refine (ihFinish _).bind fun goOn => ?_
  refine (retargets_appendTo fun _ => rfl).bind fun current => ?_
  refine (retargets_appendTo fun _ => rfl).bind fun next => ?_
  refine (retargets_append (.store slot next)).bind fun _ => ?_
  refine (retargets_freshBlock []).bind fun afterBlock => ?_
  refine (retargets_endBlock _).bind fun _ => (retargets_continueIn _).bind fun _ => ?_
  exact retargets_appendTo fun _ => rfl

theorem retargets_compute (hNames : names.Retargets rename other) (e : Expr) :
    ComputesAlike rename name names other e := by
  -- Fresh registers, slots and blocks are numbered by what a body holds, not by what it calls, so
  -- both sides take the same steps with the same numbers.
  induction e using Expr.induction with
  | number value =>
    intro scope
    rw [compute, compute]
    exact retargets_appendTo fun _ => rfl
  | var variableName =>
    intro scope
    rw [compute, compute]
    split
    · exact retargets_appendTo fun _ => rfl
    · exact retargets_throw _
  | binary op left right ihLeft ihRight =>
    intro scope
    rw [compute, compute]
    refine (ihLeft scope).bind fun l => (ihRight scope).bind fun r => ?_
    split
    · rename_i instr hInstr
      refine retargets_appendTo fun dst => ?_
      unfold operatorInstr? at hInstr
      split at hInstr <;> cases hInstr <;> rfl
    · exact retargets_throw _
  | call callee args ih => exact retargets_call hNames callee ih
  | ifThenElse condition onTrue onFalse ihCondition ihTrue ihFalse =>
    exact retargets_ifThenElse ihCondition ihTrue ihFalse
  | forLoop loopVar start finish step body ihStart ihFinish ihStep ihBody =>
    exact retargets_forLoop loopVar ihStart ihFinish ihStep ihBody

theorem retargets_lowerParams (params : List String) : ∀ (scope : Scope) (index : Nat),
    Lower.Retargets rename name (lowerParams scope index params)
      (lowerParams scope index params) := by
  induction params with
  | nil => exact fun scope _ => retargets_return scope
  | cons param rest ih =>
    intro scope index
    rw [lowerParams]
    refine (retargets_appendTo fun _ => rfl).bind fun value => ?_
    refine retargets_freshSlot.bind fun slot => ?_
    exact (retargets_append (.store slot value)).bind fun _ => ih _ _

theorem retargets_lowerBody (hNames : names.Retargets rename other) (procedure : Procedure) :
    Lower.Retargets rename name (lowerBody names procedure) (lowerBody other procedure) := by
  refine (retargets_lowerParams _ _ _).bind fun scope => ?_
  exact (retargets_compute hNames procedure.body scope).bind fun result => retargets_endBlock _

variable {symbols others : Symbols}

/-- What the names of a unit are checked against are names and numbers of parameters, not
positions. -/
theorem acceptSignature_retarget (hSymbols : symbols.Retargets rename others)
    (signature : Signature) :
    acceptSignature signature others = acceptSignature signature symbols := by
  unfold acceptSignature
  rw [hSymbols]
  cases symbols.lookup signature.name <;> rfl

/-- Lowering a procedure checks the signature of a definition and makes the body. -/
theorem lowerProcedure_eq (procedure : Procedure) (name : String) (this : FuncId)
    (kind : FunctionKind) (symbols : Symbols) :
    lowerProcedure procedure name this kind symbols =
      (if kind = .definition then acceptSignature procedure.signature symbols else .ok ()) >>=
        fun _ => ((lowerBody (namesFor procedure this kind symbols) procedure).run
          (Builder.start name procedure.signature.arity)).map fun result => result.2.body := by
  have hReturn : ∀ result : Except LoweringError (Unit × Builder),
      (result >>= fun made => pure made.2.body) = result.map fun made => made.2.body := by
    intro result
    cases result <;> rfl
  unfold lowerProcedure namesFor
  by_cases hKind : kind = .definition
  · simp only [if_pos hKind]
    cases acceptSignature procedure.signature symbols with
    | error e => rfl
    | ok _ => exact hReturn _
  · simp only [if_neg hKind]
    exact hReturn _

theorem retargets_namesFor (hSymbols : symbols.Retargets rename others) (procedure : Procedure)
    (this : FuncId) (kind : FunctionKind) :
    (namesFor procedure this kind symbols).Retargets rename
      (namesFor procedure (rename this) kind others) := by
  intro callee
  unfold Names.callee namesFor
  by_cases hKind : kind = .definition
  · simp only [if_pos hKind]
    split
    · rfl
    · exact hSymbols callee
  · simp only [if_neg hKind]
    exact hSymbols callee

/-- Where names stand for renamed functions, lowering comes to the same error or to the retargeted
body. -/
theorem lowerProcedure_retarget (hSymbols : symbols.Retargets rename others)
    (procedure : Procedure) (own name : String) (this : FuncId) (kind : FunctionKind) :
    lowerProcedure procedure name (rename this) kind others =
      (lowerProcedure procedure own this kind symbols).map (Body.retarget rename name) := by
  have hBody := @retargets_lowerBody _ name _ _ (retargets_namesFor hSymbols procedure this kind)
    procedure (Builder.start own procedure.signature.arity)
  have hStart : (Builder.start own procedure.signature.arity).retarget rename name =
      Builder.start name procedure.signature.arity := by
    simp [Builder.retarget, Builder.start, BlockDraft.mapCallees, BlockDraft.start]
  rw [lowerProcedure_eq, lowerProcedure_eq, acceptSignature_retarget hSymbols, ← hStart, hBody]
  cases (if kind = .definition then acceptSignature procedure.signature symbols else .ok ()) with
  | error e => rfl
  | ok _ =>
    cases (lowerBody (namesFor procedure this kind symbols) procedure).run
      (Builder.start own procedure.signature.arity) with
    | error e => rfl
    | ok result => exact congrArg Except.ok (result.2.body_retarget rename name)

end Lowering

end LiveCompiler
