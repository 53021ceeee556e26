import LiveCompiler.Program.Machine
import LiveCompiler.Proofs.Ir.Retarget

/-!
# Runs that mirror each other

Frames mirror each other if their bodies do and they are at the same place with the same values.
If the code that a machine runs is mirrored by the code of another machine, call by call
(`Lockstep`), then both machines take the same steps and come to the same end with the same output
(`Lockstep.run_eq`).
-/

namespace LiveCompiler

open Ir

namespace Ir

variable {rename : FuncId → FuncId} {body other : Body}

/-! ## Frames -/

/-- A frame that runs the mirror of the body of another frame, at the same place and with the
same values. -/
structure Frame.Mirrors (rename : FuncId → FuncId) (frame other : Frame) : Prop where
  body : frame.body.Mirrors rename other.body
  args_eq : other.args = frame.args
  rest_eq : other.rest = frame.rest.map (Instr.mapCallee rename)
  terminator_eq : other.terminator = frame.terminator
  cells_eq : other.cells = frame.cells

/-- Steps of frames that mirror each other. -/
inductive Step.Mirrors (rename : FuncId → FuncId) : Step → Step → Prop
  | next {frame other : Frame} (frames : frame.Mirrors rename other) :
      Mirrors rename (.next frame) (.next other)
  | call {callee : FuncId} {args : List Float} {dst : Reg} {frame other : Frame}
      (frames : frame.Mirrors rename other) :
      Mirrors rename (.call callee args dst frame) (.call (rename callee) args dst other)
  | returned (x : Float) : Mirrors rename (.returned x) (.returned x)
  | trapped : Mirrors rename .trapped .trapped

namespace Frame

variable {frame copy : Frame}

theorem Mirrors.slotCell (h : frame.Mirrors rename copy) (slot : Slot) :
    copy.body.slotCell slot = frame.body.slotCell slot := by
  rw [Body.slotCell, Body.slotCell, h.body.regCount_eq]

theorem Mirrors.read (h : frame.Mirrors rename copy) (r : Reg) : copy.read r = frame.read r := by
  rw [Frame.read, Frame.read, h.cells_eq]

theorem Mirrors.setCells (h : frame.Mirrors rename copy) (cells : Cells) :
    ({ frame with cells := cells } : Frame).Mirrors rename { copy with cells := cells } where
  body := h.body
  args_eq := h.args_eq
  rest_eq := h.rest_eq
  terminator_eq := h.terminator_eq
  cells_eq := rfl

theorem Mirrors.write (h : frame.Mirrors rename copy) (r : Reg) (x : Float) :
    (frame.write r x).Mirrors rename (copy.write r x) := by
  unfold Frame.write
  rw [h.cells_eq]
  exact h.setCells _

theorem Mirrors.store (h : frame.Mirrors rename copy) (slot : Slot) (x : Float) :
    (frame.store slot x).Mirrors rename (copy.store slot x) := by
  unfold Frame.store
  rw [h.cells_eq, h.slotCell]
  exact h.setCells _

theorem Mirrors.startBlock (h : frame.Mirrors rename copy) (label : Label) (values : List Float) :
    (frame.startBlock label values).Mirrors rename (copy.startBlock label values) where
  body := h.body
  args_eq := h.args_eq
  rest_eq := congrArg Block.instrs (h.body.block label)
  terminator_eq := by
    change (copy.body.block label).terminator = (frame.body.block label).terminator
    rw [h.body.block]
    rfl
  cells_eq := by
    change copy.cells.setAll (copy.body.block label).params values =
      frame.cells.setAll (frame.body.block label).params values
    rw [h.cells_eq, h.body.block]
    rfl

theorem Mirrors.takeEdge (h : frame.Mirrors rename copy) (e : Edge) :
    (frame.takeEdge e).Mirrors rename (copy.takeEdge e) := by
  unfold Frame.takeEdge
  rw [funext h.read]
  exact h.startBlock e.target _

theorem mirrors_start (h : body.Mirrors rename other) (args : List Float) :
    (Frame.start body args).Mirrors rename (Frame.start other args) := by
  have hCells : Cells.ofSize other.cellCount = Cells.ofSize body.cellCount := by
    rw [Body.cellCount, Body.cellCount, h.regCount_eq, h.slots_eq]
  have hFrame : Frame.Mirrors rename
      { body := body, args := args.toArray, rest := [], terminator := .unreachable,
        cells := Cells.ofSize body.cellCount }
      { body := other, args := args.toArray, rest := [], terminator := .unreachable,
        cells := Cells.ofSize other.cellCount } :=
    ⟨h, rfl, rfl, rfl, hCells⟩
  unfold Frame.start
  rw [h.entry_eq]
  exact hFrame.startBlock body.entry []

theorem Mirrors.doInstr (h : frame.Mirrors rename copy) (i : Instr) :
    (frame.doInstr i).Mirrors rename (copy.doInstr (i.mapCallee rename)) := by
  cases i with
  | const dst value => exact .next (h.write dst value)
  | param dst index =>
    simp only [Instr.mapCallee, Frame.doInstr, h.args_eq]
    exact .next (h.write dst _)
  | load dst slot =>
    simp only [Instr.mapCallee, Frame.doInstr, Frame.load, h.cells_eq, h.slotCell]
    exact .next (h.write dst _)
  | store slot src =>
    simp only [Instr.mapCallee, Frame.doInstr, h.read]
    exact .next (h.store slot _)
  | arith op dst left right =>
    simp only [Instr.mapCallee, Frame.doInstr, h.read]
    exact .next (h.write dst _)
  | less dst left right =>
    simp only [Instr.mapCallee, Frame.doInstr, h.read]
    exact .next (h.write dst _)
  | call dst callee args =>
    simp only [Instr.mapCallee, Frame.doInstr, funext h.read]
    exact .call h

theorem Mirrors.doTerminator (h : frame.Mirrors rename copy) (t : Terminator) :
    (frame.doTerminator t).Mirrors rename (copy.doTerminator t) := by
  cases t with
  | ret value =>
    simp only [Frame.doTerminator, h.read]
    exact .returned _
  | jump edge => exact .next (h.takeEdge edge)
  | branch condition onTrue onFalse =>
    simp only [Frame.doTerminator, h.read]
    exact .next (h.takeEdge _)
  | unreachable => exact .trapped

theorem Mirrors.step (h : frame.Mirrors rename copy) :
    frame.step.Mirrors rename copy.step := by
  unfold Frame.step
  rw [h.rest_eq]
  cases frame.rest with
  | nil =>
    rw [List.map_nil, h.terminator_eq]
    exact h.doTerminator frame.terminator
  | cons i rest =>
    have hRest : ({ frame with rest := rest } : Frame).Mirrors rename
        { copy with rest := rest.map (Instr.mapCallee rename) } :=
      ⟨h.body, h.args_eq, rfl, h.terminator_eq, h.cells_eq⟩
    exact hRest.doInstr i

end Frame

end Ir

/-! ## Machines -/

/-- What a call runs on two sides, with the code on the sides related. -/
inductive Callee.Related (same : Code → Code → Prop) : Option Callee → Option Callee → Prop
  | code {code other : Code} (codes : same code other) :
      Related same (some (.code code)) (some (.code other))
  | host (h : HostFunction) : Related same (some (.host h)) (some (.host h))
  | none : Related same none none

/-- A relation of code on two sides that calls keep, under a renaming of the called
functions. -/
structure Lockstep (rename : FuncId → FuncId) (table copy : CodeTable)
    (same : Code → Code → Prop) : Prop where
  body : ∀ {code other}, same code other → code.body.Mirrors rename other.body
  callee : ∀ {code other}, same code other → ∀ f,
    Callee.Related same (table.callee? code f) (copy.callee? other (rename f))

/-- Two callers that wait in the same way. -/
structure Caller.Mirrors (rename : FuncId → FuncId)
    (same : Code → Code → Prop) (caller other : Caller) : Prop where
  dst_eq : other.dst = caller.dst
  code : same caller.code other.code
  frame : caller.frame.Mirrors rename other.frame

namespace Machine

variable {rename : FuncId → FuncId} {table copy : CodeTable} {same : Code → Code → Prop}

/-- Two machines that are in the same state. -/
structure Mirrors (rename : FuncId → FuncId) (same : Code → Code → Prop) (m other : Machine) :
    Prop where
  code : same m.code other.code
  frame : m.frame.Mirrors rename other.frame
  callers : List.Forall₂ (Caller.Mirrors rename same) m.callers other.callers
  output_eq : other.output = m.output

/-- Steps of machines that mirror each other. -/
inductive StepMirrors (rename : FuncId → FuncId) (same : Code → Code → Prop) :
    Machine ⊕ (RunEnd × Array UInt8) → Machine ⊕ (RunEnd × Array UInt8) → Prop
  | on {m other : Machine} (machines : m.Mirrors rename same other) :
      StepMirrors rename same (.inl m) (.inl other)
  | ended (result : RunEnd × Array UInt8) : StepMirrors rename same (.inr result) (.inr result)

theorem stepMirrors_giveBack {callers others : List Caller}
    (h : List.Forall₂ (Caller.Mirrors rename same) callers others) (output : Array UInt8)
    (x : Float) : StepMirrors rename same (giveBack callers output x)
      (giveBack others output x) := by
  cases h with
  | nil => exact .ended _
  | cons hCaller hRest =>
    refine .on ⟨hCaller.code, ?_, hRest, rfl⟩
    rw [hCaller.dst_eq]
    exact hCaller.frame.write _ x

theorem Mirrors.step (hLockstep : Lockstep rename table copy same) {m other : Machine}
    (h : m.Mirrors rename same other) :
    StepMirrors rename same (m.step table) (other.step copy) := by
  obtain ⟨code, frame, callers, output⟩ := m
  obtain ⟨code', frame', callers', output'⟩ := other
  obtain ⟨hCode, hFrame, hCallers, hOutput⟩ := h
  obtain rfl : output' = output := hOutput
  have hStep := hFrame.step
  unfold Machine.step
  dsimp only at hStep ⊢
  -- Both frames do the same kind of step, which `cases` reads off the relation.
  generalize frame.step = step at hStep
  generalize frame'.step = step' at hStep
  cases hStep with
  | next hNext => exact .on ⟨hCode, hNext, hCallers, rfl⟩
  | returned x => exact stepMirrors_giveBack hCallers output' x
  | trapped => exact .ended _
  | @call callee args dst _ _ hNext =>
    have hCallee := hLockstep.callee hCode callee
    dsimp only
    generalize table.callee? code callee = target at hCallee
    generalize copy.callee? code' (rename callee) = target' at hCallee
    cases hCallee with
    | code hSame =>
      exact .on ⟨hSame, Frame.mirrors_start (hLockstep.body hSame) args,
        .cons ⟨rfl, hCode, hNext⟩ hCallers, rfl⟩
    | host h => exact .on ⟨hCode, hNext.write dst _, hCallers, rfl⟩
    | none => exact .ended _

theorem Mirrors.run_eq (hLockstep : Lockstep rename table copy same) (limit : Nat) :
    ∀ {m other : Machine}, m.Mirrors rename same other →
      other.run copy limit = m.run table limit := by
  induction limit with
  | zero =>
    intro m other h
    rw [run, run, h.output_eq]
  | succ limit ih =>
    intro m other h
    have hStep := h.step hLockstep
    rw [run, run]
    generalize m.step table = step at hStep
    generalize other.step copy = step' at hStep
    cases hStep with
    | on hNext => exact ih hNext
    | ended result => rfl

end Machine

/-- Code that is mirrored comes to the same end with the same output. -/
theorem Lockstep.run_eq {rename : FuncId → FuncId} {table copy : CodeTable}
    {same : Code → Code → Prop} (h : Lockstep rename table copy same) {code other : Code}
    (hSame : same code other) (limit : Nat) :
    Machine.run copy limit (.start other) = Machine.run table limit (.start code) :=
  Machine.Mirrors.run_eq h limit
    ⟨hSame, Frame.mirrors_start (h.body hSame) [], .nil, rfl⟩

end LiveCompiler
