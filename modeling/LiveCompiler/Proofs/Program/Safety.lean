import LiveCompiler.Proofs.Ir.Ssa
import LiveCompiler.Proofs.Ir.Blocks
import LiveCompiler.Proofs.Program.Coherent

/-!
# Runs that do not trap

A frame stays inside of the blocks that the entry of its body leads to (`Frame.Inside`), so what
it calls is called by its body, and it traps only at a terminator that is not to be reached.
With code that has no such terminators and whose calls are all settled, a machine goes on until
it returns a value or is cut off (`Safe.run_ne_trapped`).
-/

namespace LiveCompiler

namespace Ir

/-- A frame that stands in a block that the entry of its body leads to. -/
structure Frame.Inside (body : Body) (frame : Frame) (label : Label) : Prop where
  body_eq : frame.body = body
  reached : body.Reached label
  suffix : frame.rest <:+ (body.block label).instrs
  terminator_eq : frame.terminator = (body.block label).terminator

namespace Frame

variable {body : Body} {frame : Frame} {label : Label}

theorem Inside.write (h : frame.Inside body label) (r : Reg) (x : Float) :
    (frame.write r x).Inside body label :=
  ⟨h.body_eq, h.reached, h.suffix, h.terminator_eq⟩

theorem inside_startBlock {target : Label} (values : List Float) (hBody : frame.body = body)
    (hReached : body.Reached target) : (frame.startBlock target values).Inside body target :=
  ⟨hBody, hReached, by rw [← hBody]; exact List.suffix_refl _, by rw [← hBody]; rfl⟩

theorem inside_start (body : Body) (args : List Float) :
    (Frame.start body args).Inside body body.entry :=
  inside_startBlock [] rfl (Body.Reached.entry body)

theorem Inside.takeEdge (h : frame.Inside body label) {e : Edge}
    (he : e ∈ (body.block label).terminator.edges) :
    (frame.takeEdge e).Inside body e.target :=
  inside_startBlock _ h.body_eq (h.reached.successor (List.mem_map_of_mem he))

/-- What a step of a frame inside of its body comes to. -/
theorem Inside.step_cases (h : frame.Inside body label) :
    (∃ x, frame.step = .returned x) ∨
    (∃ after target, frame.step = .next after ∧ after.Inside body target) ∨
    (∃ callee args dst after, frame.step = .call callee args dst after ∧
      callee ∈ calleesOf body ∧ after.Inside body label) ∨
    (frame.step = .trapped ∧ (body.block label).terminator = .unreachable) := by
  unfold Frame.step
  have hSuffix := h.suffix
  cases hRest : frame.rest with
  | nil =>
    dsimp only
    rw [h.terminator_eq]
    cases hEnd : (body.block label).terminator with
    | ret value => exact .inl ⟨_, rfl⟩
    | jump edge =>
      exact .inr (.inl ⟨_, _, rfl, h.takeEdge (by rw [hEnd]; exact List.mem_singleton_self edge)⟩)
    | branch condition onTrue onFalse =>
      refine .inr (.inl ⟨_, _, rfl, h.takeEdge ?_⟩)
      rw [hEnd]
      split
      · exact List.mem_cons_self
      · exact List.mem_cons_of_mem _ List.mem_cons_self
    | unreachable => exact .inr (.inr (.inr ⟨rfl, rfl⟩))
  | cons i rest =>
    rw [hRest] at hSuffix
    have hTail : ({ frame with rest := rest } : Frame).Inside body label :=
      ⟨h.body_eq, h.reached, (List.suffix_cons i rest).trans hSuffix, h.terminator_eq⟩
    have hMem : i ∈ (body.block label).instrs := hSuffix.mem List.mem_cons_self
    cases i with
    | call dst callee args =>
      exact .inr (.inr (.inl ⟨_, _, _, _, rfl,
        mem_calleesOf.mpr ⟨_, Body.block_mem_of_instr hMem, _, _, hMem⟩, hTail⟩))
    | const dst value => exact .inr (.inl ⟨_, label, rfl, hTail.write dst _⟩)
    | param dst index => exact .inr (.inl ⟨_, label, rfl, hTail.write dst _⟩)
    | load dst slot => exact .inr (.inl ⟨_, label, rfl, hTail.write dst _⟩)
    | store slot src =>
      exact .inr (.inl ⟨_, label, rfl, hTail.body_eq, hTail.reached, hTail.suffix,
        hTail.terminator_eq⟩)
    | arith op dst left right => exact .inr (.inl ⟨_, label, rfl, hTail.write dst _⟩)
    | less dst left right => exact .inr (.inl ⟨_, label, rfl, hTail.write dst _⟩)

end Frame

end Ir

open Ir

/-- Code that can go on wherever it comes to: its blocks have ends, and what it calls is found
and can go on itself. -/
structure CodeTable.GoesOn (table : CodeTable) (good : Code → Prop) : Prop where
  ends : ∀ {code}, good code → ∀ label, code.body.Reached label →
    (code.body.block label).terminator ≠ .unreachable
  callee : ∀ {code}, good code → ∀ f ∈ calleesOf code.body,
    ∃ callee, table.callee? code f = some callee ∧ ∀ next, callee = .code next → good next

namespace Machine

variable {table : CodeTable} {good : Code → Prop} {m : Machine}

/-- A frame of code that can go on, inside of its body. -/
def FrameSafe (good : Code → Prop) (code : Code) (frame : Frame) : Prop :=
  good code ∧ ∃ label, frame.Inside code.body label

/-- A machine all whose frames can go on. -/
structure Safe (good : Code → Prop) (m : Machine) : Prop where
  running : FrameSafe good m.code m.frame
  waiting : ∀ caller ∈ m.callers, FrameSafe good caller.code caller.frame

theorem safe_start {code : Code} (h : good code) : (start code).Safe good where
  running := ⟨h, _, Frame.inside_start code.body []⟩
  waiting _ hCaller := by cases hCaller

theorem FrameSafe.write {code : Code} {frame : Frame} (h : FrameSafe good code frame) (r : Reg)
    (x : Float) : FrameSafe good code (frame.write r x) :=
  ⟨h.1, h.2.imp fun _ hInside => hInside.write r x⟩

/-- A machine that can go on comes to another one, or returns a value. -/
theorem Safe.step_cases (hTable : table.GoesOn good) (h : m.Safe good) :
    (∃ next, m.step table = .inl next ∧ next.Safe good) ∨
    ∃ x output, m.step table = .inr (.value x, output) := by
  obtain ⟨code, frame, callers, output⟩ := m
  obtain ⟨⟨hGood, label, hInside⟩, hWaiting⟩ := h
  dsimp only at hGood hInside hWaiting
  simp only [step]
  rcases hInside.step_cases with ⟨x, hStep⟩ | ⟨after, target, hStep, hAfter⟩ |
    ⟨callee, args, dst, after, hStep, hMem, hAfter⟩ | ⟨-, hEnd⟩
  -- A return wakes the innermost caller, which can go on as well.
  · rw [hStep]
    cases callers with
    | nil => exact .inr ⟨x, output, rfl⟩
    | cons caller rest =>
      have hCaller := hWaiting caller List.mem_cons_self
      exact .inl ⟨_, rfl, hCaller.write caller.dst x,
        fun other hOther => hWaiting other (List.mem_cons_of_mem caller hOther)⟩
  · rw [hStep]
    exact .inl ⟨_, rfl, ⟨hGood, target, hAfter⟩, hWaiting⟩
  · rw [hStep]
    obtain ⟨found, hFound, hNext⟩ := hTable.callee hGood callee hMem
    cases found with
    | code next =>
      simp only [hFound]
      refine .inl ⟨_, rfl, ⟨hNext next rfl, _, Frame.inside_start next.body args⟩, ?_⟩
      intro caller hCaller
      rcases List.mem_cons.mp hCaller with rfl | hCaller
      · exact ⟨hGood, label, hAfter⟩
      · exact hWaiting caller hCaller
    | host host =>
      simp only [hFound]
      exact .inl ⟨_, rfl, ⟨hGood, label, hAfter.write dst _⟩, hWaiting⟩
  · exact absurd hEnd (hTable.ends hGood label hInside.reached)

theorem Safe.run_ne_trapped (hTable : table.GoesOn good) (limit : Nat) :
    ∀ {m : Machine}, m.Safe good → (m.run table limit).1 ≠ .trapped := by
  induction limit with
  | zero =>
    intro m _ h
    cases h
  | succ limit ih =>
    intro m hSafe
    rw [run]
    rcases hSafe.step_cases hTable with ⟨next, hStep, hNext⟩ | ⟨x, output, hStep⟩
    · rw [hStep]
      exact ih hNext
    · rw [hStep]
      intro h
      cases h

end Machine

namespace Backend

variable {backend : Backend} {image : Image} {f : FuncId} {entry : Entry} {body : Body}

/-- The code of a function that is ready. -/
def ReadyCode (backend : Backend) (image : Image) (code : Code) : Prop :=
  ∃ f entry body, backend.isReady f = true ∧ image.get? f = some entry ∧
    entry.body = some body ∧ backend.table.code? f = some code ∧ backend.CodeFits body code

theorem Coherent.exists_readyCode (h : backend.Coherent image)
    (hReady : backend.isReady f = true) :
    ∃ code, backend.table.code? f = some code ∧ backend.ReadyCode image code := by
  obtain ⟨entry, body, code, hGet, hBody, hCode, hFits⟩ := h.code hReady
  exact ⟨code, hCode, f, entry, body, hReady, hGet, hBody, hCode, hFits⟩

/-- Code that is ready can go on, if the blocks of all bodies have ends. -/
theorem Coherent.goesOn (h : backend.Coherent image)
    (hEnds : ∀ {f entry body}, image.get? f = some entry → entry.body = some body →
      ∀ label, body.Reached label → (body.block label).terminator ≠ .unreachable) :
    backend.table.GoesOn (backend.ReadyCode image) where
  ends := by
    rintro code ⟨f, entry, body, -, hGet, hBody, -, rfl, -, -⟩ label hReached
    exact hEnds hGet hBody label hReached
  callee := by
    rintro code ⟨f, entry, body, -, -, -, -, rfl, hTargets, -⟩ g hg
    obtain ⟨target, hDestination, hTarget⟩ := hTargets g hg
    unfold CodeTable.callee?
    rw [hTarget]
    cases target with
    | host host => exact ⟨.host host, rfl, fun _ hSame => by cases hSame⟩
    | code t =>
      obtain ⟨next, hNext, hReadyCode⟩ := h.exists_readyCode (isReady_of_destination? hDestination)
      refine ⟨.code next, by simp only [hNext, Option.map_some], ?_⟩
      rintro _ ⟨⟩
      exact hReadyCode

/-- What is ready and takes no arguments comes to a value, or is cut off. -/
theorem Coherent.invoke_cases (h : backend.Coherent image)
    (hEnds : ∀ {f entry body}, image.get? f = some entry → entry.body = some body →
      ∀ label, body.Reached label → (body.block label).terminator ≠ .unreachable)
    (hReady : backend.isReady f = true) (hGet : image.get? f = some entry)
    (hBody : entry.body = some body) (hArity : body.arity = 0) (limit : Nat) :
    (∃ x, (backend.invoke limit { func := f }).result = .ok (.value x)) ∨
      (backend.invoke limit { func := f }).result = .ok .unfinished := by
  obtain ⟨other, otherBody, code, hSame, hSameBody, hCode, hFits⟩ := h.code hReady
  obtain rfl := Option.some.inj (hGet.symm.trans hSame)
  obtain rfl := Option.some.inj (hBody.symm.trans hSameBody)
  have hRun := (@Machine.safe_start (backend.ReadyCode image) code
    ⟨f, entry, body, hReady, hGet, hBody, hCode, hFits⟩).run_ne_trapped (h.goesOn hEnds) limit
  rw [invoke_of_code hReady hCode (by rw [hFits.body_eq, hArity])]
  dsimp only
  cases hEnd : (Machine.run backend.table limit (.start code)).1 with
  | value x => exact .inl ⟨x, rfl⟩
  | trapped => exact absurd hEnd hRun
  | unfinished => exact .inr rfl

end Backend

end LiveCompiler
