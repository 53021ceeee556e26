import LiveCompiler.Ir.Flow
import LiveCompiler.Ir.Frame
import LiveCompiler.Proofs.Graph.Path

/-!
# What a body returns

A run of a body hands out calls and is given their results.  `Answers` stands for whatever
gives the results: it sees all earlier calls.  `Body.Returns` says that a body, started on
arguments, returns a value after a sequence of calls; in `Body.ReturnsHolding` the slots hold
given values at the start.

Frames keep registers and slots in one bank of cells and step instruction by instruction.
For reasoning a block is run at once over a store, in which registers and slots are apart
(`Body.exec`).  The two agree on bodies that use no other registers than those that were
handed out (`returnsHolding_iff_yieldsHolding`, `returns_iff_yields`).
-/

namespace LiveCompiler

namespace Ir

/-- A call that a body makes. -/
structure Call where
  callee : FuncId
  args : List Float

/-- What a call gives, which may depend on the calls before it. -/
abbrev Answers := List Call → Call → Float

/-- A frame returns a value.  The lists are the calls made before and those made in all. -/
inductive Frame.Returns (answers : Answers) : List Call → Frame → Float → List Call → Prop
  | returned {calls : List Call} {frame : Frame} {x : Float}
      (stop : frame.step = .returned x) : Returns answers calls frame x calls
  | next {calls all : List Call} {frame after : Frame} {x : Float}
      (step : frame.step = .next after) (rest : Returns answers calls after x all) :
      Returns answers calls frame x all
  | call {calls all : List Call} {frame after : Frame} {x : Float} {callee : FuncId}
      {args : List Float} {dst : Reg}
      (step : frame.step = .call callee args dst after)
      (rest : Returns answers (calls ++ [⟨callee, args⟩])
        (after.write dst (answers calls ⟨callee, args⟩)) x all) :
      Returns answers calls frame x all

/-- A body, started on arguments, returns a value after a sequence of calls. -/
def Body.Returns (answers : Answers) (body : Body) (args : List Float) (x : Float)
    (calls : List Call) : Prop :=
  Frame.Returns answers [] (Frame.start body args) x calls

/-- Write values to the slots from one on. -/
def Frame.fill (frame : Frame) (slot : Slot) : List Float → Frame
  | [] => frame
  | x :: contents => (frame.store slot x).fill (slot + 1) contents

/-- A body, started on arguments while its slots hold given values, returns a value after a
sequence of calls.  A slot without a value holds zero. -/
def Body.ReturnsHolding (answers : Answers) (body : Body) (args contents : List Float) (x : Float)
    (calls : List Call) : Prop :=
  Frame.Returns answers [] ((Frame.start body args).fill 0 contents) x calls

/-! ## Running blocks -/

/-- What stays the same over a run. -/
structure Setting where
  args : List Float
  answers : Answers

/-- The registers, the slots, and the calls made so far. -/
structure Store where
  regs : Reg → Float
  slots : Slot → Float
  calls : List Call

namespace Store

/-- The store at the start of a body whose slots hold given values. -/
def holding (contents : Slot → Float) : Store where
  regs _ := 0.0
  slots := contents
  calls := []

/-- The store at the start of a body. -/
def initial : Store :=
  holding fun _ => 0.0

end Store

/-- What the slots may hold at the start of a run. -/
abbrev Starts : Type :=
  (Slot → Float) → Prop

/-- At the start the slots may hold anything. -/
def Starts.any : Starts :=
  fun _ => True

/-- At the start all slots hold zero. -/
def Starts.blank : Starts :=
  fun contents => contents = fun _ => 0.0

namespace Instr

/-- The slot that an instruction writes. -/
def stored : Instr → Option Slot
  | store slot _ => some slot
  | _ => none

/-- The slot that an instruction reads. -/
def loaded : Instr → Option Slot
  | load _ slot => some slot
  | _ => none

/-- The calls that an instruction makes. -/
def made (regs : Reg → Float) : Instr → List Call
  | call _ callee args => [⟨callee, args.map regs⟩]
  | _ => []

/-- The value that an instruction writes. -/
def value (c : Setting) (s : Store) : Instr → Float
  | const _ value => value
  | param _ index => c.args.getD index.toNat 0.0
  | load _ slot => s.slots slot
  | store _ src => s.regs src
  | arith op _ left right => op.apply (s.regs left) (s.regs right)
  | less _ left right => lessThan (s.regs left) (s.regs right)
  | call _ callee args => c.answers s.calls ⟨callee, args.map s.regs⟩

/-- The store after an instruction. -/
def effect (c : Setting) (s : Store) (i : Instr) : Store where
  regs r := if i.dst = some r then i.value c s else s.regs r
  slots slot := if i.stored = some slot then i.value c s else s.slots slot
  calls := s.calls ++ i.made s.regs

theorem regs_effect_of_ne {c : Setting} {s : Store} {i : Instr} {r : Reg}
    (h : i.dst ≠ some r) : (i.effect c s).regs r = s.regs r :=
  if_neg h

theorem regs_effect_of_eq {c : Setting} {s : Store} {i : Instr} {r : Reg}
    (h : i.dst = some r) : (i.effect c s).regs r = i.value c s :=
  if_pos h

end Instr

/-- The store after some instructions. -/
def Store.run (c : Setting) (s : Store) (instrs : List Instr) : Store :=
  instrs.foldl (Instr.effect c) s

@[simp] theorem Store.run_nil (c : Setting) (s : Store) : s.run c [] = s := rfl

@[simp] theorem Store.run_cons (c : Setting) (s : Store) (i : Instr) (rest : List Instr) :
    s.run c (i :: rest) = (i.effect c s).run c rest := rfl

theorem Store.run_append (c : Setting) (s : Store) (front back : List Instr) :
    s.run c (front ++ back) = (s.run c front).run c back :=
  List.foldl_append

/-- Bind registers to values from left to right; what has no partner is left out. -/
def bindAll (regs : Reg → Float) : List Reg → List Float → Reg → Float
  | r :: params, x :: values => bindAll (fun q => if q = r then x else regs q) params values
  | _, _ => regs

theorem bindAll_of_notMem {regs : Reg → Float} {params : List Reg} {r : Reg}
    (h : r ∉ params) (values : List Float) : bindAll regs params values r = regs r := by
  induction params generalizing regs values with
  | nil => rfl
  | cons p params ih =>
    rw [List.mem_cons, not_or] at h
    cases values with
    | nil => rfl
    | cons x values =>
      rw [bindAll, ih h.2]
      exact if_neg h.1

theorem bindAll_of_mem {regs : Reg → Float} {params : List Reg} {values : List Float}
    (hNodup : params.Nodup) {r : Reg} {x : Float} (h : (r, x) ∈ params.zip values) :
    bindAll regs params values r = x := by
  induction params generalizing regs values with
  | nil => simp at h
  | cons p params ih =>
    obtain ⟨hp, hNodup⟩ := List.nodup_cons.mp hNodup
    cases values with
    | nil => simp at h
    | cons y values =>
      rw [List.zip_cons_cons, List.mem_cons] at h
      rw [bindAll]
      rcases h with hHead | hTail
      · obtain ⟨rfl, rfl⟩ := Prod.mk.inj hHead
        rw [bindAll_of_notMem hp]
        exact if_pos rfl
      · exact ih hNodup hTail

/-- The store at the start of a block, with the values for its parameters. -/
def Store.bind (s : Store) (params : List Reg) (values : List Float) : Store :=
  { s with regs := bindAll s.regs params values }

/-- Where a block leads to. -/
inductive Exit where
  | returned (value : Float)
  | goto (target : Label) (values : List Float)
  | stuck

/-- Where a terminator leads to with given registers. -/
def Terminator.exit (regs : Reg → Float) : Terminator → Exit
  | ret value => .returned (regs value)
  | jump edge => .goto edge.target (edge.args.map regs)
  | branch condition onTrue onFalse =>
    if countsAsTrue (regs condition) then .goto onTrue.target (onTrue.args.map regs)
    else .goto onFalse.target (onFalse.args.map regs)
  | unreachable => .stuck

/-- Run blocks, at most so many, from a place in a block: the instructions left and the
terminator. -/
def Body.exec (c : Setting) (body : Body) :
    Nat → List Instr → Terminator → Store → Option (Float × List Call)
  | 0, _, _, _ => none
  | count + 1, instrs, t, s =>
    match t.exit (s.run c instrs).regs with
    | .returned x => some (x, (s.run c instrs).calls)
    | .goto target values =>
      body.exec c count (body.block target).instrs (body.block target).terminator
        ((s.run c instrs).bind (body.block target).params values)
    | .stuck => none

/-- Run blocks from the start of a block. -/
def Body.execFrom (c : Setting) (body : Body) (count : Nat) (label : Label) (s : Store) :
    Option (Float × List Call) :=
  body.exec c count (body.block label).instrs (body.block label).terminator s

/-- A run over blocks from a place in a block ends with a value after some calls. -/
def Body.YieldsAt (c : Setting) (body : Body) (instrs : List Instr) (t : Terminator) (s : Store)
    (x : Float) (calls : List Call) : Prop :=
  ∃ count, body.exec c count instrs t s = some (x, calls)

/-- A run over blocks from the entry, with given values in the slots, ends with a value after
some calls. -/
def Body.YieldsHolding (c : Setting) (contents : Slot → Float) (body : Body) (x : Float)
    (calls : List Call) : Prop :=
  ∃ count, body.execFrom c count body.entry (Store.holding contents) = some (x, calls)

/-- A run over blocks from the entry ends with a value after some calls. -/
def Body.Yields (c : Setting) (body : Body) (x : Float) (calls : List Call) : Prop :=
  ∃ count, body.execFrom c count body.entry Store.initial = some (x, calls)

theorem Body.exec_succ (c : Setting) (body : Body) (count : Nat) (instrs : List Instr)
    (t : Terminator) (s : Store) :
    body.exec c (count + 1) instrs t s =
      match t.exit (s.run c instrs).regs with
      | .returned x => some (x, (s.run c instrs).calls)
      | .goto target values =>
        body.execFrom c count target ((s.run c instrs).bind (body.block target).params values)
      | .stuck => none := rfl

/-- The instructions of a block can be run in two parts. -/
theorem Body.exec_append (c : Setting) (body : Body) (count : Nat) (front back : List Instr)
    (t : Terminator) (s : Store) :
    body.exec c count (front ++ back) t s = body.exec c count back t (s.run c front) := by
  cases count with
  | zero => rfl
  | succ count => rw [exec_succ, exec_succ, Store.run_append]

/-- More blocks do not change a result. -/
theorem Body.exec_mono {c : Setting} {body : Body} {count more : Nat} {instrs : List Instr}
    {t : Terminator} {s : Store} {result : Float × List Call}
    (h : body.exec c count instrs t s = some result) (hLe : count ≤ more) :
    body.exec c more instrs t s = some result := by
  induction count generalizing more instrs t s with
  | zero => simp [exec] at h
  | succ count ih =>
    obtain ⟨more, rfl⟩ : ∃ k, more = k + 1 := ⟨more - 1, by omega⟩
    rw [exec_succ] at h ⊢
    split at h
    · exact h
    · exact ih h (by omega)
    · simp at h

/-! ## Frames and stores -/

/-- A frame stands at a place in a block and its cells hold a store. -/
structure Frame.Shows (c : Setting) (body : Body) (frame : Frame) (rest : List Instr)
    (t : Terminator) (s : Store) : Prop where
  body_eq : frame.body = body
  args_eq : frame.args = c.args.toArray
  rest_eq : frame.rest = rest
  terminator_eq : frame.terminator = t
  regs : ∀ r, r < body.regCount → frame.read r = s.regs r
  slots : ∀ slot, frame.load slot = s.slots slot

namespace Frame

variable {c : Setting} {body : Body} {frame : Frame} {rest : List Instr} {t : Terminator}
  {s : Store}

theorem Shows.map_read (h : frame.Shows c body rest t s) {args : List Reg}
    (hBound : ∀ r ∈ args, r < body.regCount) : args.map frame.read = args.map s.regs :=
  List.map_congr_left fun r hr => h.regs r (hBound r hr)

/-- Writing a register of the frame. -/
theorem Shows.write {i : Instr} (h : frame.Shows c body rest t s) {dst : Reg} {x : Float}
    (hLt : dst < body.regCount) (hDst : i.dst = some dst) (hStored : i.stored = none)
    (hValue : i.value c s = x) : (frame.write dst x).Shows c body rest t (i.effect c s) where
  body_eq := h.body_eq
  args_eq := h.args_eq
  rest_eq := h.rest_eq
  terminator_eq := h.terminator_eq
  regs r hr := by
    rw [read_write]
    split
    · rename_i hEq
      rw [Instr.regs_effect_of_eq (hEq ▸ hDst), hValue]
    · rename_i hne
      rw [Instr.regs_effect_of_ne (by rw [hDst]; exact fun hEq => hne (Option.some.inj hEq).symm)]
      exact h.regs r hr
  slots slot := by
    rw [load_write_of_lt frame slot x (h.body_eq ▸ hLt), h.slots]
    simp [Instr.effect, hStored]

theorem Shows.store {slot : Slot} {src : Reg} (h : frame.Shows c body rest t s)
    (hLt : src < body.regCount) :
    (frame.store slot (frame.read src)).Shows c body rest t
      ((Instr.store slot src).effect c s) where
  body_eq := h.body_eq
  args_eq := h.args_eq
  rest_eq := h.rest_eq
  terminator_eq := h.terminator_eq
  regs r hr := by
    rw [read_store_of_lt frame slot _ (h.body_eq ▸ hr), h.regs r hr]
    rfl
  slots other := by
    rw [load_store, h.regs src hLt, h.slots]
    simp [Instr.effect, Instr.stored, Instr.value, eq_comm (a := slot)]

/-- What the first instruction left does to a frame. -/
theorem Shows.step_instr {i : Instr} (h : frame.Shows c body (i :: rest) t s)
    (hDst : ∀ r, i.dst = some r → r < body.regCount) (hUses : ∀ r ∈ i.uses, r < body.regCount) :
    (∃ after, frame.step = .next after ∧ after.Shows c body rest t (i.effect c s) ∧
      (i.effect c s).calls = s.calls) ∨
    (∃ callee args dst after, frame.step = .call callee args dst after ∧
      (after.write dst (c.answers s.calls ⟨callee, args⟩)).Shows c body rest t (i.effect c s) ∧
      (i.effect c s).calls = s.calls ++ [⟨callee, args⟩]) := by
  have hStep : frame.step = Frame.doInstr { frame with rest := rest } i := by
    unfold step
    rw [h.rest_eq]
  have hRest : Frame.Shows c body { frame with rest := rest } rest t s :=
    ⟨h.body_eq, h.args_eq, rfl, h.terminator_eq, h.regs, h.slots⟩
  rw [hStep]
  cases i with
  | const dst value =>
    exact .inl ⟨_, rfl, hRest.write (hDst dst rfl) rfl rfl rfl, List.append_nil _⟩
  | param dst index =>
    refine .inl ⟨_, rfl, hRest.write (hDst dst rfl) rfl rfl ?_, List.append_nil _⟩
    rw [hRest.args_eq, Array.getD_eq_getD_getElem?, List.getElem?_toArray,
      ← List.getD_eq_getElem?_getD]
    rfl
  | load dst slot =>
    exact .inl ⟨_, rfl, hRest.write (hDst dst rfl) rfl rfl (hRest.slots slot).symm,
      List.append_nil _⟩
  | store slot src =>
    exact .inl ⟨_, rfl, hRest.store (hUses src (by simp [Instr.uses])), List.append_nil _⟩
  | arith op dst left right =>
    refine .inl ⟨_, rfl, hRest.write (hDst dst rfl) rfl rfl ?_, List.append_nil _⟩
    rw [hRest.regs left (hUses left (by simp [Instr.uses])),
      hRest.regs right (hUses right (by simp [Instr.uses]))]
    rfl
  | less dst left right =>
    refine .inl ⟨_, rfl, hRest.write (hDst dst rfl) rfl rfl ?_, List.append_nil _⟩
    rw [hRest.regs left (hUses left (by simp [Instr.uses])),
      hRest.regs right (hUses right (by simp [Instr.uses]))]
    rfl
  | call dst callee args =>
    have hArgs : args.map (Frame.read { frame with rest := rest }) = args.map s.regs :=
      hRest.map_read hUses
    refine .inr ⟨callee, args.map s.regs, dst, _, ?_, hRest.write (hDst dst rfl) rfl rfl rfl, rfl⟩
    rw [← hArgs]
    rfl

theorem get_setAll {c : Cells} {regs : Reg → Float} {bound : Nat} (params : List Reg)
    (values : List Float) (h : ∀ r, r < bound → c.get r = regs r) {r : Reg} (hr : r < bound) :
    (c.setAll params values).get r = bindAll regs params values r := by
  induction params generalizing c regs values with
  | nil => simpa [Cells.setAll, bindAll] using h r hr
  | cons p params ih =>
    cases values with
    | nil => simpa [Cells.setAll, bindAll] using h r hr
    | cons x values =>
      refine ih values fun q hq => ?_
      rw [Cells.get_set, h q hq]

theorem get_setAll_of_le {c : Cells} {bound : Nat} {params : List Reg} (values : List Float)
    (hBound : ∀ p ∈ params, p < bound) {cell : Nat} (hCell : bound ≤ cell) :
    (c.setAll params values).get cell = c.get cell := by
  induction params generalizing c values with
  | nil => rfl
  | cons p params ih =>
    cases values with
    | nil => rfl
    | cons x values =>
      have hp := hBound p List.mem_cons_self
      rw [Cells.setAll, ih values fun q hq => hBound q (List.mem_cons_of_mem _ hq)]
      exact Cells.get_set_of_ne c x (Nat.ne_of_gt (Nat.lt_of_lt_of_le hp hCell))

theorem Shows.startBlock (h : frame.Shows c body rest t s) (label : Label)
    (hBound : ∀ p ∈ (body.block label).params, p < body.regCount) (values : List Float) :
    (frame.startBlock label values).Shows c body (body.block label).instrs
      (body.block label).terminator (s.bind (body.block label).params values) where
  body_eq := h.body_eq
  args_eq := h.args_eq
  rest_eq := by rw [← h.body_eq]; rfl
  terminator_eq := by rw [← h.body_eq]; rfl
  regs r hr := by
    show (frame.cells.setAll (frame.body.block label).params values).get r = _
    rw [h.body_eq]
    exact get_setAll _ values h.regs hr
  slots slot := by
    show (frame.cells.setAll (frame.body.block label).params values).get
      (frame.body.slotCell slot) = _
    rw [h.body_eq, get_setAll_of_le values hBound
      (show body.regCount ≤ body.slotCell slot from Nat.le_add_right _ _)]
    have hSlot := h.slots slot
    unfold load at hSlot
    rwa [h.body_eq] at hSlot

theorem shows_start (c : Setting) (body : Body)
    (hBound : ∀ p ∈ (body.block body.entry).params, p < body.regCount) :
    (start body c.args).Shows c body (body.block body.entry).instrs
      (body.block body.entry).terminator Store.initial := by
  have hEmpty : Frame.Shows c body
      { body := body, args := c.args.toArray, rest := [], terminator := .unreachable,
        cells := Cells.ofSize body.cellCount } [] .unreachable Store.initial :=
    ⟨rfl, rfl, rfl, rfl, fun r _ => Cells.get_ofSize _ r, fun slot => Cells.get_ofSize _ _⟩
  have hStart := hEmpty.startBlock body.entry hBound []
  have hBind : Store.initial.bind (body.block body.entry).params [] = Store.initial := by
    cases hParams : (body.block body.entry).params <;> rfl
  rwa [hBind] at hStart

/-- Writing values to slots leaves the registers alone. -/
theorem Shows.fill (h : frame.Shows c body rest t s) (contents : List Float) (slot : Slot) :
    (frame.fill slot contents).Shows c body rest t
      { s with slots := fun other =>
          if slot ≤ other then contents.getD (other - slot) (s.slots other)
          else s.slots other } := by
  induction contents generalizing frame s slot with
  | nil => simpa [Frame.fill] using h
  | cons x contents ih =>
    have hStored : (frame.store slot x).Shows c body rest t
        { s with slots := fun other => if other = slot then x else s.slots other } :=
      ⟨h.body_eq, h.args_eq, h.rest_eq, h.terminator_eq,
        fun r hr => (read_store_of_lt frame slot x (h.body_eq ▸ hr)).trans (h.regs r hr),
        fun other => by rw [load_store, h.slots]⟩
    have hRest := ih hStored (slot + 1)
    refine ⟨hRest.body_eq, hRest.args_eq, hRest.rest_eq, hRest.terminator_eq, hRest.regs,
      fun other => (hRest.slots other).trans ?_⟩
    rcases Nat.lt_trichotomy other slot with hBelow | hEq | hAbove
    · simp [Nat.not_le_of_lt hBelow, Nat.not_le_of_lt (Nat.lt_succ_of_lt hBelow),
        Nat.ne_of_lt hBelow]
    · dsimp only
      rw [if_neg (hEq ▸ Nat.not_succ_le_self slot)]
      simp [hEq]
    · have hGap : other - slot = other - (slot + 1) + 1 :=
        (Nat.sub_add_cancel (Nat.sub_pos_of_lt hAbove)).symm
      simp [Nat.le_of_lt hAbove, Nat.succ_le_of_lt hAbove, Nat.ne_of_gt hAbove, hGap]

/-- A frame at the start of a body whose slots have been filled. -/
theorem shows_fill (c : Setting) (body : Body)
    (hBound : ∀ p ∈ (body.block body.entry).params, p < body.regCount) (contents : List Float) :
    ((start body c.args).fill 0 contents).Shows c body (body.block body.entry).instrs
      (body.block body.entry).terminator (Store.holding fun slot => contents.getD slot 0.0) := by
  have hFill := (shows_start c body hBound).fill contents 0
  simpa [Store.holding, Store.initial] using hFill

/-- What the terminator does to a frame whose instructions are done. -/
theorem Shows.step_terminator (h : frame.Shows c body [] t s)
    (hUses : ∀ r ∈ t.uses, r < body.regCount)
    (hParams : ∀ label ∈ t.successors, ∀ p ∈ (body.block label).params, p < body.regCount) :
    match t.exit s.regs with
    | .returned x => frame.step = .returned x
    | .goto label values => label ∈ t.successors ∧ ∃ after, frame.step = .next after ∧
        after.Shows c body (body.block label).instrs (body.block label).terminator
          (s.bind (body.block label).params values)
    | .stuck => frame.step = .trapped := by
  have hStep : frame.step = frame.doTerminator t := by
    unfold step
    rw [h.rest_eq, h.terminator_eq]
  have hEdge : ∀ e ∈ t.edges,
      e.target ∈ t.successors ∧ (frame.takeEdge e).Shows c body (body.block e.target).instrs
        (body.block e.target).terminator
        (s.bind (body.block e.target).params (e.args.map s.regs)) := by
    intro e he
    have hTarget : e.target ∈ t.successors := List.mem_map_of_mem he
    refine ⟨hTarget, ?_⟩
    have hArgs : ∀ r ∈ e.args, r < body.regCount := fun r hr =>
      hUses r (List.mem_append_right _ (List.mem_flatMap.mpr ⟨e, he, hr⟩))
    rw [takeEdge, h.map_read hArgs]
    exact h.startBlock e.target (hParams e.target hTarget) _
  rw [hStep]
  cases t with
  | ret value =>
    show Step.returned (frame.read value) = Step.returned (s.regs value)
    rw [h.regs value (hUses value (by simp [Terminator.uses, Terminator.operands]))]
  | jump e =>
    obtain ⟨hTarget, hShows⟩ := hEdge e (by simp [Terminator.edges])
    exact ⟨hTarget, _, rfl, hShows⟩
  | branch condition onTrue onFalse =>
    have hCondition : frame.read condition = s.regs condition :=
      h.regs condition (hUses condition (by simp [Terminator.uses, Terminator.operands]))
    simp only [doTerminator, Terminator.exit, hCondition]
    by_cases hTrue : countsAsTrue (s.regs condition) = true
    · rw [if_pos hTrue, if_pos hTrue]
      obtain ⟨hTarget, hShows⟩ := hEdge onTrue (by simp [Terminator.edges])
      exact ⟨hTarget, _, rfl, hShows⟩
    · rw [if_neg hTrue, if_neg hTrue]
      obtain ⟨hTarget, hShows⟩ := hEdge onFalse (by simp [Terminator.edges])
      exact ⟨hTarget, _, rfl, hShows⟩
  | unreachable => rfl

end Frame

/-! ## Blocks that the entry leads to -/

/-- The entry leads to a block. -/
def Body.Reached (body : Body) (label : Label) : Prop :=
  body.graph.Reaches body.entry label

theorem Body.succ_graph (body : Body) (label : Label) :
    body.graph.succ label = (body.block label).terminator.successors := by
  unfold Digraph.succ graph block
  rw [Array.getD_eq_getD_getElem?, List.getElem?_toArray, List.getElem?_map,
    List.getD_eq_getElem?_getD]
  cases body.blocks[label]? <;> rfl

theorem Body.Reached.entry (body : Body) : body.Reached body.entry :=
  .root

theorem Body.Reached.successor {body : Body} {label target : Label} (h : body.Reached label)
    (hTarget : target ∈ (body.block label).terminator.successors) : body.Reached target :=
  Digraph.Reaches.step h (body.succ_graph label ▸ hTarget)

/-- The blocks that a run can come to use handed out registers only. -/
structure Body.RegsBounded (body : Body) : Prop where
  defs : ∀ label, body.Reached label → ∀ r ∈ (body.block label).defs, r < body.regCount
  uses : ∀ label, body.Reached label → ∀ r ∈ (body.block label).uses, r < body.regCount

section Bounded

variable {c : Setting} {body : Body}

theorem Body.RegsBounded.params (h : body.RegsBounded) {label : Label}
    (hReached : body.Reached label) : ∀ r ∈ (body.block label).params, r < body.regCount :=
  fun r hr => h.defs label hReached r (List.mem_append_left _ hr)

theorem Body.RegsBounded.instr (h : body.RegsBounded) {label : Label}
    (hReached : body.Reached label) {i : Instr} (hi : i ∈ (body.block label).instrs) :
    (∀ r, i.dst = some r → r < body.regCount) ∧ ∀ r ∈ i.uses, r < body.regCount := by
  constructor
  · intro r hr
    exact h.defs label hReached r
      (List.mem_append_right _ (List.mem_filterMap.mpr ⟨i, hi, hr⟩))
  · intro r hr
    exact h.uses label hReached r (List.mem_append_left _ (List.mem_flatMap.mpr ⟨i, hi, hr⟩))

/-- A frame stands in a block that the entry leads to. -/
structure Frame.At (c : Setting) (body : Body) (frame : Frame) (label : Label)
    (rest : List Instr) (s : Store) : Prop where
  reached : body.Reached label
  suffix : rest <:+ (body.block label).instrs
  shown : frame.Shows c body rest (body.block label).terminator s

/-- A step of a frame that goes on leads to a place from which the same is yielded. -/
theorem Frame.At.step_cases (hBounded : body.RegsBounded) {frame : Frame} {label : Label}
    {rest : List Instr} {s : Store} (h : frame.At c body label rest s) :
    (∃ y, frame.step = .returned y ∧
      body.YieldsAt c rest (body.block label).terminator s y s.calls) ∨
    (∃ after target rest' s', frame.step = .next after ∧ after.At c body target rest' s' ∧
      s'.calls = s.calls ∧ ∀ x all, body.YieldsAt c rest' (body.block target).terminator s' x all →
        body.YieldsAt c rest (body.block label).terminator s x all) ∨
    (∃ callee args dst after rest' s', frame.step = .call callee args dst after ∧
      (after.write dst (c.answers s.calls ⟨callee, args⟩)).At c body label rest' s' ∧
      s'.calls = s.calls ++ [⟨callee, args⟩] ∧
      ∀ x all, body.YieldsAt c rest' (body.block label).terminator s' x all →
        body.YieldsAt c rest (body.block label).terminator s x all) ∨
    frame.step = .trapped := by
  obtain ⟨hReached, hSuffix, hShows⟩ := h
  cases rest with
  | nil =>
    have hEnd := hShows.step_terminator
      (fun r hr => hBounded.uses label hReached r (List.mem_append_right _ hr))
      (fun target hTarget => hBounded.params (hReached.successor hTarget))
    cases hExit : (body.block label).terminator.exit s.regs with
    | returned y =>
      rw [hExit] at hEnd
      refine .inl ⟨y, hEnd, 1, ?_⟩
      rw [Body.exec_succ, Store.run_nil, hExit]
    | goto target values =>
      rw [hExit] at hEnd
      obtain ⟨hTarget, after, hStep, hAfter⟩ := hEnd
      refine .inr (.inl ⟨after, target, _, _, hStep,
        ⟨hReached.successor hTarget, List.suffix_refl _, hAfter⟩, rfl, ?_⟩)
      rintro x all ⟨count, hCount⟩
      refine ⟨count + 1, ?_⟩
      rw [Body.exec_succ, Store.run_nil, hExit]
      exact hCount
    | stuck =>
      rw [hExit] at hEnd
      exact .inr (.inr (.inr hEnd))
  | cons i rest =>
    have hSuffix' := (List.suffix_cons i rest).trans hSuffix
    have hExec : ∀ x all,
        body.YieldsAt c rest (body.block label).terminator (i.effect c s) x all →
          body.YieldsAt c (i :: rest) (body.block label).terminator s x all := by
      rintro x all ⟨count, hCount⟩
      exact ⟨count, (body.exec_append c count [i] rest _ s).trans hCount⟩
    obtain ⟨hDst, hUses⟩ := hBounded.instr hReached (hSuffix.mem List.mem_cons_self)
    rcases hShows.step_instr hDst hUses with
      ⟨after, hStep, hAfter, hSame⟩ | ⟨callee, args, dst, after, hStep, hAfter, hMore⟩
    · exact .inr (.inl ⟨after, label, rest, _, hStep, ⟨hReached, hSuffix', hAfter⟩, hSame, hExec⟩)
    · exact .inr (.inr (.inl ⟨callee, args, dst, after, rest, _, hStep,
        ⟨hReached, hSuffix', hAfter⟩, hMore, hExec⟩))

/-- What a frame returns is what running blocks from its place yields. -/
theorem Frame.Returns.yieldsAt (hBounded : body.RegsBounded) {calls all : List Call}
    {frame : Frame} {x : Float} (h : Frame.Returns c.answers calls frame x all) :
    ∀ {label : Label} {rest : List Instr} {s : Store}, frame.At c body label rest s →
      s.calls = calls → body.YieldsAt c rest (body.block label).terminator s x all := by
  induction h with
  | @returned calls frame x stop =>
    intro label rest s hAt hCalls
    rcases hAt.step_cases hBounded with ⟨y, hStep, hYields⟩ | ⟨_, _, _, _, hStep, -⟩ |
      ⟨_, _, _, _, _, _, hStep, -⟩ | hStep <;> rw [stop] at hStep
    · rw [Step.returned.inj hStep, ← hCalls]
      exact hYields
    all_goals cases hStep
  | @next calls all frame after x step _ ih =>
    intro label rest s hAt hCalls
    rcases hAt.step_cases hBounded with ⟨_, hStep, -⟩ |
      ⟨other, target, rest', s', hStep, hAfter, hSame, hYields⟩ |
      ⟨_, _, _, _, _, _, hStep, -⟩ | hStep <;> rw [step] at hStep
    case inr.inl =>
      obtain rfl := Step.next.inj hStep
      exact hYields x all (ih hAfter (hSame.trans hCalls))
    all_goals cases hStep
  | @call calls all frame after x callee args dst step _ ih =>
    intro label rest s hAt hCalls
    rcases hAt.step_cases hBounded with ⟨_, hStep, -⟩ | ⟨_, _, _, _, hStep, -⟩ |
      ⟨callee', args', dst', other, rest', s', hStep, hAfter, hMore, hYields⟩ | hStep <;>
      rw [step] at hStep
    case inr.inr.inl =>
      obtain ⟨rfl, rfl, rfl, rfl⟩ := Step.call.inj hStep
      rw [hCalls] at hAfter hMore
      exact hYields x all (ih hAfter hMore)
    all_goals cases hStep

/-- What running blocks yields is what a frame at the same place returns. -/
theorem Frame.Shows.returns (hBounded : body.RegsBounded) (count : Nat) :
    ∀ {label : Label} {rest : List Instr} {s : Store} {frame : Frame} {x : Float}
      {all : List Call}, body.Reached label → rest <:+ (body.block label).instrs →
      frame.Shows c body rest (body.block label).terminator s →
      body.exec c count rest (body.block label).terminator s = some (x, all) →
      Frame.Returns c.answers s.calls frame x all := by
  -- A block may be entered again, so the induction is on the number of blocks that are run, and
  -- within a block on the instructions that are left.
  induction count with
  | zero =>
    intro label rest s frame x all _ _ _ hExec
    simp [Body.exec] at hExec
  | succ count ih =>
    intro label rest
    induction rest with
    | nil =>
      intro s frame x all hReached _ hShows hExec
      have hEnd := hShows.step_terminator
        (fun r hr => hBounded.uses label hReached r (List.mem_append_right _ hr))
        (fun target hTarget => hBounded.params (hReached.successor hTarget))
      rw [Body.exec_succ, Store.run_nil] at hExec
      revert hEnd hExec
      cases (body.block label).terminator.exit s.regs with
      | returned y =>
        intro hExec hEnd
        obtain ⟨rfl, rfl⟩ := Prod.mk.inj (Option.some.inj hExec)
        exact .returned hEnd
      | goto target values =>
        rintro hExec ⟨hTarget, after, hStep, hAfter⟩
        have hRest : Frame.Returns c.answers (s.bind (body.block target).params values).calls
            after x all :=
          ih (hReached.successor hTarget) (List.suffix_refl _) hAfter hExec
        exact .next hStep hRest
      | stuck =>
        intro hExec
        simp at hExec
    | cons i rest ihRest =>
      intro s frame x all hReached hSuffix hShows hExec
      have hExec' : body.exec c (count + 1) rest (body.block label).terminator (i.effect c s) =
          some (x, all) :=
        (body.exec_append c (count + 1) [i] rest _ s).symm.trans hExec
      have hSuffix' := (List.suffix_cons i rest).trans hSuffix
      obtain ⟨hDst, hUses⟩ := hBounded.instr hReached (hSuffix.mem List.mem_cons_self)
      rcases hShows.step_instr hDst hUses with
        ⟨after, hStep, hAfter, hSame⟩ | ⟨callee, args, dst, after, hStep, hAfter, hMore⟩
      · have hRest := ihRest hReached hSuffix' hAfter hExec'
        rw [hSame] at hRest
        exact .next hStep hRest
      · have hRest := ihRest hReached hSuffix' hAfter hExec'
        rw [hMore] at hRest
        exact .call hStep hRest

/-- Running blocks over a store and stepping through frames come to the same results. -/
theorem Body.returnsHolding_iff_yieldsHolding (hBounded : body.RegsBounded) (answers : Answers)
    (args contents : List Float) (x : Float) (calls : List Call) :
    body.ReturnsHolding answers args contents x calls ↔
      body.YieldsHolding { args := args, answers := answers } (fun slot => contents.getD slot 0.0)
        x calls := by
  have hEntry := Body.Reached.entry body
  have hStart := Frame.shows_fill { args := args, answers := answers } body
    (hBounded.params hEntry) contents
  constructor
  · intro h
    exact Frame.Returns.yieldsAt (c := { args := args, answers := answers }) hBounded h
      ⟨hEntry, List.suffix_refl _, hStart⟩ rfl
  · rintro ⟨count, hCount⟩
    exact hStart.returns hBounded count hEntry (List.suffix_refl _) hCount

/-- The same of a body whose slots hold nothing at the start. -/
theorem Body.returns_iff_yields (hBounded : body.RegsBounded) (answers : Answers)
    (args : List Float) (x : Float) (calls : List Call) :
    body.Returns answers args x calls ↔
      body.Yields { args := args, answers := answers } x calls :=
  Body.returnsHolding_iff_yieldsHolding hBounded answers args [] x calls

end Bounded

end Ir

end LiveCompiler
