import LiveCompiler.Pass.Ownership
import LiveCompiler.Proofs.Pass.Promotion.Feeding
import LiveCompiler.Proofs.Pass.Substitution

/-!
# The walk that renames slots

The walk carries the registers that hold the slots, the replacements of loads, and whether the
register for zero is in use (`Carried`).  An instruction changes what is carried in one way
(`advance`), so what is carried at a point of a block is a fold over the instructions before it.
Instructions that leave the promoted slots alone (`leavesSlots`) stay as they are.

`Walk` is the history of the walk, with what was carried at the start of each block.  `Renamed`
says what the walk has made of the body.
-/

namespace LiveCompiler

open Ir

namespace Promotion

/-- What the walk carries from instruction to instruction. -/
structure Carried where
  current : Current
  replaced : Substitution
  usesZero : Bool

/-- What an instruction does to what is carried.  Slots that are not promoted are left alone. -/
def advance (slots : List Slot) (z : Reg) (s : Carried) : Instr → Carried
  | .load dst slot =>
    if slot ∈ slots then
      { s with
        replaced := s.replaced.insert dst (holding z s.current slot)
        usesZero := s.usesZero || (s.current.lookup slot).isNone }
    else s
  | .store slot src =>
    if slot ∈ slots then
      { s with current := (slot, s.replaced.representative src) :: s.current }
    else s
  | _ => s

/-- Whether an instruction neither loads from nor stores to a promoted slot. -/
def leavesSlots (slots : List Slot) (i : Instr) : Bool :=
  (SlotOwnership.touched i).all fun slot => !slots.contains slot

theorem leavesSlots_iff {slots : List Slot} {i : Instr} : leavesSlots slots i = true ↔
    ∀ slot, SlotOwnership.touched i = some slot → slot ∉ slots := by
  unfold leavesSlots
  cases SlotOwnership.touched i <;> simp

/-- An instruction leaves the promoted slots alone, or loads from one, or stores to one. -/
theorem leavesSlots_cases (slots : List Slot) (i : Instr) : leavesSlots slots i = true ∨
    (∃ dst, ∃ slot ∈ slots, i = .load dst slot) ∨
      ∃ slot ∈ slots, ∃ src, i = .store slot src := by
  by_cases hLeaves : leavesSlots slots i = true
  · exact .inl hLeaves
  · rw [leavesSlots_iff] at hLeaves
    push Not at hLeaves
    obtain ⟨slot, hTouched, hMem⟩ := hLeaves
    cases i with
    | load dst other =>
      obtain rfl := Option.some.inj hTouched
      exact .inr (.inl ⟨dst, other, hMem, rfl⟩)
    | store other src =>
      obtain rfl := Option.some.inj hTouched
      exact .inr (.inr ⟨other, hMem, src, rfl⟩)
    | _ => cases hTouched

section Advance

variable {slots : List Slot} {slot : Slot}

theorem not_leavesSlots_load (h : slot ∈ slots) (dst : Reg) :
    leavesSlots slots (.load dst slot) = false :=
  Bool.eq_false_iff.mpr fun hLeaves => leavesSlots_iff.mp hLeaves slot rfl h

theorem not_leavesSlots_store (h : slot ∈ slots) (src : Reg) :
    leavesSlots slots (.store slot src) = false :=
  Bool.eq_false_iff.mpr fun hLeaves => leavesSlots_iff.mp hLeaves slot rfl h

theorem advance_of_leavesSlots {i : Instr} (h : leavesSlots slots i = true) (z : Reg)
    (s : Carried) : advance slots z s i = s := by
  rw [leavesSlots_iff] at h
  cases i with
  | load dst slot => exact if_neg (h slot rfl)
  | store slot src => exact if_neg (h slot rfl)
  | _ => rfl

theorem advance_load (h : slot ∈ slots) (z : Reg) (s : Carried) (dst : Reg) :
    advance slots z s (.load dst slot) =
      { s with
        replaced := s.replaced.insert dst (holding z s.current slot)
        usesZero := s.usesZero || (s.current.lookup slot).isNone } :=
  if_pos h

theorem advance_store (h : slot ∈ slots) (z : Reg) (s : Carried) (src : Reg) :
    advance slots z s (.store slot src) =
      { s with current := (slot, s.replaced.representative src) :: s.current } :=
  if_pos h

end Advance

theorem renameInstrs_of_leavesSlots {slots : List Slot} {i : Instr}
    (h : leavesSlots slots i = true) (z : Reg) (rest : List Instr) (current : Current)
    (replaced : Substitution) (usesZero : Bool) :
    renameInstrs slots z (i :: rest) current replaced usesZero =
      (i :: (renameInstrs slots z rest current replaced usesZero).1,
        (renameInstrs slots z rest current replaced usesZero).2) := by
  rw [leavesSlots_iff] at h
  cases i with
  | load dst slot => rw [renameInstrs, if_neg (by simpa using h slot rfl)]
  | store slot src => rw [renameInstrs, if_neg (by simpa using h slot rfl)]
  | _ => rfl

theorem renameInstrs_eq (slots : List Slot) (z : Reg) (instrs : List Instr) (s : Carried) :
    renameInstrs slots z instrs s.current s.replaced s.usesZero =
      (instrs.filter (leavesSlots slots), (instrs.foldl (advance slots z) s).current,
        (instrs.foldl (advance slots z) s).replaced,
        (instrs.foldl (advance slots z) s).usesZero) := by
  induction instrs generalizing s with
  | nil => rfl
  | cons i rest ih =>
    rw [List.foldl_cons]
    rcases leavesSlots_cases slots i with
      hLeaves | ⟨dst, slot, hMem, rfl⟩ | ⟨slot, hMem, src, rfl⟩
    · rw [renameInstrs_of_leavesSlots hLeaves, ih s, advance_of_leavesSlots hLeaves,
        List.filter_cons_of_pos hLeaves]
    · rw [renameInstrs, if_pos (List.contains_iff_mem.mpr hMem), advance_load hMem,
        List.filter_cons_of_neg (by rw [not_leavesSlots_load hMem dst]; exact Bool.false_ne_true)]
      exact ih { s with
        replaced := s.replaced.insert dst (holding z s.current slot)
        usesZero := s.usesZero || (s.current.lookup slot).isNone }
    · rw [renameInstrs, if_pos (List.contains_iff_mem.mpr hMem), advance_store hMem,
        List.filter_cons_of_neg (by rw [not_leavesSlots_store hMem src]; exact Bool.false_ne_true)]
      exact ih { s with current := (slot, s.replaced.representative src) :: s.current }

/-- The registers that hold the slots when a block is entered. -/
def entering (params : List SlotParam) (label : Label) (inherited : Current) : Current :=
  (paramsOf params label).foldl (fun current p => (p.slot, p.reg) :: current) inherited

section Walk

variable (body : Body) (slots : List Slot) (params : List SlotParam) (before : Label → Carried)

/-- What is carried when the given instructions of a block are done. -/
def carriedAt (label : Label) (done : List Instr) : Carried :=
  done.foldl (advance slots (zeroReg body params)) (before label)

/-- What is carried at the end of a block. -/
def carriedOut (label : Label) : Carried :=
  carriedAt body slots params before label (body.block label).instrs

/-- The register that holds a slot when the given instructions of a block are done. -/
def holder (label : Label) (done : List Instr) (slot : Slot) : Reg :=
  holding (zeroReg body params) (carriedAt body slots params before label done).current slot

/-- The register that holds a slot at the end of a block. -/
def holderOut (label : Label) (slot : Slot) : Reg :=
  holder body slots params before label (body.block label).instrs slot

/-- Whether the register for zero is in use when a block is done. -/
def usesZeroOut (label : Label) : Bool :=
  (carriedOut body slots params before label).usesZero ||
    (body.block label).terminator.edges.any
      (feedsZero params (carriedOut body slots params before label).current)

/-- The history of the walk: the blocks visited, the last one first, and what the visits leave
behind. -/
inductive Walk : List Label → Substitution → Bool → Prop
  | entry (start : before body.entry = ⟨[], Substitution.empty, false⟩) :
      Walk [body.entry] (carriedOut body slots params before body.entry).replaced
        (usesZeroOut body slots params before body.entry)
  | next {visited : List Label} {replaced : Substitution} {usesZero : Bool} {label parent : Label}
      (walk : Walk visited replaced usesZero) (fresh : label ∉ visited)
      (reached : body.Reached label) (ne_entry : label ≠ body.entry)
      (idom : body.dominance.idom label = some parent) (parent_visited : parent ∈ visited)
      (start : before label =
        ⟨entering params label (carriedOut body slots params before parent).current, replaced,
          usesZero⟩) :
      Walk (label :: visited) (carriedOut body slots params before label).replaced
        (usesZeroOut body slots params before label)

end Walk

variable {body : Body} {slots : List Slot} {params : List SlotParam}
  {before : Label → Carried} {visited : List Label} {replaced : Substitution} {usesZero : Bool}
  {label : Label}

theorem carriedAt_append (label : Label) (done more : List Instr) :
    carriedAt body slots params before label (done ++ more) =
      more.foldl (advance slots (zeroReg body params))
        (carriedAt body slots params before label done) :=
  List.foldl_append

theorem carriedAt_concat (label : Label) (done : List Instr) (i : Instr) :
    carriedAt body slots params before label (done ++ [i]) =
      advance slots (zeroReg body params) (carriedAt body slots params before label done) i :=
  carriedAt_append label done [i]

/-- The heading of a block changes nothing. -/
theorem carriedAt_heading (label : Label) (done : List Instr) :
    carriedAt body slots params before label (heading body params label ++ done) =
      carriedAt body slots params before label done := by
  unfold carriedAt
  rw [List.foldl_append]
  unfold heading
  split <;> rfl

/-- The history only tells of the blocks visited. -/
theorem Walk.congr {before' : Label → Carried}
    (h : Walk body slots params before visited replaced usesZero)
    (hSame : ∀ label ∈ visited, before' label = before label) :
    Walk body slots params before' visited replaced usesZero := by
  have hOut : ∀ {label}, before' label = before label →
      carriedOut body slots params before' label = carriedOut body slots params before label := by
    intro label hEq
    unfold carriedOut carriedAt
    rw [hEq]
  induction h with
  | entry start =>
    have hHere := hSame body.entry (List.mem_singleton.mpr rfl)
    have hWalk : Walk body slots params before' _ _ _ := .entry (hHere.trans start)
    unfold usesZeroOut at hWalk ⊢
    rwa [hOut hHere] at hWalk
  | @next visited replaced usesZero label parent walk fresh reached ne_entry idom parent_visited start ih =>
    have hHere := hSame label List.mem_cons_self
    have hParent := hSame parent (List.mem_cons_of_mem _ parent_visited)
    have hRest := ih fun l hl => hSame l (List.mem_cons_of_mem _ hl)
    have hWalk := hRest.next fresh reached ne_entry idom parent_visited
      (by rw [hHere, start, hOut hParent])
    unfold usesZeroOut at hWalk ⊢
    rwa [hOut hHere] at hWalk

/-! ## What the walk makes of the body -/

/-- The body in which the walk starts. -/
def appended (body : Body) (params : List SlotParam) : Body :=
  { appendSlotParams (emptyUnreached body.dominance body) params with
    regCount := zeroReg body params + 1 }

theorem block_appended (hShaped : body.Shaped) (hReached : body.Reached label) :
    (appended body params).block label =
      { body.block label with
        params := (body.block label).params ++ (paramsOf params label).map SlotParam.reg } := by
  have hLt := hShaped.lt_of_reached hReached
  have hMark := (isReachable_iff hShaped label).mpr hReached
  simp [appended, appendSlotParams, emptyUnreached, Body.block, hLt, hMark]

/-- The blocks visited have no loads and stores and pass on the registers that hold the slots. -/
structure Renamed (body : Body) (slots : List Slot) (params : List SlotParam)
    (before : Label → Carried) (visited : List Label) (s : Renaming) : Prop where
  entry : s.body.entry = body.entry
  arity : s.body.arity = body.arity
  regCount : s.body.regCount = zeroReg body params + 1
  slots_eq : s.body.slots = body.slots
  length : s.body.blocks.length = body.blocks.length
  ahead : ∀ label, label ∉ visited → s.body.block label = (appended body params).block label
  done : ∀ label ∈ visited, s.body.block label =
    { params := (body.block label).params ++ (paramsOf params label).map SlotParam.reg
      instrs := (body.block label).instrs.filter (leavesSlots slots)
      terminator := (body.block label).terminator.mapEdges
        (feed params (holderOut body slots params before label)) }
  atEnd : ∀ label ∈ visited, s.atEnd.lookup label =
    some (carriedOut body slots params before label).current

/-- What a visit does to the state of the walk. -/
theorem renameBlock_eq (hShaped : body.Shaped) (hReached : body.Reached label)
    {s : Renaming} (hBlock : s.body.block label = (appended body params).block label)
    {parent : Option Label} {inherited : Current}
    (hInherited : (parent.bind fun p => s.atEnd.lookup p).getD [] = inherited)
    (hStart : before label = ⟨entering params label inherited, s.replaced, s.usesZero⟩) :
    renameBlock slots params (zeroReg body params) s (label, parent) =
      { body := s.body.modifyBlock label fun b =>
          { b with
            instrs := (body.block label).instrs.filter (leavesSlots slots)
            terminator := b.terminator.mapEdges
              (feed params (holderOut body slots params before label)) }
        replaced := (carriedOut body slots params before label).replaced
        usesZero := usesZeroOut body slots params before label
        atEnd := (label, (carriedOut body slots params before label).current) :: s.atEnd } := by
  have hInstrs : (s.body.block label).instrs = (body.block label).instrs := by
    rw [hBlock, block_appended hShaped hReached]
  have hTerminator : (s.body.block label).terminator = (body.block label).terminator := by
    rw [hBlock, block_appended hShaped hReached]
  have hRename := renameInstrs_eq slots (zeroReg body params) (body.block label).instrs
    (before label)
  rw [hStart] at hRename
  unfold renameBlock
  dsimp only
  rw [hInherited, hInstrs, hTerminator]
  unfold entering at hRename
  rw [hRename]
  have hOut : holderOut body slots params before label = holding (zeroReg body params)
      ((body.block label).instrs.foldl (advance slots (zeroReg body params))
        (before label)).current := rfl
  simp only [usesZeroOut, carriedOut, carriedAt, hOut, hStart, entering]
  rfl

theorem Renamed.congr {before' : Label → Carried} {s : Renaming}
    (h : Renamed body slots params before visited s)
    (hSame : ∀ label ∈ visited, before' label = before label) :
    Renamed body slots params before' visited s := by
  refine ⟨h.entry, h.arity, h.regCount, h.slots_eq, h.length, h.ahead, fun label hLabel => ?_,
    fun label hLabel => ?_⟩
  · have hHolder : holderOut body slots params before' label =
        holderOut body slots params before label := by
      funext slot
      unfold holderOut holder carriedAt
      rw [hSame label hLabel]
    rw [hHolder]
    exact h.done label hLabel
  · unfold carriedOut carriedAt
    rw [hSame label hLabel]
    exact h.atEnd label hLabel

/-- A visit renames one more block. -/
theorem Renamed.visit (hShaped : body.Shaped) {s : Renaming}
    (h : Renamed body slots params before visited s) (hFresh : label ∉ visited)
    (hReached : body.Reached label) {parent : Option Label} {inherited : Current}
    (hInherited : (parent.bind fun p => s.atEnd.lookup p).getD [] = inherited)
    (hStart : before label = ⟨entering params label inherited, s.replaced, s.usesZero⟩) :
    Renamed body slots params before (label :: visited)
      (renameBlock slots params (zeroReg body params) s
        (label, parent)) := by
  have hBlock := h.ahead label hFresh
  have hLt : label < s.body.blocks.length := h.length ▸ hShaped.lt_of_reached hReached
  rw [renameBlock_eq hShaped hReached hBlock hInherited hStart]
  refine ⟨h.entry, h.arity, h.regCount, h.slots_eq, (Body.length_modifyBlock _).trans h.length,
    fun other hOther => ?_, fun other hOther => ?_, fun other hOther => ?_⟩
  · rw [List.mem_cons, not_or] at hOther
    rw [Body.block_modifyBlock_of_ne _ hOther.1]
    exact h.ahead other hOther.2
  · rw [Body.block_modifyBlock]
    by_cases hEq : other = label
    · rw [if_pos ⟨hEq, hLt⟩, hEq, hBlock, block_appended hShaped hReached]
    · rw [if_neg fun hBoth => hEq hBoth.1]
      exact h.done other ((List.mem_cons.mp hOther).resolve_left hEq)
  · by_cases hEq : other = label
    · rw [hEq, List.lookup_cons_self]
    · rw [List.lookup_cons, beq_false_of_ne hEq]
      exact h.atEnd other ((List.mem_cons.mp hOther).resolve_left hEq)

theorem paramsOf_entry (hParams : SlotParams body slots params) : paramsOf params body.entry = [] :=
  List.filter_eq_nil_iff.mpr fun p hp => by simpa using hParams.ne_entry p hp

/-- The state in which the walk starts. -/
def walkStart (body : Body) (params : List SlotParam) : Renaming where
  body := appended body params
  replaced := Substitution.empty
  usesZero := false
  atEnd := []

/-- The walk so far, with what was carried at the start of each block. -/
def Walked (body : Body) (slots : List Slot) (params : List SlotParam) (visited : List Label)
    (s : Renaming) : Prop :=
  ∃ before, Walk body slots params before visited s.replaced s.usesZero ∧
    Renamed body slots params before visited s

theorem walked_first (hShaped : body.Shaped) (hParams : SlotParams body slots params) :
    Walked body slots params [body.entry]
      (renameBlock slots params (zeroReg body params)
        (walkStart body params) (body.entry, none)) := by
  obtain ⟨before, hBefore⟩ : ∃ before : Label → Carried, ∀ label,
      before label = ⟨[], Substitution.empty, false⟩ := ⟨fun _ => _, fun _ => rfl⟩
  have hNothing : Renamed body slots params before [] (walkStart body params) :=
    ⟨rfl, rfl, rfl, rfl, by simp [walkStart, appended, appendSlotParams, emptyUnreached],
      fun _ _ => rfl, fun _ h => absurd h List.not_mem_nil, fun _ h => absurd h List.not_mem_nil⟩
  have hInherited : ((none : Option Label).bind fun p =>
      (walkStart body params).atEnd.lookup p).getD [] = [] := rfl
  have hStart : before body.entry = ⟨entering params body.entry [],
      (walkStart body params).replaced, (walkStart body params).usesZero⟩ := by
    rw [hBefore, entering, paramsOf_entry hParams]
    rfl
  refine ⟨before, ?_, hNothing.visit hShaped List.not_mem_nil (.entry body) hInherited hStart⟩
  rw [renameBlock_eq hShaped (.entry body) rfl hInherited hStart]
  exact .entry (hBefore body.entry)

theorem Walked.next (hShaped : body.Shaped) {s : Renaming} {parent : Label}
    (h : Walked body slots params visited s) (hFresh : label ∉ visited)
    (hReached : body.Reached label) (hne : label ≠ body.entry)
    (hIdom : body.dominance.idom label = some parent) (hParent : parent ∈ visited) :
    Walked body slots params (label :: visited)
      (renameBlock slots params (zeroReg body params) s
        (label, some parent)) := by
  obtain ⟨before, hWalk, hRenamed⟩ := h
  -- What is carried into the block is put down for this block only.
  let start : Carried :=
    ⟨entering params label (carriedOut body slots params before parent).current, s.replaced,
      s.usesZero⟩
  have hOld : ∀ l ∈ visited, Function.update before label start l = before l := by
    intro l hl
    refine Function.update_of_ne ?_ _ _
    rintro rfl
    exact hFresh hl
  have hWalk' := hWalk.congr hOld
  have hRenamed' := hRenamed.congr hOld
  have hSame : carriedOut body slots params (Function.update before label start) parent =
      carriedOut body slots params before parent := by
    unfold carriedOut carriedAt
    rw [hOld parent hParent]
  have hInherited : ((some parent).bind fun p => s.atEnd.lookup p).getD [] =
      (carriedOut body slots params (Function.update before label start) parent).current := by
    rw [Option.bind_some, hRenamed'.atEnd parent hParent, Option.getD_some]
  have hStart : Function.update before label start label =
      ⟨entering params label
        (carriedOut body slots params (Function.update before label start) parent).current,
        s.replaced, s.usesZero⟩ := by
    rw [Function.update_self, hSame]
  refine ⟨_, ?_, hRenamed'.visit hShaped hFresh hReached hInherited hStart⟩
  rw [renameBlock_eq hShaped hReached (hRenamed'.ahead label hFresh) hInherited hStart]
  exact hWalk'.next hFresh hReached hne hIdom hParent hStart

/-- The walk visits the blocks that the entry leads to. -/
theorem exists_walked (hShaped : body.Shaped) (hParams : SlotParams body slots params) :
    ∃ visited, (∀ label, label ∈ visited ↔ body.Reached label) ∧
      Walked body slots params visited (body.dominance.preorder.foldl
        (renameBlock slots params (zeroReg body params))
        (walkStart body params)) := by
  obtain ⟨visited, hVisited, hWalked⟩ := Dominance.walk_induction
    (body.size_graph ▸ hShaped.entry_lt)
    (renameBlock slots params (zeroReg body params))
    (walkStart body params) (Walked body slots params) (walked_first hShaped hParams)
    fun _ _ _ _ h hFresh hOrder hne hIdom hParent =>
      h.next hShaped hFresh (hShaped.mem_order_iff.mp hOrder) hne hIdom hParent
  exact ⟨visited, fun label => (hVisited label).trans hShaped.mem_order_iff, hWalked⟩

end Promotion

end LiveCompiler
