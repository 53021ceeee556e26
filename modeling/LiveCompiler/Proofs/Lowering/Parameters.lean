import LiveCompiler.Proofs.Lowering.Acceptance
import LiveCompiler.Proofs.Lowering.Correctness
import LiveCompiler.Proofs.Pass.Substitution

/-!
# How parameters get their arguments

A lowered body begins with two instructions for each parameter: one reads an argument, the other
stores it into the slot of the parameter (`entry_arrivals`).  The index of the argument has sixteen
bits, but nothing bounds the number of parameters.  So a parameter gets the argument at its own
place as long as the place fits into the index, and beyond that the arguments come again from the
first one on (`parameters_arrive`).
-/

namespace LiveCompiler

open Ir

namespace Lowering

open Stage

/-! ## The first instructions of a body -/

/-- The instructions that take in so many parameters, from a given one on. -/
def arrivals : Nat → Nat → List Instr
  | _, 0 => []
  | index, count + 1 =>
    .param index (UInt16.ofNat index) :: .store index index :: arrivals (index + 1) count

theorem getElem?_arrivals (count : Nat) : ∀ {index k : Nat}, k < count →
    (arrivals index count)[2 * k]? = some (.param (index + k) (UInt16.ofNat (index + k))) ∧
      (arrivals index count)[2 * k + 1]? = some (.store (index + k) (index + k)) := by
  induction count with
  | zero => exact fun hk => absurd hk (Nat.not_lt_zero _)
  | succ count ih =>
    intro index k hk
    cases k with
    | zero => exact ⟨rfl, rfl⟩
    | succ k =>
      obtain ⟨hParam, hStore⟩ := @ih (index + 1) k (by omega)
      rw [arrivals, show 2 * (k + 1) = 2 * k + 1 + 1 by omega,
        show index + (k + 1) = index + 1 + k by omega]
      simp only [List.getElem?_cons_succ]
      exact ⟨hParam, hStore⟩

section Arrivals

variable {callable : FuncId → Nat → Prop} {st : Stage}

theorem here_receive (h : st.Sound callable) {index : Nat}
    (hRead : (UInt16.ofNat index).toNat < st.body.arity) :
    (st.receive index).here.instrs = st.here.instrs ++
      [.param st.body.regCount (UInt16.ofNat index),
        .store st.body.slots.length st.body.regCount] := by
  obtain ⟨hWrite, -⟩ := h.read hRead
  have hParam : (st.write (.param st.body.regCount (UInt16.ofNat index))).here.instrs =
      st.here.instrs ++ [.param st.body.regCount (UInt16.ofNat index)] :=
    congrArg Block.instrs (here_append h.freshReg.sound _)
  have hStore : (st.receive index).here.instrs =
      (st.write (.param st.body.regCount (UInt16.ofNat index))).here.instrs ++
        [.store st.body.slots.length st.body.regCount] :=
    congrArg Block.instrs (here_append hWrite.sound.freshSlot.sound _)
  rw [hStore, hParam, List.append_assoc]
  rfl

theorem length_slots_receive (st : Stage) (index : Nat) :
    (st.receive index).body.slots.length = st.body.slots.length + 1 := by
  have hLength : ∀ other : Stage, other.body.slots.length = other.builder.slotCount :=
    fun other => List.length_replicate
  rw [hLength, hLength]
  rfl

/-- Taking in parameters appends their instructions, if registers and slots are in step with
them. -/
theorem lowerParams_here (params : List String) :
    ∀ {scope final : Scope} {index : Nat} {st : Stage} {b' : Builder}, st.Sound callable →
    scope.InBody st.body → st.body.regCount = index → st.body.slots.length = index →
    index + params.length ≤ st.body.arity →
    (lowerParams scope index params).run st.builder = .ok (final, b') →
    (b'.body.block st.current).instrs = st.here.instrs ++ arrivals index params.length := by
  induction params with
  | nil =>
    intro scope final index st b' _ _ _ _ _ hRun
    rw [lowerParams, run_return] at hRun
    obtain ⟨rfl, rfl⟩ := Prod.mk.inj (Except.ok.inj hRun)
    exact (List.append_nil _).symm
  | cons param rest ih =>
    intro scope final index st b' hSound hScope hRegs hSlots hArity hRun
    rw [List.length_cons] at hArity
    have hRead : (UInt16.ofNat index).toNat < st.body.arity := by
      rw [UInt16.toNat_ofNat']
      exact Nat.lt_of_le_of_lt (Nat.mod_le _ _) (by omega)
    have hReceive := hSound.receive hRead
    rw [lowerParams, run_bind_appendTo, run_freshSlot, run_append] at hRun
    have hRest := ih hReceive.sound (hScope.receive param index hReceive.grows)
      (congrArg (· + 1) hRegs) (by rw [length_slots_receive, hSlots])
      (by rw [hReceive.grows.arity_eq]; omega) hRun
    rw [show (st.receive index).current = st.current from rfl, here_receive hSound hRead, hRegs,
      hSlots, List.append_assoc] at hRest
    exact hRest

end Arrivals

variable {procedure : Procedure} {name : String} {this : FuncId} {kind : FunctionKind}
  {symbols : Symbols} {body : Body}

/-- A lowered body begins by taking in its parameters. -/
theorem entry_arrivals (h : lowerProcedure procedure name this kind symbols = .ok body) :
    arrivals 0 procedure.signature.arity <+: (body.block body.entry).instrs := by
  obtain ⟨scope, st₁, result, st₂, hParams, hLeads₁, -, -, hLeads₂, -, rfl⟩ :=
    lowerProcedure_stages h
  have hStart := lowerParams_here procedure.signature.params
    (@sound_start (namesFor procedure this kind symbols).Callable name
      procedure.signature.arity) (fun _ hEntry => absurd hEntry List.not_mem_nil) rfl rfl
    (Nat.le_of_eq (Nat.zero_add _)) hParams
  have hGrows := hLeads₂.grows.trans (hLeads₂.sound.grows_leave (.ret result) 0)
  have hEntry : (st₂.builder.endBlock (.ret result)).body.entry = 0 :=
    (hLeads₁.grows.trans hGrows).entry_eq
  have hHere : (st₁.body.block 0).instrs = arrivals 0 procedure.signature.arity := hStart
  rw [hEntry, ← hHere]
  exact hGrows.instrs 0 (Nat.lt_of_lt_of_le Nat.zero_lt_one hLeads₁.grows.length_le)

/-! ## What a parameter stands for -/

/-- Of variables with different names each has its own value. -/
theorem lookup_reverse_zip {names : List String} {values : List Float} (hNodup : names.Nodup)
    {k : Nat} (hk : k < names.length) (hValue : k < values.length) :
    (names.zip values).reverse.lookup names[k] = some values[k] := by
  have hZip : k < (names.zip values).length := by
    rw [List.length_zip]
    omega
  have hMem : (names[k], values[k]) ∈ (names.zip values).reverse := by
    rw [List.mem_reverse]
    have hGet := List.getElem_mem hZip
    rwa [List.getElem_zip] at hGet
  cases hLookup : (names.zip values).reverse.lookup names[k] with
  | none =>
    have hAbsent := List.lookup_eq_none_iff.mp hLookup _ hMem
    simp at hAbsent
  | some value =>
    have hFound := List.mem_reverse.mp (mem_of_lookup hLookup)
    obtain ⟨m, hm, hEq⟩ := List.mem_iff_getElem.mp hFound
    rw [List.getElem_zip, Prod.mk.injEq] at hEq
    obtain rfl : m = k := (List.Nodup.getElem_inj_iff hNodup).mp hEq.1
    exact congrArg some hEq.2.symm

/-- Whatever their number, the parameters of a lowered body are taken in first, each with its own
register and slot, and the body returns what its expression evaluates to when each parameter stands
for the argument at its place, counted with sixteen bits. -/
theorem parameters_arrive (h : lowerProcedure procedure name this kind symbols = .ok body)
    (hDistinct : procedure.signature.params.Nodup) {args : List Float}
    (hArgs : args.length = procedure.signature.arity) :
    (∀ k, k < procedure.signature.arity →
      (body.block body.entry).instrs[2 * k]? = some (.param k (UInt16.ofNat k)) ∧
      (body.block body.entry).instrs[2 * k + 1]? = some (.store k k)) ∧
    (∀ (k : Nat) (hk : k < procedure.signature.params.length),
      (argumentBindings procedure (received args)).lookup procedure.signature.params[k] =
        some (args.getD (k % 65536) 0.0)) ∧
    ∀ (answers : Answers) (x : Float) (calls : List Call),
      Evaluates (namesFor procedure this kind symbols) answers procedure.body
          (argumentBindings procedure (received args)) [] x calls ↔
        body.Returns answers args x calls := by
  refine ⟨fun k hk => ?_, fun k hk => ?_, fun answers x calls => ?_⟩
  · obtain ⟨rest, hRest⟩ := entry_arrivals h
    obtain ⟨hParam, hStore⟩ := @getElem?_arrivals procedure.signature.arity 0 k hk
    rw [Nat.zero_add] at hParam hStore
    rw [← hRest]
    rw [List.getElem?_append_left (List.getElem?_eq_some_iff.mp hParam).1,
      List.getElem?_append_left (List.getElem?_eq_some_iff.mp hStore).1]
    exact ⟨hParam, hStore⟩
  · have hValue : k < (received args).length := by
      rw [length_received, hArgs]
      exact hk
    rw [← getElem_received hValue]
    exact lookup_reverse_zip hDistinct hk hValue
  · rw [Body.returns_iff_yields (lowerProcedure_wellFormed h).regsBounded]
    exact yields_iff_received (c := { args := args, answers := answers }) h hArgs x calls

/-! ## More parameters than indices -/

/-- A function of so many parameters and one more, which gives back the last one. -/
def lastOf (count : Nat) : Procedure where
  signature :=
    { name := "f"
      params := (List.range (count + 1)).map fun k => String.ofList (List.replicate (k + 1) 'p') }
  body := .variable (String.ofList (List.replicate (count + 1) 'p'))

theorem length_params_lastOf (count : Nat) :
    (lastOf count).signature.params.length = count + 1 := by
  simp [lastOf]

theorem getElem_params_lastOf {count k : Nat} (hk : k < (lastOf count).signature.params.length) :
    (lastOf count).signature.params[k] = String.ofList (List.replicate (k + 1) 'p') := by
  simp [lastOf]

theorem nodup_params_lastOf (count : Nat) : (lastOf count).signature.params.Nodup := by
  apply List.Nodup.map _ List.nodup_range
  intro k m hSame
  have hLength := congrArg List.length (String.ofList_injective hSame)
  simpa using hLength

theorem exists_lowered_lastOf (count : Nat) :
    ∃ body, lowerProcedure (lastOf count) "f" 0 .definition Symbols.empty = .ok body := by
  rw [exists_lowerProcedure_iff]
  constructor
  · intro _
    exact acceptSignature_iff.mpr ⟨nodup_params_lastOf count, nofun⟩
  · apply Expr.meaningful_variable_iff.mpr
    exact List.mem_map.mpr ⟨count, List.mem_range.mpr (Nat.lt_succ_self count), rfl⟩

/-- With one parameter more than there are indices, the last parameter gets the first argument. -/
theorem parameters_arrive_lastOf : ∃ body,
    lowerProcedure (lastOf 65536) "f" 0 .definition Symbols.empty = .ok body ∧
      (lastOf 65536).signature.params.Nodup ∧
      (2.0 :: List.replicate 65536 1.0).length = (lastOf 65536).signature.arity ∧
      (body.block body.entry).instrs[131072]? = some (.param 65536 0) ∧
      ∀ answers, body.Returns answers (2.0 :: List.replicate 65536 1.0) 2.0 [] := by
  obtain ⟨body, hBody⟩ := exists_lowered_lastOf 65536
  have hNodup := nodup_params_lastOf 65536
  have hLength : (2.0 :: List.replicate 65536 1.0).length = (lastOf 65536).signature.arity := by
    rw [List.length_cons, List.length_replicate]
    exact (length_params_lastOf 65536).symm
  have hLast : 65536 < (lastOf 65536).signature.params.length := by
    rw [length_params_lastOf]
    omega
  obtain ⟨hInstrs, hLookup, hReturns⟩ := parameters_arrive hBody hNodup hLength
  refine ⟨body, hBody, hNodup, hLength, (hInstrs 65536 hLast).1, fun answers => ?_⟩
  rw [← hReturns]
  refine ⟨?_, rfl⟩
  have hFirst := hLookup 65536 hLast
  rw [getElem_params_lastOf hLast] at hFirst
  exact hFirst

end Lowering

end LiveCompiler
