import LiveCompiler.Proofs.Lowering.Shape
import LiveCompiler.Proofs.Lowering.Simulation

/-!
# Lowered bodies return what their expressions evaluate to

The arguments go into slots first, so the expression starts with the parameters in scope; its
value is what the body returns.
-/

namespace LiveCompiler

open Ir

namespace Lowering

open Stage

variable {c : Setting} {body : Body}

/-- The arguments as they arrive in the slots of the parameters.  The index of a parameter has
sixteen bits, so beyond these the arguments come again from the first one on. -/
def received (args : List Float) : List Float :=
  (List.range args.length).map fun index => args.getD (index % 65536) 0.0

theorem length_received (args : List Float) : (received args).length = args.length := by
  simp [received]

theorem getElem_received {args : List Float} {index : Nat} (h : index < (received args).length) :
    (received args)[index] = args.getD (index % 65536) 0.0 := by
  simp [received]

/-- As many arguments as there are indices arrive as they are. -/
theorem received_of_le {args : List Float} (h : args.length ≤ 65536) : received args = args := by
  apply List.ext_getElem (length_received args)
  intro index hLt hLt'
  rw [getElem_received, Nat.mod_eq_of_lt (by omega), List.getD_eq_getElem?_getD,
    List.getElem?_eq_getElem hLt', Option.getD_some]

/-- An argument goes into a new slot. -/
theorem arrives_receive {callable : FuncId → Nat → Prop} {st : Stage} (h : st.Sound callable)
    {index : Nat} (hRead : (UInt16.ofNat index).toNat < st.body.arity)
    (hLt : index < (received c.args).length) (hGrows : (st.receive index).body.Grows body)
    (s : Store) :
    ∃ s', Arrives c body st.builder s (st.receive index).builder s' ∧
      s'.slots st.body.slots.length = (received c.args)[index] ∧ Keeps st.builder s s' ∧
      s'.calls = s.calls := by
  obtain ⟨hWrite, hKnows⟩ := h.read hRead
  have hFirst := arrives_write (c := c) (s := s) h
    ((hWrite.sound.place hKnows).grows.trans hGrows)
  obtain ⟨s', hStore, hKeeps, hValue, hCalls⟩ := arrives_place (c := c) hWrite.sound hGrows
    ((Instr.param st.body.regCount (UInt16.ofNat index)).effect c s)
  refine ⟨s', hFirst.trans hStore, hValue.trans ?_, ?_, hCalls.trans (List.append_nil _)⟩
  · rw [Instr.regs_effect_of_eq rfl, getElem_received]
    show c.args.getD (UInt16.ofNat index).toNat 0.0 = _
    rw [UInt16.toNat_ofNat']
  · exact (keeps_effect rfl (Nat.le_refl _) rfl).trans (hKeeps.of_grows hWrite.grows)

/-- The arguments go into the slots of the parameters. -/
theorem lowerParams_arrives (callable : FuncId → Nat → Prop) (params : List String) :
    ∀ {scope final : Scope} {index : Nat} {st : Stage} {b' : Builder}, st.Sound callable →
    scope.InBody st.body → index + params.length ≤ st.body.arity →
    index + params.length ≤ c.args.length →
    (lowerParams scope index params).run st.builder = .ok (final, b') → b'.body.Grows body →
    ∀ s, ∃ s', Arrives c body st.builder s b' s' ∧ s'.calls = s.calls ∧
      final.values s' = (params.zip ((received c.args).drop index)).reverse ++ scope.values s := by
  induction params with
  | nil =>
    intro scope final index st b' _ _ _ _ hRun _ s
    rw [lowerParams, run_return] at hRun
    obtain ⟨rfl, rfl⟩ := Prod.mk.inj (Except.ok.inj hRun)
    exact ⟨s, Arrives.refl c body _ s, rfl, rfl⟩
  | cons param rest ih =>
    intro scope final index st b' hSound hScope hArity hArgs hRun hGrows s
    rw [List.length_cons] at hArity hArgs
    have hLt : index < (received c.args).length := by
      rw [length_received]
      omega
    have hRead : (UInt16.ofNat index).toNat < st.body.arity := by
      rw [UInt16.toNat_ofNat']
      exact Nat.lt_of_le_of_lt (Nat.mod_le _ _) (by omega)
    obtain ⟨hWrite, -⟩ := hSound.read hRead
    have hReceive := hSound.receive hRead
    have hInner := hScope.receive param index hReceive.grows
    have hArity' : index + 1 + rest.length ≤ (st.receive index).body.arity := by
      rw [hReceive.grows.arity_eq]
      omega
    rw [lowerParams, run_bind_appendTo, run_freshSlot, run_append] at hRun
    obtain ⟨st', hBuilder, hLeads, -⟩ :=
      lowerParams_leads callable rest (s := st.receive index) hReceive.sound hInner hArity' hRun
    have hGrows' := hLeads.grows.trans (hBuilder ▸ hGrows)
    obtain ⟨s₂, hStore, hValue, hOuter, hCalls₂⟩ :=
      arrives_receive (c := c) hSound hRead hLt hGrows' s
    obtain ⟨s', hRest, hCalls, hFinal⟩ := ih hReceive.sound hInner hArity'
      (by omega) hRun hGrows s₂
    refine ⟨s', hStore.trans hRest, hCalls.trans hCalls₂, ?_⟩
    have hTail : Scope.values ((param, st.body.slots.length) :: scope) s₂ =
        (param, (received c.args)[index]) :: scope.values s := by
      show (param, s₂.slots st.body.slots.length) :: scope.values s₂ = _
      rw [hValue, hScope.values_eq hOuter]
    rw [List.drop_eq_getElem_cons hLt, List.zip_cons_cons, List.reverse_cons, List.append_assoc,
      List.singleton_append, ← hTail]
    exact hFinal

/-- At its last place a body returns. -/
theorem execIn_ret {callable : FuncId → Nat → Prop} {st : Stage} (h : st.Sound callable)
    {result : Reg} (s : Store) (c : Setting) :
    st.builder.execIn c (st.builder.endBlock (.ret result)).body 1 s =
      some (s.regs result, s.calls) := by
  have hHere := block_leave_current h (.ret result) 0
  have hBlock : (st.builder.endBlock (.ret result)).body.block st.current =
      { st.here with terminator := .ret result } := hHere
  show Body.exec c _ 1 ((Body.block _ st.current).instrs.drop st.here.instrs.length)
    (Body.block _ st.current).terminator s = _
  rw [hBlock]
  show Body.exec c _ 1 (st.here.instrs.drop st.here.instrs.length) (.ret result) s = _
  rw [List.drop_length]
  rfl

/-- Running a lowered body yields what its expression evaluates to, with the arguments as they
arrive. -/
theorem yields_iff_received {procedure : Procedure} {name : String} {this : FuncId}
    {kind : FunctionKind} {symbols : Symbols}
    (h : lowerProcedure procedure name this kind symbols = .ok body)
    (hArgs : c.args.length = procedure.signature.arity) (x : Float) (calls : List Call) :
    Evaluates (namesFor procedure this kind symbols) c.answers procedure.body
      (argumentBindings procedure (received c.args)) [] x calls ↔ body.Yields c x calls := by
  obtain ⟨scope, st₁, result, st₂, hParams, hLeads₁, hScope, hCompute, hLeads₂, hKnows, rfl⟩ :=
    lowerProcedure_stages h
  have hGrows : st₂.body.Grows (st₂.builder.endBlock (.ret result)).body :=
    hLeads₂.sound.grows_leave (.ret result) 0
  have hLength : 0 + procedure.signature.params.length = procedure.signature.arity := Nat.zero_add _
  obtain ⟨s₁, hFirst, hCalls₁, hVars⟩ := lowerParams_arrives (c := c)
    (namesFor procedure this kind symbols).Callable procedure.signature.params
    (sound_start name procedure.signature.arity) (fun _ hEntry => absurd hEntry List.not_mem_nil)
    (Nat.le_of_eq hLength) (by rw [hLength, hArgs]) hParams
    (hLeads₂.grows.trans hGrows) Store.initial
  have hSim := compute_simulates (c := c) procedure.body hLeads₁.sound hScope hCompute hGrows s₁
  have hScopeVars : scope.values s₁ = argumentBindings procedure (received c.args) := by
    rw [hVars, List.drop_zero]
    exact List.append_nil _
  rw [hScopeVars, hCalls₁] at hSim
  have hEntry : ∀ count, Builder.execIn c (st₂.builder.endBlock (.ret result)).body count
      (Builder.start name procedure.signature.arity) Store.initial =
        Body.execFrom c (st₂.builder.endBlock (.ret result)).body count
          (st₂.builder.endBlock (.ret result)).body.entry Store.initial := by
    intro count
    have hZero : (st₂.builder.endBlock (.ret result)).body.entry = 0 :=
      (hLeads₁.trans hLeads₂).grows.entry_eq
    rw [hZero]
    exact execIn_start rfl rfl
  -- Whatever evaluates is what the run comes to.
  have hYields : ∀ y after, Evaluates (namesFor procedure this kind symbols) c.answers
      procedure.body (argumentBindings procedure (received c.args)) [] y after →
      Body.Yields c (st₂.builder.endBlock (.ret result)).body y after := by
    intro y after hEval
    obtain ⟨s', -, rfl, rfl, hRest⟩ := hSim.forward y after hEval
    obtain ⟨n, hArrives⟩ := hFirst.trans hRest
    refine ⟨1 + n, ?_⟩
    rw [← hEntry]
    exact (hArrives 1).trans (execIn_ret hLeads₂.sound s' c)
  constructor
  · exact hYields x calls
  · rintro ⟨count, hCount⟩
    have hHalts : Halts c (st₂.builder.endBlock (.ret result)).body count
        (Builder.start name procedure.signature.arity) Store.initial := by
      unfold Halts
      rw [hEntry, hCount]
      rfl
    obtain ⟨y, after, hEval⟩ := hSim.backward count (hFirst.halts hHalts)
    obtain ⟨other, hOther⟩ := hYields y after hEval
    have hBoth := Body.exec_mono hCount (Nat.le_max_left count other)
    have hSame := Body.exec_mono hOther (Nat.le_max_right count other)
    obtain ⟨rfl, rfl⟩ := Prod.mk.inj (Option.some.inj (hSame.symm.trans hBoth))
    exact hEval

/-- Running a lowered body yields what its expression evaluates to. -/
theorem lowerProcedure_yields_iff {procedure : Procedure} {name : String} {this : FuncId}
    {kind : FunctionKind} {symbols : Symbols}
    (h : lowerProcedure procedure name this kind symbols = .ok body)
    (hSmall : procedure.signature.arity ≤ 65536) (hArgs : c.args.length = procedure.signature.arity)
    (x : Float) (calls : List Call) :
    Evaluates (namesFor procedure this kind symbols) c.answers procedure.body
      (argumentBindings procedure c.args) [] x calls ↔ body.Yields c x calls := by
  have hReceived := yields_iff_received h hArgs x calls
  rwa [received_of_le (hArgs ▸ hSmall)] at hReceived

/-- A lowered body returns a value after some calls if and only if the expression of its procedure
comes to that value after those calls, whatever the calls give. -/
theorem returns_iff_evaluates {procedure : Procedure} {name : String} {this : FuncId}
    {kind : FunctionKind} {symbols : Symbols}
    (h : lowerProcedure procedure name this kind symbols = .ok body)
    (hSmall : procedure.signature.arity ≤ 65536) (answers : Answers) (args : List Float)
    (hArgs : args.length = procedure.signature.arity) (x : Float) (calls : List Call) :
    Evaluates (namesFor procedure this kind symbols) answers procedure.body
        (argumentBindings procedure args) [] x calls ↔ body.Returns answers args x calls := by
  rw [Body.returns_iff_yields (lowerProcedure_wellFormed h).regsBounded]
  exact lowerProcedure_yields_iff (c := { args := args, answers := answers }) h hSmall hArgs x calls

theorem nestedLoops_returns_iff : ∃ body,
    lowerProcedure nestedLoops "f" 0 .definition Symbols.empty = .ok body ∧
      ∀ (answers : Answers) (x : Float) (calls : List Call),
        Evaluates (namesFor nestedLoops 0 .definition Symbols.empty) answers nestedLoops.body
          (argumentBindings nestedLoops [1.0]) [] x calls ↔ body.Returns answers [1.0] x calls := by
  obtain ⟨body, hBody⟩ := exists_lowered_nestedLoops
  exact ⟨body, hBody, fun answers x calls =>
    returns_iff_evaluates hBody (by decide) answers [1.0] rfl x calls⟩

end Lowering

end LiveCompiler
