import LiveCompiler.Proofs.Lowering.Progress
import LiveCompiler.Proofs.Pass.Ownership

/-!
# Lowered bodies are well-formed

A body is made from the empty one by storing the parameters, computing the expression and
returning its value.  All stages on the way are sound, and at the end no block is open.
-/

namespace LiveCompiler

open Ir

namespace Stage

variable {callable : FuncId → Nat → Prop} {s : Stage}

/-- The start of a body. -/
def start (name : String) (arity : Nat) : Stage where
  builder := Builder.start name arity
  waiting := []
  before _ _ := False

theorem block_start (name : String) (arity : Nat) (label : Label) :
    (start name arity).body.block label = Block.empty := by
  cases label <;> rfl

theorem sound_start (name : String) (arity : Nat) : (start name arity).Sound callable where
  certified := by
    refine ⟨Nat.zero_lt_one, rfl, fun _ => id, ?_, ?_, ?_, ?_, ?_, ?_, ?_, ?_⟩
    all_goals
      intro label
      rw [block_start]
    · exact List.nodup_nil
    · exact fun _ _ hr => absurd hr List.not_mem_nil
    · exact fun _ hr => absurd hr List.not_mem_nil
    · exact fun done _ _ hInstrs => absurd hInstrs (by simp [Block.empty])
    · exact fun _ hr => absurd hr List.not_mem_nil
    · exact fun _ he => absurd he List.not_mem_nil
    · exact fun _ he => absurd he List.not_mem_nil
    · exact fun _ hi => absurd hi List.not_mem_nil
  current_lt := Nat.zero_lt_one
  current_open := rfl
  current_busy := List.not_mem_nil
  waiting_nodup := List.nodup_nil
  idle _ hWaiting := absurd hWaiting List.not_mem_nil
  closed label hLt _ := .inl (Nat.lt_one_iff.mp hLt)

theorem joined_start (name : String) (arity : Nat) : (start name arity).Joined := by
  intro label hLt _
  obtain rfl := Nat.lt_one_iff.mp hLt
  exact Body.Reached.entry _

/-- Put an argument of the function into a new slot. -/
def receive (s : Stage) (index : Nat) : Stage :=
  (s.write (.param s.body.regCount (UInt16.ofNat index))).place s.body.regCount

theorem Sound.read (h : s.Sound callable) {index : Nat}
    (hIndex : (UInt16.ofNat index).toNat < s.body.arity) :
    Leads callable s (s.write (.param s.body.regCount (UInt16.ofNat index))) ∧
      (s.write (.param s.body.regCount (UInt16.ofNat index))).Knows s.body.regCount :=
  h.write rfl (fun _ hr => absurd hr List.not_mem_nil) hIndex

theorem Sound.receive (h : s.Sound callable) {index : Nat}
    (hIndex : (UInt16.ofNat index).toNat < s.body.arity) : Leads callable s (s.receive index) := by
  obtain ⟨hRead, hKnows⟩ := h.read hIndex
  exact hRead.trans (hRead.sound.place hKnows)

/-- A body whose last open block returns is certified, and all its blocks have their ends. -/
theorem Sound.finish (h : s.Sound callable) (hWaiting : s.waiting = []) {result : Reg}
    (hResult : s.Knows result) :
    (s.builder.endBlock (.ret result)).body.Certified callable s.before ∧
      ∀ label, label < (s.builder.endBlock (.ret result)).body.blocks.length →
        ((s.builder.endBlock (.ret result)).body.block label).terminator ≠ .unreachable := by
  have hBlock := block_leave h (.ret result) 0
  refine ⟨h.certified_endBlock ?_ fun e he => absurd he List.not_mem_nil, ?_⟩
  · intro r hr
    rw [List.mem_singleton.mp hr]
    exact hResult
  · intro label hLt hOpen
    have hLt : label < s.body.blocks.length := by
      rw [← length_leave (s := s) (.ret result) 0]
      exact hLt
    have hHere := (congrArg Block.terminator (hBlock label)).symm.trans hOpen
    by_cases hEq : label = s.current
    · rw [if_pos hEq] at hHere
      cases hHere
    · rw [if_neg hEq] at hHere
      rcases h.closed label hLt hHere with hCurrent | hIn
      · exact hEq hCurrent
      · rw [hWaiting] at hIn
        exact List.not_mem_nil hIn

/-- When no block waits, the entry leads to all blocks of the body that ends there. -/
theorem Sound.connected_finish (h : s.Sound callable) (hWaiting : s.waiting = [])
    (hJoined : s.Joined) (result : Reg) :
    (s.builder.endBlock (.ret result)).body.Connected := by
  intro label hLt
  have hLt : label < s.body.blocks.length := by
    rw [← length_leave (s := s) (.ret result) 0]
    exact hLt
  refine (h.grows_leave (.ret result) 0).reached (hJoined label hLt ?_)
  rw [hWaiting]
  exact List.not_mem_nil

end Stage

namespace Lowering

open Stage

/-- What the names of functions stand for while a procedure is lowered. -/
def namesFor (procedure : Procedure) (this : FuncId) (kind : FunctionKind) (symbols : Symbols) :
    Names where
  self := if kind = .definition then
      some (procedure.signature.name,
        { func := this, arity := procedure.signature.arity, kind := kind })
    else none
  symbols := symbols

variable {procedure : Procedure} {name : String} {this : FuncId} {kind : FunctionKind}
  {symbols : Symbols} {body : Body}

/-- No name is repeated if and only if the names are different, and new. -/
theorem firstRepeated?_eq_none_iff {names : List String} : ∀ {seen : Std.TreeSet String},
    firstRepeated? seen names = none ↔ names.Nodup ∧ ∀ name ∈ names, name ∉ seen := by
  induction names with
  | nil => exact fun {seen} => iff_of_true rfl ⟨List.nodup_nil, nofun⟩
  | cons name rest ih =>
    intro seen
    rw [firstRepeated?, List.nodup_cons, List.forall_mem_cons]
    by_cases hSeen : seen.contains name = true
    · rw [if_pos hSeen]
      exact iff_of_false nofun fun h => h.2.1 (Std.TreeSet.mem_iff_contains.mpr hSeen)
    · rw [if_neg hSeen, ih]
      constructor
      · rintro ⟨hRest, hNew⟩
        refine ⟨⟨fun hMem => ?_, hRest⟩,
          fun hMem => hSeen (Std.TreeSet.mem_iff_contains.mp hMem), fun other hMem hOld => ?_⟩
        · exact hNew name hMem Std.TreeSet.mem_insert_self
        · exact hNew other hMem (Std.TreeSet.mem_insert.mpr (.inr hOld))
      · rintro ⟨⟨hName, hRest⟩, -, hNew⟩
        refine ⟨hRest, fun other hMem hOld => ?_⟩
        rcases Std.TreeSet.mem_insert.mp hOld with hSame | hEarlier
        · rw [Std.LawfulEqCmp.compare_eq_iff_eq] at hSame
          exact hName (hSame ▸ hMem)
        · exact hNew other hMem hEarlier

/-- A signature is accepted if and only if its parameters are different and its name is not declared
with another number of parameters. -/
theorem acceptSignature_iff {signature : Signature} :
    acceptSignature signature symbols = .ok () ↔
      signature.params.Nodup ∧ ∀ existing, symbols.lookup signature.name = some existing →
        existing.kind = .external → existing.arity = signature.arity := by
  have hNone : firstRepeated? ∅ signature.params = none ↔ signature.params.Nodup := by
    rw [firstRepeated?_eq_none_iff]
    exact and_iff_left fun name _ => Std.TreeSet.not_mem_emptyc
  unfold acceptSignature
  cases hRepeated : firstRepeated? ∅ signature.params with
  | some param =>
    refine iff_of_false nofun fun h => ?_
    rw [← hNone, hRepeated] at h
    cases h.1
  | none =>
    rw [and_iff_right (hNone.mp hRepeated)]
    cases hLookup : symbols.lookup signature.name with
    | none => exact iff_of_true rfl nofun
    | some existing =>
      dsimp only
      split
      · rename_i hConflict
        exact iff_of_false nofun fun h => hConflict.2 (h existing rfl hConflict.1)
      · rename_i hAgree
        refine iff_of_true rfl fun other hOther hKind => ?_
        obtain rfl := Option.some.inj hOther
        by_contra hne
        exact hAgree ⟨hKind, hne⟩

/-- The parameters of an accepted signature are different. -/
theorem nodup_of_acceptSignature {signature : Signature}
    (h : acceptSignature signature symbols = .ok ()) : signature.params.Nodup :=
  (acceptSignature_iff.mp h).1

/-- What lowering a procedure does. -/
theorem lowerProcedure_ok (h : lowerProcedure procedure name this kind symbols = .ok body) :
    ∃ scope b₁ result b₂,
      (lowerParams [] 0 procedure.signature.params).run
        (Builder.start name procedure.signature.arity) = .ok (scope, b₁) ∧
      (compute (namesFor procedure this kind symbols) scope procedure.body).run b₁ =
        .ok (result, b₂) ∧
      body = (b₂.endBlock (.ret result)).body ∧
      (kind = .definition → acceptSignature procedure.signature symbols = .ok ()) := by
  -- A wrapper and a definition differ in the names and in the check of the signature, so the run is
  -- inverted for any names.
  have hBody : ∀ {names : Names} {builder : Builder},
      (lowerBody names procedure).run (Builder.start name procedure.signature.arity) =
        .ok ((), builder) →
      ∃ scope b₁ result b₂,
        (lowerParams [] 0 procedure.signature.params).run
          (Builder.start name procedure.signature.arity) = .ok (scope, b₁) ∧
        (compute names scope procedure.body).run b₁ = .ok (result, b₂) ∧
        builder.body = (b₂.endBlock (.ret result)).body := by
    intro names builder hRun
    unfold lowerBody at hRun
    obtain ⟨scope, b₁, hParams, hRun⟩ := run_bind_ok hRun
    obtain ⟨result, b₂, hCompute, hRun⟩ := run_bind_ok hRun
    obtain ⟨-, rfl⟩ := Prod.mk.inj (Except.ok.inj hRun)
    exact ⟨scope, b₁, result, b₂, hParams, hCompute, rfl⟩
  have hNames : ((lowerBody (namesFor procedure this kind symbols) procedure).run
      (Builder.start name procedure.signature.arity) >>= fun result => pure result.2.body) =
        .ok body ∧
      (kind = .definition → acceptSignature procedure.signature symbols = .ok ()) := by
    unfold lowerProcedure at h
    unfold namesFor
    by_cases hKind : kind = .definition
    · rw [if_pos hKind] at h ⊢
      cases hAccept : acceptSignature procedure.signature symbols with
      | error e =>
        rw [hAccept] at h
        cases h
      | ok _ =>
        rw [hAccept] at h
        exact ⟨h, fun _ => rfl⟩
    · rw [if_neg hKind] at h ⊢
      exact ⟨h, fun hDefinition => absurd hDefinition hKind⟩
  obtain ⟨hRun, hAccept⟩ := hNames
  cases hResult : (lowerBody (namesFor procedure this kind symbols) procedure).run
      (Builder.start name procedure.signature.arity) with
  | error e =>
    rw [hResult] at hRun
    cases hRun
  | ok result =>
    rw [hResult] at hRun
    obtain rfl := Except.ok.inj hRun
    obtain ⟨scope, b₁, value, b₂, hParams, hCompute, hBuilder⟩ := hBody hResult
    exact ⟨scope, b₁, value, b₂, hParams, hCompute, hBuilder, hAccept⟩

/-- A parameter joins the scope. -/
theorem Scope.InBody.receive {scope : Scope} {s : Stage} (h : scope.InBody s.body)
    (param : String) (index : Nat) (hGrows : s.body.Grows (s.receive index).body) :
    Scope.InBody ((param, s.body.slots.length) :: scope) (s.receive index).body := by
  intro entry hEntry
  rcases List.mem_cons.mp hEntry with rfl | hEntry
  · exact slot_lt_place _ s.body.regCount
  · exact h.grows hGrows entry hEntry

theorem lowerParams_leads (callable : FuncId → Nat → Prop) (params : List String) :
    ∀ {scope final : Scope} {index : Nat} {s : Stage} {b' : Builder}, s.Sound callable →
    scope.InBody s.body → index + params.length ≤ s.body.arity →
    (lowerParams scope index params).run s.builder = .ok (final, b') →
    ∃ s', s'.builder = b' ∧ Leads callable s s' ∧ final.InBody s'.body := by
  induction params with
  | nil =>
    intro scope final index s b' hSound hScope _ hRun
    rw [lowerParams, run_return] at hRun
    obtain ⟨rfl, rfl⟩ := Prod.mk.inj (Except.ok.inj hRun)
    exact ⟨s, rfl, Leads.refl hSound, hScope⟩
  | cons param rest ih =>
    intro scope final index s b' hSound hScope hIndex hRun
    rw [List.length_cons] at hIndex
    rw [lowerParams, run_bind_appendTo, run_freshSlot, run_append] at hRun
    have hRead : (UInt16.ofNat index).toNat < s.body.arity := by
      rw [UInt16.toNat_ofNat']
      exact Nat.lt_of_le_of_lt (Nat.mod_le _ _) (by omega)
    have hReceive := hSound.receive hRead
    obtain ⟨s', hBuilder, hLeads, hFinal⟩ := ih (s := s.receive index) hReceive.sound
      (hScope.receive param index hReceive.grows) (by rw [hReceive.grows.arity_eq]; omega) hRun
    exact ⟨s', hBuilder, hReceive.trans hLeads, hFinal⟩

/-- The stages of lowering a procedure. -/
theorem lowerProcedure_stages (h : lowerProcedure procedure name this kind symbols = .ok body) :
    ∃ scope s₁ result s₂,
      (lowerParams [] 0 procedure.signature.params).run
        (Builder.start name procedure.signature.arity) = .ok (scope, s₁.builder) ∧
      Leads (namesFor procedure this kind symbols).Callable
        (Stage.start name procedure.signature.arity) s₁ ∧ scope.InBody s₁.body ∧
      (compute (namesFor procedure this kind symbols) scope procedure.body).run s₁.builder =
        .ok (result, s₂.builder) ∧
      Leads (namesFor procedure this kind symbols).Callable s₁ s₂ ∧ s₂.Knows result ∧
      body = (s₂.builder.endBlock (.ret result)).body := by
  obtain ⟨scope, b₁, result, b₂, hParams, hCompute, hBody, -⟩ := lowerProcedure_ok h
  obtain ⟨s₁, rfl, hLeads₁, hScope⟩ := lowerParams_leads
    (namesFor procedure this kind symbols).Callable procedure.signature.params
    (sound_start name procedure.signature.arity) (fun _ hEntry => absurd hEntry List.not_mem_nil)
    (Nat.le_of_eq (Nat.zero_add _)) hParams
  obtain ⟨s₂, rfl, hLeads₂, hKnows, -⟩ :=
    compute_leads (namesFor procedure this kind symbols) procedure.body hLeads₁.sound hScope
      hCompute
  exact ⟨scope, s₁, result, s₂, hParams, hLeads₁, hScope, hCompute, hLeads₂, hKnows, hBody⟩

/-- A lowered body keeps to a record, has the arity of its procedure, and all its blocks have
their ends. -/
theorem lowerProcedure_certified
    (h : lowerProcedure procedure name this kind symbols = .ok body) :
    (∃ before, body.Certified (namesFor procedure this kind symbols).Callable before) ∧
      body.arity = procedure.signature.arity ∧
      ∀ label, label < body.blocks.length → (body.block label).terminator ≠ .unreachable := by
  obtain ⟨scope, s₁, result, s₂, -, hLeads₁, -, -, hLeads₂, hKnows, rfl⟩ := lowerProcedure_stages h
  have hLeads := hLeads₁.trans hLeads₂
  obtain ⟨hCertified, hEnds⟩ := hLeads.sound.finish hLeads.waiting_eq hKnows
  exact ⟨⟨_, hCertified⟩, hLeads.grows.arity_eq, hEnds⟩

/-- A lowered body is well-formed. -/
theorem lowerProcedure_wellFormed
    (h : lowerProcedure procedure name this kind symbols = .ok body) :
    body.WellFormed (namesFor procedure this kind symbols).Callable := by
  obtain ⟨⟨before, hCertified⟩, -, hEnds⟩ := lowerProcedure_certified h
  exact hCertified.wellFormed hEnds

/-- The entry of a lowered body leads to all its blocks. -/
theorem lowerProcedure_connected
    (h : lowerProcedure procedure name this kind symbols = .ok body) : body.Connected := by
  obtain ⟨scope, s₁, result, s₂, -, hLeads₁, -, -, hLeads₂, -, rfl⟩ := lowerProcedure_stages h
  have hLeads := hLeads₁.trans hLeads₂
  exact hLeads.sound.connected_finish hLeads.waiting_eq (hLeads.joined (joined_start _ _)) result

/-- A lowered body touches slots of its own only. -/
theorem lowerProcedure_inTable (h : lowerProcedure procedure name this kind symbols = .ok body) :
    SlotOwnership.InTable body := by
  obtain ⟨⟨before, hCertified⟩, -, -⟩ := lowerProcedure_certified h
  intro b hb i hi slot hTouched
  obtain ⟨label, hLt, rfl⟩ := List.mem_iff_getElem.mp hb
  rw [← Body.block_of_lt hLt] at hi
  have hLegal := hCertified.legal label i hi
  cases i with
  | load dst other =>
    obtain rfl := Option.some.inj hTouched
    exact hLegal
  | store other src =>
    obtain rfl := Option.some.inj hTouched
    exact hLegal
  | _ => cases hTouched

/-- A loop that calls its own function, inside of a loop over a variable of the same name. -/
def nestedLoops : Procedure where
  signature := { name := "f", params := ["i"] }
  body := .forLoop "i" (.variable "i") (.binary '<' (.variable "i") (.number 3.0)) none
    (.forLoop "i" (.number 0.0) (.binary '<' (.variable "i") (.number 2.0)) (some (.number 1.0))
      (.ifThenElse (.variable "i") (.call "f" [.variable "i"]) (.number 1.0)))

theorem exists_lowered_nestedLoops :
    ∃ body, lowerProcedure nestedLoops "f" 0 .definition Symbols.empty = .ok body := by
  have hOk : (lowerProcedure nestedLoops "f" 0 .definition Symbols.empty).isOk = true := by
    decide +kernel
  cases hBody : lowerProcedure nestedLoops "f" 0 .definition Symbols.empty with
  | error e =>
    rw [hBody] at hOk
    cases hOk
  | ok body => exact ⟨body, rfl⟩

end Lowering

end LiveCompiler
