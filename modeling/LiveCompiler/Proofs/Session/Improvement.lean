import LiveCompiler.Proofs.Program.Improvement
import LiveCompiler.Proofs.Session.Sound

/-!
# Sessions with and without the pipeline

Two sessions take the same units, and only one of them runs the pipeline over its bodies.
-/

namespace LiveCompiler

open Ir

/-- The body that comes out of the pipeline takes the place of the body that was put in. -/
theorem replaces_optimize {callable : FuncId → Nat → Prop} {arity : Nat} {body : Body}
    (h : body.Prepared callable arity) (hTable : SlotOwnership.InTable body) :
    (optimize body).1.Replaces body where
  logs hLogs := by
    rw [Body.logs_iff_returns] at hLogs ⊢
    exact (optimize_returns_iff h.wellFormed hTable _ _ _ _).mpr hLogs
  calleesOf := calleesOf_optimize h hTable

namespace Session

variable {s better : Session} {procedure : Procedure} {lowered : Body} {u : SourceUnit}

/-! ## The limit of steps -/

/-- A session with another limit of steps. -/
def withLimit (s : Session) (limit : Nat) : Session :=
  { s with config := { s.config with stepLimit := limit } }

theorem Sound.withLimit (h : s.Sound) (limit : Nat) : (s.withLimit limit).Sound :=
  ⟨h.image, h.bound, h.coherent⟩

theorem listed_withLimit (s : Session) (limit : Nat) (lowered : Body) :
    (s.withLimit limit).listed lowered = s.listed lowered := by
  cases hOptimize : s.config.optimize <;> cases hDump : s.config.dumpIr <;>
    simp [listed, prepare, queue, withLimit, hOptimize, hDump]

/-- The limit of steps makes no difference for what a session is after a unit. -/
theorem session_handle_withLimit (s : Session) (limit : Nat) (u : SourceUnit) :
    ((s.withLimit limit).handle u).session = (s.handle u).session.withLimit limit := by
  have hHandles := s.handles u
  generalize s.handle u = handled at hHandles ⊢
  cases hHandles with
  | refused hRefuses =>
    have hSame : (s.withLimit limit).Refuses _ u := hRefuses
    rw [handle_of_refuses hSame]
  | @defined procedure lowered hLower =>
    have hSame : (s.withLimit limit).lowerDefinition procedure = .ok lowered := hLower
    rw [handle_definition hSame, listed_withLimit]
    rfl
  | @declared signature hAccepts =>
    have hSame : Lowering.acceptSignature signature (s.withLimit limit).symbols = .ok () :=
      hAccepts
    rw [handle_declaration hSame]
    rfl
  | @ran procedure lowered hLower =>
    have hSame : (s.withLimit limit).lowerWrapper procedure = .ok lowered := hLower
    rw [handle_expression hSame, listed_withLimit, session_runWrapper, session_runWrapper]
    rfl

/-! ## Two sessions -/

/-- A session that runs the pipeline next to one that does not. -/
structure Improves (s better : Session) : Prop where
  plain : s.config.optimize = false
  optimizes : better.config.optimize = true
  symbols_eq : better.symbols = s.symbols
  count_eq : better.wrapperCount = s.wrapperCount
  image : s.image.Improves better.image
  backend : better.backend.Within s.backend
  sound : s.Sound
  better_sound : better.Sound

theorem improves_start (config : Config) :
    (start { config with optimize := false }).Improves
      (start { config with optimize := true }) where
  plain := rfl
  optimizes := rfl
  symbols_eq := rfl
  count_eq := rfl
  image := Image.improves_empty
  backend := ⟨id, id⟩
  sound := sound_start _
  better_sound := sound_start _

theorem Improves.withLimit (h : s.Improves better) (limit : Nat) :
    s.Improves (better.withLimit limit) :=
  { h with better_sound := h.better_sound.withLimit limit }

/-- Names stand for the same functions, so both sessions lower a procedure in the same way. -/
theorem Improves.lowerDefinition_eq (h : s.Improves better) (procedure : Procedure) :
    better.lowerDefinition procedure = s.lowerDefinition procedure := by
  rw [lowerDefinition, lowerDefinition, h.symbols_eq, Image.next, h.image.size_eq]
  rfl

theorem Improves.lowerWrapper_eq (h : s.Improves better) (procedure : Procedure) :
    better.lowerWrapper procedure = s.lowerWrapper procedure := by
  rw [lowerWrapper, lowerWrapper, h.symbols_eq, h.count_eq, Image.next, h.image.size_eq]
  rfl

/-- What one session does not lower the other one does not lower either. -/
theorem Improves.refuses (h : s.Improves better) {e : LoweringError} {u : SourceUnit}
    (hRefuses : s.Refuses e u) : better.Refuses e u := by
  cases u with
  | definition procedure => exact (h.lowerDefinition_eq procedure).trans hRefuses
  | declaration signature =>
    rw [Refuses, h.symbols_eq]
    exact hRefuses
  | expression procedure => exact (h.lowerWrapper_eq procedure).trans hRefuses

theorem Improves.kept_replaces (h : s.Improves better) {name : String} {kind : FunctionKind}
    {this : FuncId} {symbols : Symbols}
    (hLower : Lowering.lowerProcedure procedure name this kind symbols = .ok lowered) :
    (better.kept lowered).Replaces (s.kept lowered) := by
  rw [kept, kept, h.plain, h.optimizes]
  exact replaces_optimize (Lowering.prepared_lowerProcedure hLower)
    (Lowering.lowerProcedure_inTable hLower)

/-- Both sessions get an entry of the same name, arity and kind. -/
theorem Improves.accept (h : s.Improves better) {entry other : Entry} {listings others : String}
    (hEntry : entry.Improves other) (hSound : (s.accept entry listings).Sound)
    (hBetter : (better.accept other others).Sound) :
    (s.accept entry listings).Improves (better.accept other others) where
  plain := h.plain
  optimizes := h.optimizes
  symbols_eq := by
    have hNext : better.image.next = s.image.next := h.image.size_eq
    simp only [Session.accept, h.symbols_eq, hEntry.name_eq, hEntry.arity_eq, hEntry.kind_eq,
      hNext]
  count_eq := h.count_eq
  image := h.image.push hEntry
  backend := h.backend
  sound := hSound
  better_sound := hBetter

/-- Both sessions get a wrapper. -/
theorem Improves.wrap (h : s.Improves better) {entry other : Entry} {listings others : String}
    (hEntry : entry.Improves other) (hSound : (s.wrap entry listings).Sound)
    (hBetter : (better.wrap other others).Sound) :
    (s.wrap entry listings).Improves (better.wrap other others) where
  plain := h.plain
  optimizes := h.optimizes
  symbols_eq := h.symbols_eq
  count_eq := congrArg (· + 1) h.count_eq
  image := h.image.push hEntry
  backend := h.backend
  sound := hSound
  better_sound := hBetter

end Session

/-- What two sessions come to after a unit is the same, and they go on side by side. -/
structure Handled.Improves (handled better : Handled) : Prop where
  result_eq : better.result = handled.result
  output_eq : better.output = handled.output
  session : handled.session.Improves better.session

/-- No symbol was missing, and no evaluation was cut off. -/
structure Handled.Ran (handled : Handled) : Prop where
  resolved : ∀ name arity, handled.result ≠ .error (.code (.unresolvedSymbol name arity))
  finished : handled.result ≠ .error .unfinished

instance (handled : Handled) : Decidable handled.Ran :=
  match h : handled.result with
  | .error (.code (.unresolvedSymbol name arity)) =>
    .isFalse fun hRan => hRan.resolved name arity h
  | .error .unfinished => .isFalse fun hRan => hRan.finished h
  | .ok _ => .isTrue (by constructor <;> simp [h])
  | .error (.lowering _) => .isTrue (by constructor <;> simp [h])
  | .error (.code (.invalid _)) => .isTrue (by constructor <;> simp [h])
  | .error (.code (.refused _)) => .isTrue (by constructor <;> simp [h])
  | .error .trapped => .isTrue (by constructor <;> simp [h])

namespace Session

variable {s better : Session} {procedure : Procedure} {lowered : Body} {u : SourceUnit}

/-! ## Runs of a wrapper and units -/

theorem runWrapper_of_ready {f : FuncId} {after : Backend}
    (h : s.backend.makeReady s.image f = (.ok { func := f }, after)) :
    s.runWrapper f =
      { session := { s with backend := after }
        result := outcomeOf (after.invoke s.config.stepLimit { func := f }).result
        output := (after.invoke s.config.stepLimit { func := f }).output } := by
  unfold runWrapper makeReady
  rw [h]
  rfl

theorem eq_of_outcomeOf {result : Except CodeError RunEnd} {x : Float}
    (h : outcomeOf result = .ok (.evaluated x)) : result = .ok (.value x) := by
  unfold outcomeOf at h
  split at h <;> cases h
  rfl

/-- A wrapper that comes to a value does so in both sessions. -/
theorem Improves.runWrapper (h : s.Improves better) {f : FuncId} {entry : Entry} {body : Body}
    (hGet : s.image.get? f = some entry) (hBody : entry.body = some body)
    (hArity : entry.arity = 0) (hRan : (s.runWrapper f).Ran)
    (hCurrent : (s.runWrapper f).session.backend.Current (s.runWrapper f).session.image) :
    ∃ bound, ∀ limit, bound ≤ limit →
      (s.runWrapper f).Improves ((better.withLimit limit).runWrapper f) := by
  have hImage := h.sound.image.sound
  have hBetter := h.better_sound.image.sound
  obtain ⟨x, hValue⟩ : ∃ x, (s.runWrapper f).result = .ok (.evaluated x) := by
    rcases (h.sound.runWrapper_cases hGet hBody hArity).2 with hValue | ⟨name, arity, hMissing⟩ |
      hCut
    · exact hValue
    · exact absurd (congrArg Handled.result hMissing) (hRan.resolved name arity)
    · exact absurd hCut hRan.finished
  -- A wrapper that comes to a value was made ready, which leaves the first end only.
  rcases Backend.makeReady_ends hImage.toRegular h.sound.coherent hGet hBody with
    ⟨after, hMake, hAfter, hMade, -⟩ | ⟨d, decl, -, -, hMake⟩ | ⟨g, -, -, hMake⟩
  · have hSound := h.sound.makeReady f
    have hBetterSound := h.better_sound.makeReady f
    rw [runWrapper_of_ready hMake] at hValue hCurrent ⊢
    have hBefore := Backend.Current.of_kept hMade.links_kept hCurrent
    obtain ⟨less, hLess, hWithin, hLessCoherent, hReady⟩ := h.backend.makeReady h.image hBefore
      hImage hBetter h.sound.coherent h.better_sound.coherent hGet hBody hMake
    obtain ⟨bound, hInvoke⟩ := hWithin.invoke h.image hAfter hLessCoherent hImage.toRegular
      hBetter.toRegular hReady hGet hArity (eq_of_outcomeOf hValue)
    rw [Session.makeReady, hMake] at hSound
    rw [Session.makeReady, hLess] at hBetterSound
    refine ⟨bound, fun limit hLimit => ?_⟩
    have hSame : (better.withLimit limit).backend.makeReady (better.withLimit limit).image f =
        (.ok { func := f }, less) := hLess
    rw [runWrapper_of_ready hSame, show (better.withLimit limit).config.stepLimit = limit from rfl,
      hInvoke limit hLimit]
    exact ⟨rfl, rfl,
      { h with
        backend := hWithin
        sound := hSound
        better_sound := hBetterSound.withLimit limit }⟩
  · rw [Session.runWrapper, Session.makeReady, hMake] at hValue
    cases hValue
  · rw [Session.runWrapper, Session.makeReady, hMake] at hValue
    cases hValue

/-- A unit that misses no symbol and is not cut off comes to the same in both sessions, if the links
are current after it. -/
theorem Improves.handle (h : s.Improves better) (hPlain : u.Plain) (hRan : (s.handle u).Ran)
    (hCurrent : (s.handle u).session.backend.Current (s.handle u).session.image) :
    ∃ bound, ∀ limit, bound ≤ limit →
      (s.handle u).Improves ((better.withLimit limit).handle u) := by
  have hHandles := s.handles u
  generalize s.handle u = handled at hHandles hRan hCurrent ⊢
  have hNext : better.image.next = s.image.next := h.image.size_eq
  cases hHandles with
  | refused hRefuses =>
    refine ⟨0, fun limit _ => ?_⟩
    have hLimited := h.withLimit limit
    rw [handle_of_refuses (hLimited.refuses hRefuses)]
    exact ⟨rfl, rfl, hLimited⟩
  | @defined procedure lowered hLower =>
    refine ⟨0, fun limit _ => ?_⟩
    have hLimited := h.withLimit limit
    have hSame := (hLimited.lowerDefinition_eq procedure).trans hLower
    rw [handle_definition hSame]
    refine ⟨congrArg (fun f => Except.ok (Outcome.defined f)) hNext, rfl, ?_⟩
    exact hLimited.accept ⟨rfl, rfl, rfl, .some (hLimited.kept_replaces hLower)⟩
      (h.sound.definition hLower _) (hLimited.better_sound.definition hSame _)
  | @declared signature hAccepts =>
    refine ⟨0, fun limit _ => ?_⟩
    have hLimited := h.withLimit limit
    have hSame := hAccepts
    rw [← hLimited.symbols_eq] at hSame
    rw [handle_declaration hSame]
    refine ⟨congrArg (fun f => Except.ok (Outcome.declared f)) hNext, rfl, ?_⟩
    exact hLimited.accept ⟨rfl, rfl, rfl, .none⟩ (h.sound.declaration signature _)
      (hLimited.better_sound.declaration signature _)
  | @ran procedure lowered hLower =>
    have hSame := (h.lowerWrapper_eq procedure).trans hLower
    have hEntry : (s.wrapperEntry lowered).Improves (better.wrapperEntry lowered) :=
      ⟨congrArg wrapperName h.count_eq, rfl, rfl, .some (h.kept_replaces hLower)⟩
    have hWrapped := h.wrap hEntry (h.sound.wrapper hPlain hLower (s.listed lowered))
      (h.better_sound.wrapper hPlain hSame (better.listed lowered))
    obtain ⟨bound, hRun⟩ := hWrapped.runWrapper (s.image.get?_push_next _) rfl rfl hRan hCurrent
    refine ⟨bound, fun limit hLimit => ?_⟩
    have hOk : (better.withLimit limit).lowerWrapper procedure = .ok lowered := hSame
    rw [handle_expression hOk, listed_withLimit,
      show (better.withLimit limit).image.next = s.image.next from hNext]
    exact hRun limit hLimit

/-! ## Any number of units -/

/-- Links that are current after a unit were current before it. -/
theorem Sound.current_of_handle (h : s.Sound) (hPlain : u.Plain)
    (hCurrent : (s.handle u).session.backend.Current (s.handle u).session.image) :
    s.backend.Current s.image := by
  have hHandles := s.handles u
  generalize s.handle u = handled at hHandles hCurrent
  cases hHandles with
  | refused _ => exact hCurrent
  | defined _ => exact Backend.Current.of_push h.coherent hCurrent
  | declared _ => exact Backend.Current.of_push h.coherent hCurrent
  | @ran procedure lowered hLower =>
    rw [session_runWrapper] at hCurrent
    have hWrapped := h.wrapper hPlain hLower (s.listed lowered)
    refine Backend.Current.of_push h.coherent (Backend.Current.of_kept ?_ hCurrent)
    exact fun _ _ => Backend.links_makeReady hWrapped.image.sound.toRegular hWrapped.coherent
      (s.image.get?_push_next _) rfl

/-- No unit misses a symbol or is cut off, and all links are current in the end. -/
def RunsClear : Session → List SourceUnit → Prop
  | s, [] => s.backend.Current s.image
  | s, u :: rest => (s.handle u).Ran ∧ RunsClear (s.handle u).session rest

instance decidableRunsClear : ∀ (s : Session) (units : List SourceUnit),
    Decidable (s.RunsClear units)
  | s, [] => inferInstanceAs (Decidable (s.backend.Current s.image))
  | s, u :: rest =>
    have := decidableRunsClear (s.handle u).session rest
    inferInstanceAs (Decidable ((s.handle u).Ran ∧ RunsClear (s.handle u).session rest))

theorem RunsClear.current : ∀ {units : List SourceUnit} {s : Session}, s.RunsClear units →
    s.Sound → (∀ u ∈ units, u.Plain) → s.backend.Current s.image
  | [], _, h, _, _ => h
  | u :: _, _, h, hSound, hPlain =>
    have hUnit := hPlain u List.mem_cons_self
    have hAfter := h.2.current (hSound.handle hUnit) fun v hv => hPlain v (List.mem_cons_of_mem u hv)
    hSound.current_of_handle hUnit hAfter

end Session

end LiveCompiler
