import LiveCompiler.Session.Basic

/-!
# What units do to a session

A unit that is lowered adds one entry to the image.  Definitions and declarations bind a name to it
(`Session.accept`); a bare expression leaves its wrapper there without a name (`Session.wrap`) and
runs it (`Session.runWrapper`).  A unit that is not lowered changes nothing.  `Session.handles` says
this once for all units.
-/

namespace LiveCompiler

open Ir

/-- A unit as it comes from the grammar: a bare expression has no parameters. -/
def SourceUnit.Plain : SourceUnit → Prop
  | .expression procedure => procedure.signature.params = []
  | _ => True

namespace Session

variable {s : Session} {procedure : Procedure} {lowered : Body}

/-! ## Bodies -/

/-- The body that a session keeps of a lowered one. -/
def kept (s : Session) (lowered : Body) : Body :=
  if s.config.optimize then (LiveCompiler.optimize lowered).1 else lowered

/-- The listings that are queued once a lowered body was prepared. -/
def listed (s : Session) (lowered : Body) : String :=
  (s.prepare lowered).2.queuedListings

theorem listed_of_quiet (s : Session) (h : s.config.dumpIr = false) (lowered : Body) :
    s.listed lowered = s.queuedListings := by
  cases hOptimize : s.config.optimize <;> simp [listed, prepare, queue, h, hOptimize]

/-- Preparing a body changes nothing in a session but its listings. -/
theorem prepare_eq (s : Session) (lowered : Body) :
    s.prepare lowered = (s.kept lowered, { s with queuedListings := s.listed lowered }) := by
  cases hOptimize : s.config.optimize <;> cases hDump : s.config.dumpIr <;>
    simp [prepare, listed, kept, queue, hOptimize, hDump]

/-! ## The entries of units -/

/-- The entry of a definition. -/
def definitionEntry (s : Session) (procedure : Procedure) (lowered : Body) : Entry where
  name := procedure.signature.name
  symbol := s.image.nativeName procedure.signature.name .definition
  arity := procedure.signature.arity
  kind := .definition
  body := some (s.kept lowered)

/-- The entry of a declaration. -/
def declarationEntry (s : Session) (signature : Signature) : Entry where
  name := signature.name
  symbol := s.image.nativeName signature.name .external
  arity := signature.arity
  kind := .external
  body := none

/-- The entry of the wrapper of a bare expression. -/
def wrapperEntry (s : Session) (lowered : Body) : Entry where
  name := wrapperName s.wrapperCount
  symbol := s.image.nativeName (wrapperName s.wrapperCount) .wrapper
  arity := 0
  kind := .wrapper
  body := some (s.kept lowered)

/-- What is lowered of a definition. -/
def lowerDefinition (s : Session) (procedure : Procedure) : Except LoweringError Body :=
  Lowering.lowerProcedure procedure procedure.signature.name s.image.next .definition s.symbols

/-- What is lowered of a bare expression. -/
def lowerWrapper (s : Session) (procedure : Procedure) : Except LoweringError Body :=
  Lowering.lowerProcedure procedure (wrapperName s.wrapperCount) s.image.next .wrapper s.symbols

/-- A session that holds one more entry, under a name. -/
def accept (s : Session) (entry : Entry) (listings : String) : Session :=
  { s with
    image := s.image.push entry
    symbols := s.symbols.bind entry.name
      { func := s.image.next, arity := entry.arity, kind := entry.kind }
    queuedListings := listings }

/-- A session that holds one more wrapper. -/
def wrap (s : Session) (entry : Entry) (listings : String) : Session :=
  { s with
    image := s.image.push entry
    wrapperCount := s.wrapperCount + 1
    queuedListings := listings }

/-- What becomes of a wrapper. -/
def runWrapper (s : Session) (f : FuncId) : Handled :=
  let (ready, after) := s.makeReady f
  match ready with
  | .error e => { session := after, result := .error (.code e), output := [] }
  | .ok runnable =>
    { session := after
      result := outcomeOf (after.invoke runnable).result
      output := (after.invoke runnable).output }

theorem session_runWrapper (s : Session) (f : FuncId) :
    (s.runWrapper f).session = { s with backend := (s.backend.makeReady s.image f).2 } := by
  unfold runWrapper makeReady
  dsimp only
  split <;> rfl

/-! ## Units -/

/-- A unit is not lowered. -/
def Refuses (s : Session) (e : LoweringError) : SourceUnit → Prop
  | .definition procedure => s.lowerDefinition procedure = .error e
  | .declaration signature => Lowering.acceptSignature signature s.symbols = .error e
  | .expression procedure => s.lowerWrapper procedure = .error e

theorem handle_of_refuses {e : LoweringError} {u : SourceUnit} (h : s.Refuses e u) :
    s.handle u = { session := s, result := .error (.lowering e), output := [] } := by
  cases u with
  | definition procedure =>
    rw [Refuses, lowerDefinition] at h
    simp only [handle, define, h]
    rfl
  | declaration signature =>
    rw [Refuses] at h
    simp only [handle, declare, h]
    rfl
  | expression procedure =>
    rw [Refuses, lowerWrapper] at h
    simp only [handle, evaluate, h]

theorem handle_definition (h : s.lowerDefinition procedure = .ok lowered) :
    s.handle (.definition procedure) =
      { session := s.accept (s.definitionEntry procedure lowered) (s.listed lowered)
        result := .ok (.defined s.image.next)
        output := [] } := by
  rw [lowerDefinition] at h
  simp only [handle, define, h, prepare_eq]
  rfl

theorem handle_declaration {signature : Signature}
    (h : Lowering.acceptSignature signature s.symbols = .ok ()) :
    s.handle (.declaration signature) =
      { session := s.accept (s.declarationEntry signature) s.queuedListings
        result := .ok (.declared s.image.next)
        output := [] } := by
  simp only [handle, declare, h]
  rfl

theorem handle_expression (h : s.lowerWrapper procedure = .ok lowered) :
    s.handle (.expression procedure) =
      (s.wrap (s.wrapperEntry lowered) (s.listed lowered)).runWrapper s.image.next := by
  rw [lowerWrapper] at h
  have hListed : Session.listed { s with wrapperCount := s.wrapperCount + 1 } lowered =
      s.listed lowered := by
    cases hOptimize : s.config.optimize <;> cases hDump : s.config.dumpIr <;>
      simp [listed, prepare, queue, hOptimize, hDump]
  simp only [handle, evaluate, h, prepare_eq, hListed]
  rfl

/-- What becomes of a unit. -/
inductive Handles (s : Session) : SourceUnit → Handled → Prop
  | refused {u : SourceUnit} {e : LoweringError} (refuses : s.Refuses e u) :
      Handles s u { session := s, result := .error (.lowering e), output := [] }
  | defined {procedure : Procedure} {lowered : Body}
      (lower : s.lowerDefinition procedure = .ok lowered) :
      Handles s (.definition procedure)
        { session := s.accept (s.definitionEntry procedure lowered) (s.listed lowered)
          result := .ok (.defined s.image.next)
          output := [] }
  | declared {signature : Signature}
      (accepts : Lowering.acceptSignature signature s.symbols = .ok ()) :
      Handles s (.declaration signature)
        { session := s.accept (s.declarationEntry signature) s.queuedListings
          result := .ok (.declared s.image.next)
          output := [] }
  | ran {procedure : Procedure} {lowered : Body}
      (lower : s.lowerWrapper procedure = .ok lowered) :
      Handles s (.expression procedure)
        ((s.wrap (s.wrapperEntry lowered) (s.listed lowered)).runWrapper s.image.next)

theorem handles (s : Session) (u : SourceUnit) : s.Handles u (s.handle u) := by
  by_cases hRefuses : ∃ e, s.Refuses e u
  · obtain ⟨e, hRefuses⟩ := hRefuses
    rw [handle_of_refuses hRefuses]
    exact .refused hRefuses
  cases u with
  | definition procedure =>
    cases hLower : s.lowerDefinition procedure with
    | error e => exact absurd ⟨e, hLower⟩ hRefuses
    | ok lowered =>
      rw [handle_definition hLower]
      exact .defined hLower
  | declaration signature =>
    cases hAccepts : Lowering.acceptSignature signature s.symbols with
    | error e => exact absurd ⟨e, hAccepts⟩ hRefuses
    | ok _ =>
      rw [handle_declaration hAccepts]
      exact .declared hAccepts
  | expression procedure =>
    cases hLower : s.lowerWrapper procedure with
    | error e => exact absurd ⟨e, hLower⟩ hRefuses
    | ok lowered =>
      rw [handle_expression hLower]
      exact .ran hLower

/-- A unit leaves the settings as they are, and the queued listings if no more are wanted. -/
theorem handle_keeps (s : Session) (u : SourceUnit) :
    (s.handle u).session.config = s.config ∧
      (s.config.dumpIr = false → (s.handle u).session.queuedListings = s.queuedListings) := by
  have hHandles := s.handles u
  generalize s.handle u = handled at hHandles ⊢
  cases hHandles with
  | refused => exact ⟨rfl, fun _ => rfl⟩
  | defined => exact ⟨rfl, fun hQuiet => s.listed_of_quiet hQuiet _⟩
  | declared => exact ⟨rfl, fun _ => rfl⟩
  | ran =>
    rw [session_runWrapper]
    exact ⟨rfl, fun hQuiet => s.listed_of_quiet hQuiet _⟩

/-! ## Units one after another -/

/-- The session after some units. -/
def handleAll (s : Session) (units : List SourceUnit) : Session :=
  units.foldl (fun s u => (s.handle u).session) s

end Session

end LiveCompiler
