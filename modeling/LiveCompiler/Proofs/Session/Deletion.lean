import LiveCompiler.Proofs.Session.Embedding

/-!
# Units that fail can be left out

Units are given to a session one after another.  If some that failed are left out, every other unit
is answered as before: with the same value, the same error and the same host output
(`handleEach_leaveOut`).  Functions have other positions then, since an expression that misses a
symbol leaves its wrapper in the image; the order of the functions stays.
-/

namespace LiveCompiler

/-- Leave out the items at some positions. -/
def leaveOut {α : Type} (deleted : Nat → Bool) : List α → List α
  | [] => []
  | x :: rest =>
    if deleted 0 then leaveOut (fun i => deleted (i + 1)) rest
    else x :: leaveOut (fun i => deleted (i + 1)) rest

namespace Session

/-- What becomes of units, one after another. -/
def handleEach (s : Session) : List SourceUnit → List Handled
  | [] => []
  | u :: rest => s.handle u :: (s.handle u).session.handleEach rest

variable {rename : FuncId → FuncId}

/-- The image only grows. -/
theorem size_le_handle (s : Session) (u : SourceUnit) :
    s.image.size ≤ (s.handle u).session.image.size := by
  have hHandles := s.handles u
  generalize s.handle u = handled at hHandles ⊢
  cases hHandles with
  | refused _ => exact Nat.le_refl _
  | defined _ => simp [accept]
  | declared _ => simp [accept]
  | ran _ =>
    rw [session_runWrapper]
    simp [wrap]

/-- Sessions that are embedded stay so if the smaller one is not given some units that fail. -/
theorem Embeds.leaveOut (units : List SourceUnit) :
    ∀ {rename : FuncId → FuncId} {s whole : Session} {deleted : Nat → Bool},
      s.Embeds rename whole → (∀ u ∈ units, u.Plain) →
      (∀ i handled, (whole.handleEach units)[i]? = some handled → deleted i = true →
        handled.Failed) →
      ∃ other, (∀ f < s.image.size, other f = rename f) ∧
        (s.handleAll (LiveCompiler.leaveOut deleted units)).Embeds other (whole.handleAll units) ∧
        List.Forall₂ (Handled.Mirrors other) (s.handleEach (LiveCompiler.leaveOut deleted units))
          (LiveCompiler.leaveOut deleted (whole.handleEach units)) := by
  induction units with
  | nil => exact fun h _ _ => ⟨_, fun _ _ => rfl, h, .nil⟩
  | cons u rest ih =>
    intro rename s whole deleted h hPlain hFailed
    have hUnit := hPlain u List.mem_cons_self
    have hRest : ∀ v ∈ rest, v.Plain := fun v hv => hPlain v (List.mem_cons_of_mem u hv)
    have hLater : ∀ i handled, ((whole.handle u).session.handleEach rest)[i]? = some handled →
        deleted (i + 1) = true → handled.Failed :=
      fun i handled hGet => hFailed (i + 1) handled hGet
    cases hDeleted : deleted 0 with
    | true =>
      -- Only the larger session is given the unit; what was there keeps its position.
      obtain ⟨next, hAgree, hSkipped⟩ := h.skip hUnit (hFailed 0 _ rfl hDeleted)
      obtain ⟨other, hSame, hEmbeds, hMirrors⟩ := ih hSkipped hRest hLater
      refine ⟨other, fun f hf => (hSame f hf).trans (hAgree f hf), ?_, ?_⟩
      · rw [LiveCompiler.leaveOut, if_pos hDeleted]
        exact hEmbeds
      · rw [handleEach, LiveCompiler.leaveOut, LiveCompiler.leaveOut, if_pos hDeleted, if_pos hDeleted]
        exact hMirrors
    | false =>
      obtain ⟨hHandled, hAnswer⟩ := h.handle hUnit
      obtain ⟨other, hSame, hEmbeds, hMirrors⟩ := ih hHandled hRest hLater
      have hKept : ¬ deleted 0 = true := by simp [hDeleted]
      refine ⟨other, ?_, ?_, ?_⟩
      · exact fun f hf => hSame f (Nat.lt_of_lt_of_le hf (s.size_le_handle u))
      · rw [LiveCompiler.leaveOut, if_neg hKept]
        exact hEmbeds
      · rw [handleEach, LiveCompiler.leaveOut, LiveCompiler.leaveOut, if_neg hKept, if_neg hKept]
        exact .cons (hAnswer other hSame) hMirrors

/-- Units that failed, because they could not be lowered or missed a symbol, can be left out of what
a new session is given: each of the other units is answered as before, up to the positions of
functions.  The functions that both sessions hold are the same and in the same order; what the
first session holds besides are wrappers. -/
theorem handleEach_leaveOut (config : Config) (units : List SourceUnit) (deleted : Nat → Bool)
    (hPlain : ∀ u ∈ units, u.Plain)
    (hFailed : ∀ i handled, ((start config).handleEach units)[i]? = some handled →
      deleted i = true → handled.Failed) :
    ∃ rename : FuncId → FuncId,
      ((start config).handleAll (LiveCompiler.leaveOut deleted units)).image.Embeds rename
        ((start config).handleAll units).image ∧
      List.Forall₂ (Handled.Mirrors rename)
        ((start config).handleEach (LiveCompiler.leaveOut deleted units))
        (LiveCompiler.leaveOut deleted ((start config).handleEach units)) := by
  obtain ⟨rename, -, hEmbeds, hMirrors⟩ := (embeds_start config).leaveOut units hPlain hFailed
  exact ⟨rename, hEmbeds.image, hMirrors⟩

/-- A declaration, a call of it that misses the symbol, an expression that is not lowered, the
definition that was missing, and the call again. -/
def interruptedUnits : List SourceUnit :=
  [.declaration { name := "f", params := ["x"] },
    .expression { signature := Signature.unnamed, body := .call "f" [.number 0.0] },
    .expression { signature := Signature.unnamed, body := .variable "y" },
    .definition { signature := { name := "f", params := ["x"] }, body := .variable "x" },
    .expression { signature := Signature.unnamed, body := .call "f" [.number 0.0] }]

/-- The positions of the units that fail. -/
def isInterruption (i : Nat) : Bool :=
  i == 1 || i == 2

theorem handleEach_interruptedUnits :
    (∀ u ∈ interruptedUnits, u.Plain) ∧
    (∀ i handled, ((start Config.standard).handleEach interruptedUnits)[i]? = some handled →
      isInterruption i = true → handled.Failed) ∧
    ∃ rename : FuncId → FuncId,
      ((start Config.standard).handleAll
        (LiveCompiler.leaveOut isInterruption interruptedUnits)).image.Embeds rename
        ((start Config.standard).handleAll interruptedUnits).image ∧
      List.Forall₂ (Handled.Mirrors rename)
        ((start Config.standard).handleEach (LiveCompiler.leaveOut isInterruption interruptedUnits))
        (LiveCompiler.leaveOut isInterruption
          ((start Config.standard).handleEach interruptedUnits)) := by
  have hPlain : ∀ u ∈ interruptedUnits, u.Plain := by
    simp [interruptedUnits, SourceUnit.Plain, Signature.unnamed]
  have hFailed : ∀ i handled,
      ((start Config.standard).handleEach interruptedUnits)[i]? = some handled →
        isInterruption i = true → handled.Failed := by
    intro i handled hGet hDeleted
    have hPosition : i = 1 ∨ i = 2 := by simpa [isInterruption] using hDeleted
    rcases hPosition with rfl | rfl
    · obtain rfl := Option.some.inj hGet
      decide +kernel
    · obtain rfl := Option.some.inj hGet
      decide +kernel
  exact ⟨hPlain, hFailed, handleEach_leaveOut Config.standard interruptedUnits isInterruption
    hPlain hFailed⟩

end Session

end LiveCompiler
