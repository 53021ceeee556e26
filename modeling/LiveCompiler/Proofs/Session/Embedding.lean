import LiveCompiler.Proofs.Lowering.Retarget
import LiveCompiler.Proofs.Pass.Retarget
import LiveCompiler.Proofs.Program.EmbeddedGrowth
import LiveCompiler.Proofs.Program.EmbeddedRuns
import LiveCompiler.Proofs.Session.Sound

/-!
# Sessions that hold more wrappers

A session is embedded in another one if the other has the same settings, its image holds the
functions of the first in the same order and wrappers besides, and names, links and compiled
functions correspond (`Session.Embeds`).

Both sessions answer a unit alike, and stay embedded (`Embeds.handle`).  If only the larger session
is given a unit, and the unit fails, they stay embedded as well; a missing symbol leaves one more
wrapper in the larger session, so what is still to come moves on by one position (`Embeds.skip`).
-/

namespace LiveCompiler

open Ir

/-- What became of a unit, with functions renamed. -/
def Outcome.map (rename : FuncId → FuncId) : Outcome → Outcome
  | defined f => defined (rename f)
  | declared f => declared (rename f)
  | evaluated x => evaluated x

/-- The same answer to a unit: the same value, error and host output, up to a renaming of the
functions that are named. -/
structure Handled.Mirrors (rename : FuncId → FuncId) (handled other : Handled) : Prop where
  result_eq : other.result = handled.result.map (Outcome.map rename)
  output_eq : other.output = handled.output

/-- A unit fails if it cannot be lowered or misses a symbol. -/
def Handled.Failed (handled : Handled) : Prop :=
  (∃ e, handled.result = .error (.lowering e)) ∨
    ∃ name arity, handled.result = .error (.code (.unresolvedSymbol name arity))

instance (handled : Handled) : Decidable handled.Failed :=
  match h : handled.result with
  | .error (.lowering e) => .isTrue (.inl ⟨e, h⟩)
  | .error (.code (.unresolvedSymbol name arity)) => .isTrue (.inr ⟨name, arity, h⟩)
  | .ok _ => .isFalse (by simp [Handled.Failed, h])
  | .error (.code (.invalid _)) => .isFalse (by simp [Handled.Failed, h])
  | .error (.code (.refused _)) => .isFalse (by simp [Handled.Failed, h])
  | .error .trapped => .isFalse (by simp [Handled.Failed, h])
  | .error .unfinished => .isFalse (by simp [Handled.Failed, h])

theorem Handled.Failed.result_ne_ok {handled : Handled} (h : handled.Failed) (outcome : Outcome) :
    handled.result ≠ .ok outcome := by
  rcases h with ⟨e, hError⟩ | ⟨name, arity, hError⟩
  · rw [hError]
    exact nofun
  · rw [hError]
    exact nofun

theorem Handled.Failed.result_ne_unfinished {handled : Handled} (h : handled.Failed) :
    handled.result ≠ .error .unfinished := by
  rcases h with ⟨e, hError⟩ | ⟨name, arity, hError⟩
  · rw [hError]
    exact nofun
  · rw [hError]
    exact nofun

namespace Session

/-- A session, and one that holds the same and more wrappers. -/
structure Embeds (rename : FuncId → FuncId) (s whole : Session) : Prop where
  config_eq : whole.config = s.config
  image : s.image.Embeds rename whole.image
  symbols : s.symbols.Retargets rename whole.symbols
  backend : s.backend.Embeds rename whole.backend
  sound : s.Sound
  whole_sound : whole.Sound

theorem embeds_start (config : Config) : (start config).Embeds id (start config) where
  config_eq := rfl
  image := Image.embeds_empty
  symbols _ := rfl
  backend := ⟨fun _ => rfl, fun _ => rfl⟩
  sound := sound_start config
  whole_sound := sound_start config

variable {rename : FuncId → FuncId} {s whole : Session} {procedure : Procedure} {lowered : Body}
  {entry copy : Entry}

/-! ## Entries -/

theorem Embeds.kept_retarget (h : s.Embeds rename whole) (name : String) (lowered : Body) :
    whole.kept (lowered.retarget rename name) = (s.kept lowered).retarget rename name := by
  simp only [kept, h.config_eq, optimize_retarget]
  split <;> rfl

theorem Embeds.lowerDefinition_eq (h : s.Embeds rename whole) (procedure : Procedure) :
    whole.lowerDefinition procedure = (s.lowerDefinition procedure).map
      (Body.retarget rename procedure.signature.name) := by
  rw [lowerDefinition, ← h.image.next_eq]
  exact Lowering.lowerProcedure_retarget h.symbols procedure _ _ _ _

theorem Embeds.lowerWrapper_eq (h : s.Embeds rename whole) (procedure : Procedure) :
    whole.lowerWrapper procedure = (s.lowerWrapper procedure).map
      (Body.retarget rename (wrapperName whole.wrapperCount)) := by
  rw [lowerWrapper, ← h.image.next_eq]
  exact Lowering.lowerProcedure_retarget h.symbols procedure _ _ _ _

/-- What one session does not lower the other one does not lower either. -/
theorem Embeds.refuses (h : s.Embeds rename whole) {e : LoweringError} {u : SourceUnit}
    (hRefuses : s.Refuses e u) : whole.Refuses e u := by
  cases u with
  | definition procedure =>
    have hLowered := h.lowerDefinition_eq procedure
    rw [hRefuses] at hLowered
    exact hLowered
  | declaration signature =>
    have hAccepted := Lowering.acceptSignature_retarget h.symbols signature
    rw [hRefuses] at hAccepted
    exact hAccepted
  | expression procedure =>
    have hLowered := h.lowerWrapper_eq procedure
    rw [hRefuses] at hLowered
    exact hLowered

theorem Embeds.mirrors_definition (h : s.Embeds rename whole) (procedure : Procedure)
    (lowered : Body) : (s.definitionEntry procedure lowered).Mirrors rename
      (whole.definitionEntry procedure
        (lowered.retarget rename procedure.signature.name)) where
  arity_eq := rfl
  kind_eq := rfl
  name_eq := .inl rfl
  body := by
    simp only [definitionEntry, h.kept_retarget]
    exact .some (Body.mirrors_retarget rename _ _)

theorem Embeds.mirrors_declaration (_ : s.Embeds rename whole) (signature : Signature) :
    (s.declarationEntry signature).Mirrors rename (whole.declarationEntry signature) where
  arity_eq := rfl
  kind_eq := rfl
  name_eq := .inl rfl
  body := .none

theorem Embeds.mirrors_wrapper (h : s.Embeds rename whole) (name : String) (lowered : Body) :
    (s.wrapperEntry lowered).Mirrors rename
      (whole.wrapperEntry (lowered.retarget rename name)) where
  arity_eq := rfl
  kind_eq := rfl
  name_eq := .inr ⟨rfl, rfl⟩
  body := by
    simp only [wrapperEntry, h.kept_retarget]
    exact .some (Body.mirrors_retarget rename _ _)

/-- Both sessions accept an entry under the same name. -/
theorem Embeds.accept (h : s.Embeds rename whole) (hMirrors : entry.Mirrors rename copy)
    (hName : copy.name = entry.name) {listings others : String}
    (hSound : (s.accept entry listings).Sound) (hWhole : (whole.accept copy others).Sound) :
    (s.accept entry listings).Embeds rename (whole.accept copy others) where
  config_eq := h.config_eq
  image := h.image.push hMirrors
  symbols name := by
    change (whole.symbols.bind copy.name _).lookup name =
      ((s.symbols.bind entry.name _).lookup name).map _
    rw [Symbols.lookup_bind, Symbols.lookup_bind, hName, hMirrors.arity_eq, hMirrors.kind_eq,
      ← h.image.next_eq]
    split
    · rfl
    · exact h.symbols name
  backend := h.backend
  sound := hSound
  whole_sound := hWhole

/-- Both sessions get a wrapper. -/
theorem Embeds.wrap (h : s.Embeds rename whole) (hMirrors : entry.Mirrors rename copy)
    {listings others : String} (hSound : (s.wrap entry listings).Sound)
    (hWhole : (whole.wrap copy others).Sound) :
    (s.wrap entry listings).Embeds rename (whole.wrap copy others) where
  config_eq := h.config_eq
  image := h.image.push hMirrors
  symbols := h.symbols
  backend := h.backend
  sound := hSound
  whole_sound := hWhole

/-! ## Units that both sessions are given -/

/-- A run comes to no function that could be renamed. -/
theorem outcomeOf_map (rename : FuncId → FuncId) (result : Except CodeError RunEnd) :
    outcomeOf result = (outcomeOf result).map (Outcome.map rename) := by
  cases result with
  | error e => rfl
  | ok ended => cases ended <;> rfl

/-- A wrapper comes to the same end in both sessions. -/
theorem Embeds.runWrapper (h : s.Embeds rename whole) {f : FuncId} {body : Body}
    (hGet : s.image.get? f = some entry) (hBody : entry.body = some body)
    (hArity : entry.arity = 0) :
    (s.runWrapper f).session.Embeds rename (whole.runWrapper (rename f)).session ∧
      ∀ other, (s.runWrapper f).Mirrors other (whole.runWrapper (rename f)) := by
  have hSound := h.sound.makeReady f
  have hWhole := h.whole_sound.makeReady (rename f)
  rcases h.backend.makeReady_alike h.image h.sound.image.sound
      h.whole_sound.image.sound.toRegular h.sound.coherent h.whole_sound.coherent hGet hBody with
    ⟨after, later, hMake, hLater, hBackend, hReady⟩ | ⟨name, arity, hMake, hLater⟩
  · have hRequest : s.makeReady f = (.ok { func := f }, { s with backend := after }) := by
      rw [Session.makeReady, hMake]
    have hOther : whole.makeReady (rename f) =
        (.ok { func := rename f }, { whole with backend := later }) := by
      rw [Session.makeReady, hLater]
    rw [hRequest] at hSound
    rw [hOther] at hWhole
    have hRun := hBackend.invoke_eq h.image hSound.coherent hWhole.coherent hReady hGet hBody
      ((h.sound.image.prepared hGet hBody).fits.arity_eq.trans hArity)
    simp only [Session.runWrapper, hRequest, hOther]
    refine ⟨⟨h.config_eq, h.image, h.symbols, hBackend, hSound, hWhole⟩, fun other => ?_⟩
    have hInvoke : ({ whole with backend := later } : Session).invoke { func := rename f } =
        ({ s with backend := after } : Session).invoke { func := f } := by
      simp only [Session.invoke, h.config_eq]
      exact hRun _
    rw [hInvoke]
    exact ⟨outcomeOf_map other _, rfl⟩
  · have hRequest : s.makeReady f = (.error (.unresolvedSymbol name arity), s) := by
      rw [Session.makeReady, hMake]
    have hOther : whole.makeReady (rename f) = (.error (.unresolvedSymbol name arity), whole) := by
      rw [Session.makeReady, hLater]
    simp only [Session.runWrapper, hRequest, hOther]
    exact ⟨h, fun _ => ⟨rfl, rfl⟩⟩

/-- The next position of one session goes to that of the other, by each renaming that agrees on what
is there once an entry is accepted. -/
theorem Embeds.renames_next (h : s.Embeds rename whole) {listings : String} {other : FuncId → FuncId}
    (hSame : ∀ f < (s.accept entry listings).image.size, other f = rename f) :
    other s.image.next = whole.image.next :=
  (hSame _ (by simp [Session.accept, Image.next])).trans h.image.next_eq

/-- Both sessions answer a unit alike.  The renaming matters only for functions that are there
afterwards. -/
theorem Embeds.handle (h : s.Embeds rename whole) {u : SourceUnit} (hPlain : u.Plain) :
    (s.handle u).session.Embeds rename (whole.handle u).session ∧
      ∀ other, (∀ f < (s.handle u).session.image.size, other f = rename f) →
        (s.handle u).Mirrors other (whole.handle u) := by
  have hHandles := s.handles u
  generalize s.handle u = handled at hHandles ⊢
  cases hHandles with
  | refused hRefuses =>
    rw [handle_of_refuses (h.refuses hRefuses)]
    exact ⟨h, fun _ _ => ⟨rfl, rfl⟩⟩
  | @defined procedure lowered hLower =>
    have hLowered := h.lowerDefinition_eq procedure
    rw [hLower] at hLowered
    rw [handle_definition hLowered]
    refine ⟨h.accept (h.mirrors_definition procedure lowered) rfl
      (h.sound.definition hLower _) (h.whole_sound.definition hLowered _), ?_⟩
    intro other hSame
    exact ⟨by simp only [Except.map, Outcome.map, h.renames_next hSame], rfl⟩
  | @declared signature hAccepts =>
    have hAccepted := Lowering.acceptSignature_retarget h.symbols signature
    rw [hAccepts] at hAccepted
    rw [handle_declaration hAccepted]
    refine ⟨h.accept (h.mirrors_declaration signature) rfl
      (h.sound.declaration signature _) (h.whole_sound.declaration signature _), ?_⟩
    intro other hSame
    exact ⟨by simp only [Except.map, Outcome.map, h.renames_next hSame], rfl⟩
  | @ran procedure lowered hLower =>
    have hLowered := h.lowerWrapper_eq procedure
    rw [hLower] at hLowered
    rw [handle_expression hLowered, ← h.image.next_eq]
    have hWrapped := h.wrap (h.mirrors_wrapper _ lowered)
      (h.sound.wrapper hPlain hLower (s.listed lowered))
      (h.whole_sound.wrapper hPlain hLowered
        (whole.listed (lowered.retarget rename (wrapperName whole.wrapperCount))))
    obtain ⟨hEmbeds, hMirrors⟩ := hWrapped.runWrapper (s.image.get?_push_next _) rfl rfl
    exact ⟨hEmbeds, fun other _ => hMirrors other⟩

/-! ## Units that only the larger session is given -/

/-- The larger session gets a wrapper. -/
theorem Embeds.wrapWhole (h : s.Embeds rename whole) (hKind : copy.kind = .wrapper)
    {others : String} (hWhole : (whole.wrap copy others).Sound) :
    s.Embeds (skipOne rename s.image.size) (whole.wrap copy others) where
  config_eq := h.config_eq
  image := h.image.skip h.sound.image.sound hKind
  symbols name := by
    refine (h.symbols name).trans ?_
    cases hLookup : s.symbols.lookup name with
    | none => rfl
    | some binding =>
      obtain ⟨entry, hGet, -⟩ := h.sound.bound hLookup
      simp only [Option.map_some, Binding.retarget,
        skipOne_of_lt (Image.lt_size_of_get? hGet)]
  backend := h.backend.skip h.image h.sound.coherent h.whole_sound.coherent
  sound := h.sound
  whole_sound := hWhole

/-- A unit that fails changes nothing but that it may leave a wrapper. -/
theorem Embeds.skip (h : s.Embeds rename whole) {u : SourceUnit} (hPlain : u.Plain)
    (hFailed : (whole.handle u).Failed) :
    ∃ other, (∀ f < s.image.size, other f = rename f) ∧
      s.Embeds other (whole.handle u).session := by
  have hHandles := whole.handles u
  generalize whole.handle u = handled at hHandles hFailed ⊢
  cases hHandles with
  | refused _ => exact ⟨rename, fun _ _ => rfl, h⟩
  | defined _ => exact absurd rfl (hFailed.result_ne_ok _)
  | declared _ => exact absurd rfl (hFailed.result_ne_ok _)
  | @ran procedure lowered hLower =>
    have hWrapped := h.whole_sound.wrapper hPlain hLower (whole.listed lowered)
    rcases (hWrapped.runWrapper_cases (whole.image.get?_push_next _) rfl rfl).2 with
      ⟨x, hRun⟩ | ⟨name, arity, hRun⟩ | hRun
    · exact absurd hRun (hFailed.result_ne_ok _)
    -- Nothing is left of the expression but its wrapper, and the renaming skips that.
    · rw [hRun]
      exact ⟨skipOne rename s.image.size, fun _ => skipOne_of_lt, h.wrapWhole rfl hWrapped⟩
    · exact absurd hRun hFailed.result_ne_unfinished

end Session

end LiveCompiler
