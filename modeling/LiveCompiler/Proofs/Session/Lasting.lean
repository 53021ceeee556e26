import LiveCompiler.Proofs.Program.Lasting
import LiveCompiler.Proofs.Session.Units
import Mathlib.Logic.Relation

/-!
# Functions stay ready, and stay what they are

A session goes on by handling units, by making functions ready and by giving out its listings
(`Session.Goes`).  None of this takes entries from the image, takes anything back from the
backend or changes the settings.  So a function that is ready once can be run at any later time
with the same result and the same host output, and making it ready again does nothing
(`invoke_eq_of_later`).
-/

namespace LiveCompiler

open Ir

namespace Session

/-! ## How sessions go on -/

/-- What a session is after a unit, a request, or after its listings were taken. -/
inductive Goes (s : Session) : Session → Prop
  | handle (u : SourceUnit) : Goes s (s.handle u).session
  | makeReady (f : FuncId) : Goes s (s.makeReady f).2
  | takeListings : Goes s s.takeListings.2

/-- What a session can be at some later time. -/
abbrev Later : Session → Session → Prop :=
  Relation.ReflTransGen Goes

/-- What all of a session keeps that has to do with functions that are ready. -/
structure Lasting (s : Session) : Prop where
  backend : s.backend.Lasting
  readyIn : s.backend.ReadyIn s.image

/-- What a session keeps of an earlier one. -/
structure Precedes (s after : Session) : Prop where
  config_eq : after.config = s.config
  backend : s.backend.Precedes after.backend

theorem Precedes.refl (s : Session) : s.Precedes s :=
  ⟨rfl, .refl _⟩

theorem Precedes.trans {s middle after : Session} (h : s.Precedes middle)
    (hNext : middle.Precedes after) : s.Precedes after :=
  ⟨hNext.config_eq.trans h.config_eq, h.backend.trans hNext.backend⟩

theorem lasting_start (config : Config) : (start config).Lasting where
  backend :=
    { ready := fun h => by cases h
      calls := fun _ _ h => by cases h }
  readyIn := fun _ h => by cases h

variable {s : Session}

/-! ## One step -/

/-- A session that holds one more entry, and the same backend under the same settings. -/
theorem Lasting.push (h : s.Lasting) {after : Session} {entry : Entry}
    (hConfig : after.config = s.config) (hImage : after.image = s.image.push entry)
    (hBackend : after.backend = s.backend) : after.Lasting ∧ s.Precedes after := by
  refine ⟨⟨by rw [hBackend]; exact h.backend, ?_⟩, hConfig, by rw [hBackend]; exact .refl _⟩
  intro f hReady
  rw [hBackend] at hReady
  obtain ⟨old, hGet, hBody⟩ := h.readyIn hReady
  exact ⟨old, by rw [hImage]; exact Image.get?_push_of_some hGet entry, hBody⟩

theorem Lasting.makeReady (h : s.Lasting) (f : FuncId) :
    (s.makeReady f).2.Lasting ∧ s.Precedes (s.makeReady f).2 :=
  have hPersists := Backend.persists_makeReady h.backend h.readyIn f
  ⟨⟨hPersists.lasting, hPersists.readyIn⟩, rfl, hPersists.precedes⟩

theorem Lasting.handle (h : s.Lasting) (u : SourceUnit) :
    (s.handle u).session.Lasting ∧ s.Precedes (s.handle u).session := by
  have hHandles := s.handles u
  generalize s.handle u = handled at hHandles ⊢
  cases hHandles with
  | refused _ => exact ⟨h, .refl s⟩
  | defined _ => exact h.push rfl rfl rfl
  | declared _ => exact h.push rfl rfl rfl
  | @ran procedure lowered _ =>
    have hWrapped : (s.wrap (s.wrapperEntry lowered) (s.listed lowered)).Lasting ∧
        s.Precedes (s.wrap (s.wrapperEntry lowered) (s.listed lowered)) := h.push rfl rfl rfl
    obtain ⟨hReady, hNext⟩ := hWrapped.1.makeReady s.image.next
    rw [session_runWrapper]
    exact ⟨hReady, hWrapped.2.trans hNext⟩

theorem Lasting.goes (h : s.Lasting) {after : Session} (hGoes : s.Goes after) :
    after.Lasting ∧ s.Precedes after := by
  cases hGoes with
  | handle u => exact h.handle u
  | makeReady f => exact h.makeReady f
  | takeListings =>
    unfold Session.takeListings
    split
    · exact ⟨h, .refl s⟩
    · exact ⟨⟨h.backend, h.readyIn⟩, rfl, .refl _⟩

/-! ## Any number of steps -/

theorem Lasting.later (h : s.Lasting) {after : Session} (hLater : s.Later after) :
    after.Lasting ∧ s.Precedes after := by
  induction hLater with
  | refl => exact ⟨h, .refl s⟩
  | tail _ hGoes ih =>
    obtain ⟨hMiddle, hPrecedes⟩ := ih
    obtain ⟨hAfter, hNext⟩ := hMiddle.goes hGoes
    exact ⟨hAfter, hPrecedes.trans hNext⟩

/-- A function that is ready in a session comes to the same result and writes the same at any
later time, and making it ready again changes nothing. -/
theorem invoke_eq_of_later {config : Config} {s after : Session} {f : FuncId}
    (hReachable : (start config).Later s) (hReady : s.backend.isReady f = true)
    (hLater : s.Later after) :
    after.invoke { func := f } = s.invoke { func := f } ∧
      after.makeReady f = (.ok { func := f }, after) := by
  have hLasting := ((lasting_start config).later hReachable).1
  obtain ⟨hAfter, hPrecedes⟩ := hLasting.later hLater
  constructor
  · unfold Session.invoke
    rw [hPrecedes.config_eq]
    exact hPrecedes.backend.invoke_eq hLasting.backend hReady _
  · unfold Session.makeReady
    rw [Backend.makeReady_again hAfter.readyIn (hPrecedes.backend.ready hReady)]

/-! ## A name that is defined again -/

/-- A function without parameters. -/
def constant (name : String) (body : Expr) : Procedure where
  signature := { name := name, params := [] }
  body := body

/-- A session in which a definition was made ready that calls a declaration, and before that the
name of the declaration was defined. -/
def linkedSession : Session :=
  let declared := ((start Config.standard).handle
    (.declaration { name := "f", params := [] })).session
  let calling := (declared.handle (.definition (constant "g" (.call "f" [])))).session
  let defined := (calling.handle (.definition (constant "f" (.number 1.0)))).session
  (defined.makeReady 1).2

/-- The session after the name was defined and declared again, and a unit failed. -/
def redefinedSession : Session :=
  let defined := (linkedSession.handle (.definition (constant "f" (.number 2.0)))).session
  let declared := (defined.handle (.declaration { name := "f", params := [] })).session
  (declared.handle (.expression (constant "" (.call "missing" [])))).session

theorem invoke_redefinedSession :
    (start Config.standard).Later linkedSession ∧ linkedSession.backend.isReady 1 = true ∧
    linkedSession.Later redefinedSession ∧
    redefinedSession.invoke { func := 1 } = linkedSession.invoke { func := 1 } ∧
    redefinedSession.makeReady 1 = (.ok { func := 1 }, redefinedSession) := by
  have hReachable : (start Config.standard).Later linkedSession :=
    .tail (.tail (.tail (.single (.handle _)) (.handle _)) (.handle _)) (.makeReady 1)
  have hReady : linkedSession.backend.isReady 1 = true := by decide
  have hLater : linkedSession.Later redefinedSession :=
    .tail (.tail (.single (.handle _)) (.handle _)) (.handle _)
  exact ⟨hReachable, hReady, hLater, invoke_eq_of_later hReachable hReady hLater⟩

end Session

end LiveCompiler
