import LiveCompiler.Proofs.Program.Ready
import LiveCompiler.Proofs.Program.Safety
import LiveCompiler.Proofs.Session.Bodies
import LiveCompiler.Proofs.Session.SymbolNames
import LiveCompiler.Proofs.Session.Units

/-!
# Sessions stay sound

Whatever units a session is given, its image holds prepared bodies under symbols of their own
(`Image.Grown`), its names stand for functions of the image, and its backend is coherent
(`Session.Sound`).  The one condition is that bare expressions have no parameters, as they come
from the grammar.

So nothing can go wrong behind lowering but a symbol that is missing: the image is sound, so the
code generator refuses nothing, and no run comes to a place that is not to be reached
(`handle_error_cases`).  A run that is cut off at the limit of steps has not failed; it would
have gone on.
-/

namespace LiveCompiler

open Ir

namespace Image

variable {image : Image} {entry other : Entry} {f : FuncId} {count : Nat}

/-- A function of the image that takes so many values. -/
def Callable (image : Image) (f : FuncId) (count : Nat) : Prop :=
  ∃ entry, image.get? f = some entry ∧ entry.arity = count

/-- What a session calls an entry for the code generator.  Wrappers are counted; other entries
carry their position. -/
inductive Marked (count : Nat) (f : FuncId) (entry : Entry) : Prop
  | wrapper {k : Nat} (lt : k < count) (symbol_eq : entry.symbol = Session.wrapperName k)
  | named (symbol_eq : entry.symbol = numberedSymbol entry.name f)

/-- An image as sessions build it up. -/
structure Grown (image : Image) (count : Nat) : Prop where
  prepared : ∀ {f entry body}, image.get? f = some entry → entry.body = some body →
    body.Prepared image.Callable entry.arity
  external_iff : ∀ {f entry}, image.get? f = some entry →
    (entry.kind = .external ↔ entry.body = none)
  marked : ∀ {f entry}, image.get? f = some entry → Marked count f entry
  symbol_unique : ∀ {f g entry other}, image.get? f = some entry → image.get? g = some other →
    entry.symbol = other.symbol → f = g

theorem Callable.push (h : image.Callable f count) (added : Entry) :
    (image.push added).Callable f count := by
  obtain ⟨entry, hGet, hArity⟩ := h
  exact ⟨entry, get?_push_of_some hGet added, hArity⟩

theorem Marked.mono (h : Marked count f entry) {more : Nat} (hMore : count ≤ more) :
    Marked more f entry := by
  cases h with
  | wrapper hLt hSymbol => exact .wrapper (Nat.lt_of_lt_of_le hLt hMore) hSymbol
  | named hSymbol => exact .named hSymbol

theorem Marked.symbol_ne_host (h : Marked count f entry) (host : HostFunction) :
    entry.symbol ≠ host.symbol := by
  cases h with
  | wrapper _ hSymbol => exact hSymbol ▸ wrapperName_ne_host _ host
  | named hSymbol => exact hSymbol ▸ numberedSymbol_ne_host _ f host

/-- The symbol of the next wrapper is new. -/
theorem Marked.symbol_ne_wrapperName (h : Marked count f entry) :
    entry.symbol ≠ Session.wrapperName count := by
  cases h with
  | wrapper hLt hSymbol =>
    rw [hSymbol]
    exact fun hSame => Nat.ne_of_lt hLt (wrapperName_injective hSame)
  | named hSymbol =>
    rw [hSymbol]
    exact (wrapperName_ne_numberedSymbol count _ f).symm

/-- The symbol of a named function at another position is new. -/
theorem Marked.symbol_ne_numberedSymbol (h : Marked count f entry) (name : String) {g : FuncId}
    (hNe : f ≠ g) : entry.symbol ≠ numberedSymbol name g := by
  cases h with
  | wrapper _ hSymbol =>
    rw [hSymbol]
    exact wrapperName_ne_numberedSymbol _ name g
  | named hSymbol =>
    rw [hSymbol]
    exact fun hSame => hNe (numberedSymbol_injective hSame)

/-- In an image that a session has built up the code generator has nothing to refuse. -/
theorem Grown.sound (h : image.Grown count) : image.Sound where
  fits hGet hBody := (h.prepared hGet hBody).fits
  calls_fit hGet hBody b hb dst callee args hi target hTarget := by
    obtain ⟨other, hOther, hArity⟩ := (h.prepared hGet hBody).calls b hb dst callee args hi
    obtain rfl := Option.some.inj (hTarget.symm.trans hOther)
    exact hArity.symm
  defined := by
    intro f entry hGet hKind
    refine Option.isSome_iff_ne_none.mpr fun hNone => ?_
    rw [(h.external_iff hGet).mpr hNone] at hKind
    cases hKind
  symbol_unique := h.symbol_unique
  symbol_ne_host hGet := (h.marked hGet).symbol_ne_host
  closed hGet hBody callee hMem := by
    obtain ⟨b, hb, dst, args, hi⟩ := mem_calleesOf.mp hMem
    obtain ⟨target, hTarget, -⟩ := (h.prepared hGet hBody).calls b hb dst callee args hi
    exact ⟨target, hTarget⟩

/-- An entry with a prepared body and a symbol of its own joins the image. -/
theorem Grown.push (h : image.Grown count) {more : Nat} (hMore : count ≤ more)
    (hPrepared : ∀ body, entry.body = some body →
      body.Prepared (image.push entry).Callable entry.arity)
    (hExternal : entry.kind = .external ↔ entry.body = none)
    (hMarked : Marked more image.next entry)
    (hNew : ∀ f other, image.get? f = some other → other.symbol ≠ entry.symbol) :
    (image.push entry).Grown more where
  prepared := by
    intro f found body hGet hBody
    rcases get?_push_cases hGet with hOld | ⟨-, rfl⟩
    · exact (h.prepared hOld hBody).imp fun _ _ hCallable => hCallable.push entry
    · exact hPrepared body hBody
  external_iff := by
    intro f found hGet
    rcases get?_push_cases hGet with hOld | ⟨-, rfl⟩
    · exact h.external_iff hOld
    · exact hExternal
  marked := by
    intro f found hGet
    rcases get?_push_cases hGet with hOld | ⟨rfl, rfl⟩
    · exact (h.marked hOld).mono hMore
    · exact hMarked
  symbol_unique := by
    intro f g found other hGet hOther hSymbol
    rcases get?_push_cases hGet with hOld | ⟨rfl, rfl⟩
    · rcases get?_push_cases hOther with hOtherOld | ⟨rfl, rfl⟩
      · exact h.symbol_unique hOld hOtherOld hSymbol
      · exact absurd hSymbol (hNew f found hOld)
    · rcases get?_push_cases hOther with hOtherOld | ⟨rfl, rfl⟩
      · exact absurd hSymbol.symm (hNew g other hOtherOld)
      · rfl

theorem grown_empty (count : Nat) : empty.Grown count where
  prepared hGet := by cases hGet
  external_iff hGet := by cases hGet
  marked hGet := by cases hGet
  symbol_unique hGet := by cases hGet

end Image

namespace Session

/-- What holds of a session whatever units it was given. -/
structure Sound (s : Session) : Prop where
  image : s.image.Grown s.wrapperCount
  bound : ∀ {name binding}, s.symbols.lookup name = some binding →
    s.image.Callable binding.func binding.arity
  coherent : s.backend.Coherent s.image

theorem sound_start (config : Config) : (start config).Sound where
  image := Image.grown_empty 0
  bound h := by cases h
  coherent := Backend.coherent_empty

variable {s : Session} {procedure : Procedure} {kind : FunctionKind} {lowered : Body}

/-! ## Bodies -/

/-- Names stand for functions of the image, and the own name for the entry that is added. -/
theorem Sound.callable_push (h : s.Sound) (entry : Entry)
    (hArity : entry.arity = procedure.signature.arity) (f : FuncId) (count : Nat)
    (hCallable : (Lowering.namesFor procedure s.image.next kind s.symbols).Callable f count) :
    (s.image.push entry).Callable f count := by
  obtain ⟨name, binding, hCallee, rfl, rfl⟩ := hCallable
  have hLookup : s.symbols.lookup name = some binding →
      (s.image.push entry).Callable binding.func binding.arity := fun hFound =>
    (h.bound hFound).push entry
  unfold Lowering.Names.callee Lowering.namesFor at hCallee
  -- A definition may call itself: its own name stands for the entry that is added.
  by_cases hKind : kind = .definition
  · simp only [if_pos hKind] at hCallee
    split at hCallee
    · obtain rfl := Option.some.inj hCallee
      exact ⟨entry, s.image.get?_push_next entry, hArity⟩
    · exact hLookup hCallee
  · simp only [if_neg hKind] at hCallee
    exact hLookup hCallee

/-- What a session keeps of a lowered body calls what names stand for while it is lowered. -/
theorem prepared_kept_names {name : String}
    (hLowered : Lowering.lowerProcedure procedure name s.image.next kind s.symbols = .ok lowered) :
    (s.kept lowered).Prepared (Lowering.namesFor procedure s.image.next kind s.symbols).Callable
      procedure.signature.arity := by
  have hPrepared := Lowering.prepared_lowerProcedure hLowered
  unfold kept
  split
  · exact prepared_optimize hPrepared (Lowering.lowerProcedure_inTable hLowered)
  · exact hPrepared

/-- The body of a procedure that was lowered is prepared for the entry that holds it. -/
theorem Sound.prepared_kept (h : s.Sound) {name : String}
    (hLowered : Lowering.lowerProcedure procedure name s.image.next kind s.symbols = .ok lowered)
    {entry : Entry} (hArity : entry.arity = procedure.signature.arity) :
    (s.kept lowered).Prepared (s.image.push entry).Callable entry.arity := by
  rw [hArity]
  exact (prepared_kept_names hLowered).imp (h.callable_push entry hArity)

/-! ## One unit -/

theorem Sound.accept (h : s.Sound) {entry : Entry} (listings : String)
    (hImage : (s.image.push entry).Grown s.wrapperCount) : (s.accept entry listings).Sound where
  image := hImage
  bound := by
    intro name binding hLookup
    rw [show (s.accept entry listings).symbols.lookup name = _ from
      Symbols.lookup_bind s.symbols entry.name name _] at hLookup
    split at hLookup
    · obtain rfl := Option.some.inj hLookup
      exact ⟨entry, s.image.get?_push_next entry, rfl⟩
    · exact (h.bound hLookup).push entry
  coherent := h.coherent.push entry

theorem Sound.wrap (h : s.Sound) {entry : Entry} (listings : String)
    (hImage : (s.image.push entry).Grown (s.wrapperCount + 1)) :
    (s.wrap entry listings).Sound where
  image := hImage
  bound hLookup := (h.bound hLookup).push entry
  coherent := h.coherent.push entry

theorem Sound.makeReady (h : s.Sound) (f : FuncId) : (s.makeReady f).2.Sound where
  image := h.image
  bound := h.bound
  coherent := h.coherent.makeReady h.image.sound.toRegular f

theorem Sound.definition (h : s.Sound) (hLowered : s.lowerDefinition procedure = .ok lowered)
    (listings : String) : (s.accept (s.definitionEntry procedure lowered) listings).Sound := by
  refine h.accept listings (h.image.push (Nat.le_refl _) ?_ (iff_of_false nofun nofun)
    (.named rfl) ?_)
  · rintro body ⟨⟩
    exact h.prepared_kept hLowered rfl
  · intro f other hGet
    exact (h.image.marked hGet).symbol_ne_numberedSymbol _
      (Nat.ne_of_lt (Image.lt_size_of_get? hGet))

theorem Sound.declaration (h : s.Sound) (signature : Signature) (listings : String) :
    (s.accept (s.declarationEntry signature) listings).Sound := by
  refine h.accept listings (h.image.push (Nat.le_refl _) nofun (iff_of_true rfl rfl)
    (.named rfl) ?_)
  intro f other hGet
  exact (h.image.marked hGet).symbol_ne_numberedSymbol _
    (Nat.ne_of_lt (Image.lt_size_of_get? hGet))

theorem Sound.wrapper (h : s.Sound) (hPlain : procedure.signature.params = [])
    (hLowered : s.lowerWrapper procedure = .ok lowered) (listings : String) :
    (s.wrap (s.wrapperEntry lowered) listings).Sound := by
  refine h.wrap listings (h.image.push (Nat.le_succ _) ?_ (iff_of_false nofun nofun)
    (.wrapper (Nat.lt_succ_self _) rfl) ?_)
  · rintro body ⟨⟩
    exact h.prepared_kept hLowered (by simp [wrapperEntry, Signature.arity, hPlain])
  · intro f other hGet
    exact (h.image.marked hGet).symbol_ne_wrapperName

/-- A wrapper comes to a value, misses a symbol and changes nothing, or is cut off. -/
theorem Sound.runWrapper_cases (h : s.Sound) {f : FuncId} {entry : Entry} {body : Body}
    (hGet : s.image.get? f = some entry) (hBody : entry.body = some body)
    (hArity : entry.arity = 0) :
    (s.runWrapper f).session.Sound ∧
      ((∃ x, (s.runWrapper f).result = .ok (.evaluated x)) ∨
        (∃ name arity, s.runWrapper f =
          { session := s, result := .error (.code (.unresolvedSymbol name arity)), output := [] }) ∨
        (s.runWrapper f).result = .error .unfinished) := by
  have hSound := h.makeReady f
  have hImage := h.image.sound
  rcases Backend.makeReady_ends hImage.toRegular h.coherent hGet hBody with
    ⟨after, hMake, hAfter, hMade, -⟩ | ⟨d, decl, -, -, hMake⟩ | ⟨g, hReaches, hNone, -⟩
  · have hRequest : s.makeReady f = (.ok { func := f }, { s with backend := after }) := by
      rw [Session.makeReady, hMake]
    have hReady : after.isReady f = true :=
      (hMade.isReady_iff f).mpr (.inr ⟨.refl, entry, hGet, by rw [hBody]; rfl⟩)
    have hPrepared := h.image.prepared hGet hBody
    rw [hRequest] at hSound
    refine ⟨by rw [runWrapper, hRequest]; exact hSound, ?_⟩
    rcases hAfter.invoke_cases
        (fun hOther hOtherBody => (h.image.prepared hOther hOtherBody).wellFormed.ends)
        hReady hGet hBody (hPrepared.fits.arity_eq.trans hArity) s.config.stepLimit with
      ⟨x, hRun⟩ | hRun
    · refine .inl ⟨x, ?_⟩
      rw [runWrapper, hRequest]
      exact congrArg outcomeOf hRun
    · refine .inr (.inr ?_)
      rw [runWrapper, hRequest]
      exact congrArg outcomeOf hRun
  · have hRequest : s.makeReady f =
        (.error (.unresolvedSymbol decl.name decl.arity), s) := by
      rw [Session.makeReady, hMake]
    refine ⟨by rw [runWrapper, hRequest]; exact h, .inr (.inl ⟨decl.name, decl.arity, ?_⟩)⟩
    rw [runWrapper, hRequest]
  -- The image holds all that its bodies call, so nothing that is reached is missing there.
  · obtain ⟨other, hOther⟩ := h.coherent.get?_of_reaches hImage hGet hReaches
    rw [hNone] at hOther
    cases hOther

/-- What handling a unit leaves is sound. -/
theorem Sound.handle (h : s.Sound) {u : SourceUnit} (hPlain : u.Plain) :
    (s.handle u).session.Sound := by
  have hHandles := s.handles u
  generalize s.handle u = handled at hHandles ⊢
  cases hHandles with
  | refused _ => exact h
  | defined hLower => exact h.definition hLower _
  | declared _ => exact h.declaration _ _
  | ran hLower =>
    exact ((h.wrapper hPlain hLower _).runWrapper_cases (s.image.get?_push_next _) rfl rfl).1

/-! ## Any number of units -/

theorem Sound.handleAll (units : List SourceUnit) : ∀ {s : Session}, s.Sound →
    (∀ u ∈ units, u.Plain) → (s.handleAll units).Sound := by
  induction units with
  | nil => exact fun h _ => h
  | cons u rest ih =>
    intro s h hPlain
    exact ih (h.handle (hPlain u List.mem_cons_self))
      fun v hv => hPlain v (List.mem_cons_of_mem u hv)

/-- Sessions that come of units as they come from the grammar, of requests and of taking listings,
in any order. -/
inductive Reached (config : Config) : Session → Prop
  | start : Reached config (start config)
  | handle {s : Session} (before : Reached config s) {u : SourceUnit} (plain : u.Plain) :
      Reached config (s.handle u).session
  | makeReady {s : Session} (before : Reached config s) (f : FuncId) :
      Reached config (s.makeReady f).2
  | takeListings {s : Session} (before : Reached config s) : Reached config s.takeListings.2

theorem Reached.sound {config : Config} (h : Reached config s) : s.Sound := by
  induction h with
  | start => exact sound_start config
  | handle _ hPlain ih => exact ih.handle hPlain
  | makeReady _ f ih => exact ih.makeReady f
  | takeListings _ ih =>
    unfold Session.takeListings
    split
    · exact ih
    · exact ⟨ih.image, ih.bound, ih.coherent⟩

/-- Whatever units a new session was given, a unit can only fail for reasons of its own: a
definition or declaration fails to be lowered, and a bare expression fails to be lowered or
misses a symbol.  The code generator refuses nothing, and no run traps.  A run that is cut off
at the limit of steps is no failure of the unit. -/
theorem handle_error_cases (config : Config) (units : List SourceUnit) (u : SourceUnit)
    (hPlain : ∀ v ∈ units, v.Plain) (hUnit : u.Plain) (e : UnitError)
    (hError : (((start config).handleAll units).handle u).result = .error e) :
    (∃ cause, e = .lowering cause) ∨
      u.kind = .expression ∧
        ((∃ name arity, e = .code (.unresolvedSymbol name arity)) ∨ e = .unfinished) := by
  have hSound := (sound_start config).handleAll units hPlain
  generalize (start config).handleAll units = s at hSound hError
  have hHandles := s.handles u
  generalize s.handle u = handled at hHandles hError
  cases hHandles with
  | refused _ => exact .inl ⟨_, (Except.error.inj hError).symm⟩
  | defined _ => cases hError
  | declared _ => cases hError
  | ran hLower =>
    refine .inr ⟨rfl, ?_⟩
    rcases ((hSound.wrapper hUnit hLower _).runWrapper_cases
      (s.image.get?_push_next _) rfl rfl).2 with ⟨x, hRun⟩ | ⟨name, arity, hRun⟩ | hRun
    · rw [hRun] at hError
      cases hError
    · rw [hRun] at hError
      exact .inl ⟨name, arity, (Except.error.inj hError).symm⟩
    · rw [hRun] at hError
      exact .inr (Except.error.inj hError).symm

/-- A declaration that is never defined, a function that calls it, and a declaration of the same
name that takes another number of arguments, which is refused. -/
def undefinedUnits : List SourceUnit :=
  [.declaration { name := "f", params := ["x"] },
    .definition
      { signature := { name := "g", params := ["x"] }
        body := .ifThenElse (.variable "x") (.call "f" [.variable "x"])
          (.call "g" [.number 1.0]) },
    .declaration { name := "f", params := [] }]

/-- Whether a unit failed at a missing symbol. -/
def missesSymbol (result : Except UnitError Outcome) (name : String) (arity : Nat) : Bool :=
  match result with
  | .error (.code (.unresolvedSymbol missing count)) => missing == name && count == arity
  | _ => false

theorem eq_of_missesSymbol {result : Except UnitError Outcome} {name : String} {arity : Nat}
    (h : missesSymbol result name arity = true) :
    result = .error (.code (.unresolvedSymbol name arity)) := by
  unfold missesSymbol at h
  split at h
  · simp_all
  · cases h

/-- A call of the function. -/
def undefinedCall : SourceUnit :=
  .expression { signature := Signature.unnamed, body := .call "g" [.number 0.0] }

theorem handle_undefinedCall :
    (∀ v ∈ undefinedUnits, v.Plain) ∧ undefinedCall.Plain ∧
    (((start Config.standard).handleAll undefinedUnits).handle undefinedCall).result =
      .error (.code (.unresolvedSymbol "f" 1)) ∧
    ((∃ cause, UnitError.code (.unresolvedSymbol "f" 1) = .lowering cause) ∨
      undefinedCall.kind = .expression ∧
        ((∃ name arity, UnitError.code (.unresolvedSymbol "f" 1) =
          .code (.unresolvedSymbol name arity)) ∨
          UnitError.code (.unresolvedSymbol "f" 1) = .unfinished)) := by
  have hPlain : ∀ v ∈ undefinedUnits, v.Plain := by
    simp [undefinedUnits, SourceUnit.Plain]
  have hError : (((start Config.standard).handleAll undefinedUnits).handle undefinedCall).result =
      .error (.code (.unresolvedSymbol "f" 1)) := by
    have hMisses : missesSymbol (((start Config.standard).handleAll undefinedUnits).handle
        undefinedCall).result "f" 1 = true := by decide +kernel
    exact eq_of_missesSymbol hMisses
  exact ⟨hPlain, rfl, hError,
    handle_error_cases Config.standard undefinedUnits undefinedCall hPlain rfl _ hError⟩

end Session

end LiveCompiler
