import LiveCompiler.Proofs.Program.Embedding
import LiveCompiler.Proofs.Program.Mirror
import LiveCompiler.Proofs.Program.Ready

/-!
# Runs in a larger image

Where an image and its backend are embedded in larger ones, a function becomes ready on both sides,
or the same symbol is missing on both sides; and the backends are embedded as before
(`Embeds.makeReady_alike`).  What is ready runs the same code on both sides, so it comes to the
same end with the same output (`Embeds.invoke_eq`).
-/

namespace LiveCompiler

open Ir

/-- Where calls end up among renamed functions. -/
def CallTarget.map (rename : FuncId → FuncId) : CallTarget → CallTarget
  | code f => code (rename f)
  | host h => host h

namespace Backend

variable {rename : FuncId → FuncId} {backend copy : Backend} {image whole : Image} {f : FuncId}
  {entry : Entry} {body : Body}

/-- Batches that correspond join backends that correspond. -/
theorem Embeds.join (h : backend.Embeds rename copy) (hInjective : Function.Injective rename)
    {batch : Batch} {after later : Backend}
    (hCompiled : after.compiled = backend.compiled ++ batch.bodies)
    (hLinks : after.links = backend.links ++ batch.links)
    (hLaterCompiled : later.compiled = copy.compiled ++ (batch.map rename).bodies)
    (hLaterLinks : later.links = copy.links ++ (batch.map rename).links) :
    after.Embeds rename later where
  ready g := by
    have hOld := h.ready g
    simp only [isReady] at hOld ⊢
    rw [hCompiled, hLaterCompiled, List.contains_append, List.contains_append, hOld, Batch.map,
      contains_map_rename hInjective]
  link d := by
    rw [hLinks, hLaterLinks, List.lookup_append, List.lookup_append, h.link, Batch.map,
      lookup_map_rename hInjective]
    cases backend.links.lookup d <;> rfl

/-- A function becomes ready on both sides, or the same symbol is missing on both sides. -/
theorem Embeds.makeReady_alike (h : backend.Embeds rename copy)
    (hImage : image.Embeds rename whole) (hSound : image.Sound) (hWhole : whole.Regular)
    (hCoherent : backend.Coherent image) (hCopy : copy.Coherent whole)
    (hGet : image.get? f = some entry) (hBody : entry.body = some body) :
    (∃ after later, backend.makeReady image f = (.ok { func := f }, after) ∧
      copy.makeReady whole (rename f) = (.ok { func := rename f }, later) ∧
      after.Embeds rename later ∧ after.isReady f = true) ∨
    ∃ name arity, backend.makeReady image f = (.error (.unresolvedSymbol name arity), backend) ∧
      copy.makeReady whole (rename f) = (.error (.unresolvedSymbol name arity), copy) := by
  obtain ⟨other, hOther, hMirrors⟩ := hImage.entry hGet
  obtain ⟨otherBody, hOtherBody⟩ : ∃ otherBody, other.body = some otherBody := by
    have hRel := hMirrors.body
    rw [hBody] at hRel
    generalize other.body = found at hRel
    cases hRel with
    | some => exact ⟨_, rfl⟩
  have hSameReady := h.ready f
  by_cases hReady : backend.isReady f = true
  · exact .inl ⟨backend, copy, makeReady_of_isReady hGet hBody hReady,
      makeReady_of_isReady hOther hOtherBody (hSameReady.trans hReady), h, hReady⟩
  · have hCopyReady : ¬ copy.isReady (rename f) = true := by rwa [hSameReady]
    have hSearches := h.searchBatch_eq hImage f
    have hEnds := ends_searchBatch backend image f
    generalize hSearch : backend.searchBatch image f = result at hSearches hEnds
    cases hEnds with
    | @found s hExplores hWork =>
      obtain ⟨after, hMake, hCompiled, hLinks, -⟩ :=
        makeReady_of_found hSound.toRegular hCoherent hGet hBody hReady hSearch
      obtain ⟨later, hLater, hLaterCompiled, hLaterLinks, -⟩ :=
        makeReady_of_found hWhole hCopy hOther hOtherBody hCopyReady hSearches
      have hJoined := h.join hImage.mono.injective hCompiled hLinks hLaterCompiled hLaterLinks
      refine .inl ⟨after, later, hMake, hLater, hJoined, ?_⟩
      have hMem : f ∈ s.batch.bodies := (hCoherent.finds hSearch).mem_bodies.mpr
        ⟨.refl, Bool.eq_false_iff.mpr hReady, entry, hGet, by rw [hBody]; rfl⟩
      simp [isReady, hCompiled, hMem]
    | @missing g hReached hNone =>
      obtain ⟨found, hFound⟩ := hCoherent.get?_of_reaches hSound hGet hReached
      rw [hNone] at hFound
      cases hFound
    | unresolved _ _ =>
      exact .inr ⟨_, _, makeReady_of_error hGet hBody hReady hSearch,
        makeReady_of_error hOther hOtherBody hCopyReady hSearches⟩

/-! ## Running what is ready -/

theorem Embeds.destination?_eq (h : backend.Embeds rename copy) (g : FuncId) :
    copy.destination? (rename g) = (backend.destination? g).map (CallTarget.map rename) := by
  simp only [destination?, h.ready, h.link]
  split
  · rfl
  · cases backend.links.lookup g with
    | none => rfl
    | some link =>
      cases link with
      | host host => rfl
      | function target =>
        simp only [Option.map_some, Link.map, h.ready]
        split <;> rfl

/-- The code of a function on both sides. -/
def SameCode (rename : FuncId → FuncId) (backend copy : Backend) (code other : Code) : Prop :=
  ∃ f, backend.isReady f = true ∧ backend.table.code? f = some code ∧
    copy.table.code? (rename f) = some other

/-- What is ready has code on both sides, of bodies that mirror each other. -/
theorem Embeds.exists_sameCode (h : backend.Embeds rename copy)
    (hImage : image.Embeds rename whole) (hCoherent : backend.Coherent image)
    (hCopy : copy.Coherent whole) (hReady : backend.isReady f = true) :
    ∃ body otherBody code other, backend.table.code? f = some code ∧
      copy.table.code? (rename f) = some other ∧ backend.CodeFits body code ∧
      copy.CodeFits otherBody other ∧ body.Mirrors rename otherBody := by
  obtain ⟨entry, body, code, hGet, hBody, hCode, hFits⟩ := hCoherent.code hReady
  obtain ⟨otherEntry, otherBody, other, hOtherGet, hOtherBody, hOther, hOtherFits⟩ :=
    hCopy.code ((h.ready f).trans hReady)
  obtain ⟨found, hFound, hMirrors⟩ := hImage.entry hGet
  obtain rfl := Option.some.inj (hFound.symm.trans hOtherGet)
  have hRel := hMirrors.body
  rw [hBody, hOtherBody] at hRel
  cases hRel with
  | some hBodies => exact ⟨body, otherBody, code, other, hCode, hOther, hFits, hOtherFits, hBodies⟩

/-- Calls on both sides go to the same code, or to the same host function. -/
theorem Embeds.lockstep (h : backend.Embeds rename copy) (hImage : image.Embeds rename whole)
    (hCoherent : backend.Coherent image) (hCopy : copy.Coherent whole) :
    Lockstep rename backend.table copy.table (backend.SameCode rename copy) where
  body := by
    rintro code other ⟨f, hReady, hCode, hOther⟩
    obtain ⟨body, otherBody, code', other', hCode', hOther', hFits, hOtherFits, hMirrors⟩ :=
      h.exists_sameCode hImage hCoherent hCopy hReady
    obtain rfl := Option.some.inj (hCode'.symm.trans hCode)
    obtain rfl := Option.some.inj (hOther'.symm.trans hOther)
    rw [hFits.body_eq, hOtherFits.body_eq]
    exact hMirrors
  callee := by
    rintro code other ⟨f, hReady, hCode, hOther⟩ g
    obtain ⟨body, otherBody, code', other', hCode', hOther', hFits, hOtherFits, hMirrors⟩ :=
      h.exists_sameCode hImage hCoherent hCopy hReady
    obtain rfl := Option.some.inj (hCode'.symm.trans hCode)
    obtain rfl := Option.some.inj (hOther'.symm.trans hOther)
    have hCallees := calleesOf_mirrors hMirrors
    unfold CodeTable.callee?
    -- A call of the body has a settled target on both sides; nothing else has one.
    by_cases hMem : g ∈ calleesOf body
    · have hOtherMem : rename g ∈ calleesOf otherBody := by
        rw [hCallees]
        exact List.mem_map_of_mem hMem
      obtain ⟨target, hDestination, hTarget⟩ := hFits.target g hMem
      obtain ⟨otherTarget, hOtherDestination, hOtherTarget⟩ :=
        hOtherFits.target (rename g) hOtherMem
      rw [h.destination?_eq, hDestination, Option.map_some] at hOtherDestination
      obtain rfl := Option.some.inj hOtherDestination
      rw [hTarget, hOtherTarget]
      cases target with
      | host host => exact .host host
      | code t =>
        have hTargetReady := isReady_of_destination? hDestination
        obtain ⟨-, -, callee, otherCallee, hCallee, hOtherCallee, -⟩ :=
          h.exists_sameCode hImage hCoherent hCopy hTargetReady
        simp only [CallTarget.map, hCallee, hOtherCallee, Option.map_some]
        exact .code ⟨t, hTargetReady, hCallee, hOtherCallee⟩
    · have hOtherMem : rename g ∉ calleesOf otherBody := by
        rw [hCallees, List.mem_map_of_injective hImage.mono.injective]
        exact hMem
      rw [hFits.target_none g hMem, hOtherFits.target_none (rename g) hOtherMem]
      exact .none

/-- What is ready and takes no arguments runs in the same way on both sides. -/
theorem Embeds.invoke_eq (h : backend.Embeds rename copy) (hImage : image.Embeds rename whole)
    (hCoherent : backend.Coherent image) (hCopy : copy.Coherent whole)
    (hReady : backend.isReady f = true) (hGet : image.get? f = some entry)
    (hBody : entry.body = some body) (hArity : body.arity = 0) (limit : Nat) :
    copy.invoke limit { func := rename f } = backend.invoke limit { func := f } := by
  obtain ⟨found, otherBody, code, other, hCode, hOther, hFits, hOtherFits, hMirrors⟩ :=
    h.exists_sameCode hImage hCoherent hCopy hReady
  have hRun := (h.lockstep hImage hCoherent hCopy).run_eq ⟨f, hReady, hCode, hOther⟩ limit
  have hOtherReady := (h.ready f).trans hReady
  have hZero : code.body.arity = 0 := by
    rw [(hCoherent.codeFits hReady hGet hBody hCode).body_eq, hArity]
  have hOtherZero : other.body.arity = 0 := by
    rw [hOtherFits.body_eq, hMirrors.arity_eq, ← hFits.body_eq, hZero]
  rw [invoke_of_code hReady hCode hZero, invoke_of_code hOtherReady hOther hOtherZero, hRun]

end Backend

end LiveCompiler
