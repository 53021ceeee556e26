import LiveCompiler.Proofs.Program.Compile

/-!
# What makes a function ready

An image and a backend *arise* by adding entries and making functions ready, in any order and
with any result (`Backend.Arises`).  If the image has come out regular, the backend is coherent
(`Arises.coherent`): whatever was tried on the way, also while calls went to entries that were
still missing, nothing is left over from what failed.

So it can be said what making a function ready does, with no word about the search
(`makeReady_cases`).  It fails if and only if the function reaches a declaration that nothing
can stand for, and then changes nothing.  Otherwise all bodies that it reaches become ready,
and the declarations that it reaches get the links they were offered.
-/

namespace LiveCompiler

open Ir

namespace Backend

/-- The images and backends that come of adding entries and making functions ready. -/
inductive Arises : Image → Backend → Prop
  | start : Arises Image.empty empty
  | append {image : Image} {backend : Backend} (before : Arises image backend) (entry : Entry) :
      Arises (image.push entry) backend
  | ready {image : Image} {backend : Backend} (before : Arises image backend) (f : FuncId) :
      Arises image (backend.makeReady image f).2

variable {backend : Backend} {image : Image} {f : FuncId} {entry : Entry} {body : Body}

/-- What a backend is like after a function was made ready. -/
structure MadeReady (backend : Backend) (image : Image) (f : FuncId) (after : Backend) : Prop where
  /-- The bodies that the function reaches have become ready, and no others. -/
  isReady_iff : ∀ g, after.isReady g = true ↔
    backend.isReady g = true ∨ backend.Reaches image f g ∧ HasBody image g
  /-- Links stay. -/
  links_kept : ∀ d link, backend.links.lookup d = some link → after.links.lookup d = some link
  /-- Declarations that the function reaches get their link, and no others. -/
  links_new : ∀ d link, backend.links.lookup d = none →
    (after.links.lookup d = some link ↔ backend.Reaches image f d ∧
      ∃ decl, image.get? d = some decl ∧ decl.body = none ∧ image.Offers decl link)
  /-- Every function that is ready has the code of its body. -/
  code : ∀ g, after.isReady g = true → after.HasCode image g

/-! ## One request -/

theorem makeReady_of_isReady (hGet : image.get? f = some entry) (hBody : entry.body = some body)
    (hReady : backend.isReady f = true) :
    backend.makeReady image f = (.ok { func := f }, backend) := by
  have hDecl : ¬ entry.isDeclaration = true := by simp [Entry.isDeclaration, hBody]
  simp only [makeReady, hGet, if_neg hDecl, if_pos hReady]

theorem makeReady_of_error (hGet : image.get? f = some entry) (hBody : entry.body = some body)
    (hReady : ¬ backend.isReady f = true) {e : CodeError}
    (hSearch : backend.searchBatch image f = .error e) :
    backend.makeReady image f = (.error e, backend) := by
  have hDecl : ¬ entry.isDeclaration = true := by simp [Entry.isDeclaration, hBody]
  simp only [makeReady, hGet, if_neg hDecl, if_neg hReady, hSearch]

theorem makeReady_of_compiled (hGet : image.get? f = some entry) (hBody : entry.body = some body)
    (hReady : ¬ backend.isReady f = true) {batch : Batch} {after : Backend}
    (hSearch : backend.searchBatch image f = .ok batch)
    (hCompile : backend.compileBatch image batch = (.ok (), after)) :
    backend.makeReady image f = (.ok { func := f }, after) := by
  have hDecl : ¬ entry.isDeclaration = true := by simp [Entry.isDeclaration, hBody]
  simp only [makeReady, hGet, if_neg hDecl, if_neg hReady, hSearch, hCompile]
  rfl

/-- Where a function is ready, all that it reaches is as it should be. -/
theorem Coherent.madeReady (hCoherent : backend.Coherent image)
    (hReady : backend.isReady f = true) : backend.MadeReady image f backend where
  isReady_iff g := by
    refine ⟨.inl, ?_⟩
    rintro (hOld | ⟨hReaches, other, hOther, hSome⟩)
    · exact hOld
    · exact hCoherent.isReady_of_settled (hCoherent.settled_of_reaches (.inl hReady) hReaches)
        hOther hSome
  links_kept _ _ hLookup := hLookup
  links_new d link hNone := by
    constructor
    · intro hLookup
      rw [hNone] at hLookup
      cases hLookup
    · rintro ⟨hReaches, decl, hGet, hBody, -⟩
      rcases hCoherent.settled_of_reaches (.inl hReady) hReaches with hOld | ⟨old, hLookup⟩
      · have hSome := hCoherent.body_of_isReady hOld hGet
        rw [hBody] at hSome
        cases hSome
      · rw [hNone] at hLookup
        cases hLookup
  code g hg := hCoherent.code hg

/-- Where a batch that was found joins the backend, all that its root reaches is as it should
be. -/
theorem Finds.madeReady {batch : Batch} {after : Backend} (h : backend.Finds image f batch)
    (hCompiled : after.compiled = backend.compiled ++ batch.bodies)
    (hLinks : after.links = backend.links ++ batch.links) (hCoherent : after.Coherent image) :
    backend.MadeReady image f after where
  isReady_iff g := by
    have hSplit : after.isReady g = true ↔ backend.isReady g = true ∨ g ∈ batch.bodies := by
      simp [isReady, hCompiled]
    rw [hSplit, h.mem_bodies]
    refine or_congr_right' fun hUnready => ?_
    rw [Bool.eq_false_iff.mpr hUnready]
    constructor
    · rintro ⟨hReaches, -, hHas⟩
      exact ⟨hReaches, hHas⟩
    · rintro ⟨hReaches, hHas⟩
      exact ⟨hReaches, rfl, hHas⟩
  links_kept d link hLookup := by rw [hLinks, List.lookup_append, hLookup, Option.some_or]
  links_new d link hNone := by
    rw [hLinks, List.lookup_append, hNone, Option.none_or, h.lookup_links]
    exact and_congr_right' ⟨And.right, And.intro hNone⟩
  code g hg := hCoherent.code hg

theorem Coherent.finds (hCoherent : backend.Coherent image) {batch : Batch}
    (hSearch : backend.searchBatch image f = .ok batch) : backend.Finds image f batch := by
  have hEnds := ends_searchBatch backend image f
  rw [hSearch] at hEnds
  cases hEnds with
  | found hExplores hWork => exact hExplores.finds hWork hCoherent

/-- A batch that was found joins the backend. -/
theorem makeReady_of_found (hRegular : image.Regular) (hCoherent : backend.Coherent image)
    (hGet : image.get? f = some entry) (hBody : entry.body = some body)
    (hReady : ¬ backend.isReady f = true) {batch : Batch}
    (hSearch : backend.searchBatch image f = .ok batch) :
    ∃ after, backend.makeReady image f = (.ok { func := f }, after) ∧
      after.compiled = backend.compiled ++ batch.bodies ∧
      after.links = backend.links ++ batch.links ∧ after.Coherent image := by
  obtain ⟨after, hCompile, hAfter⟩ :=
    compileBatch_ok hRegular hCoherent ((hCoherent.finds hSearch).plans hRegular hCoherent)
  exact ⟨after, makeReady_of_compiled hGet hBody hReady hSearch hCompile, hAfter⟩

/-- Making a function ready that has a body comes to one of three ends. -/
theorem makeReady_ends (hRegular : image.Regular) (hCoherent : backend.Coherent image)
    (hGet : image.get? f = some entry) (hBody : entry.body = some body) :
    (∃ after, backend.makeReady image f = (.ok { func := f }, after) ∧ after.Coherent image ∧
      backend.MadeReady image f after ∧
      ∀ d decl, backend.Reaches image f d → ¬ backend.Unresolvable image d decl) ∨
    (∃ d decl, backend.Reaches image f d ∧ backend.Unresolvable image d decl ∧
      backend.makeReady image f = (.error (.unresolvedSymbol decl.name decl.arity), backend)) ∨
    ∃ g, backend.Reaches image f g ∧ image.get? g = none ∧
      backend.makeReady image f = (.error (.invalid (.notInImage g)), backend) := by
  by_cases hReady : backend.isReady f = true
  · refine .inl ⟨backend, makeReady_of_isReady hGet hBody hReady, hCoherent,
      hCoherent.madeReady hReady, fun d decl hReaches => ?_⟩
    have hSettled := hCoherent.settled_of_reaches (.inl hReady) hReaches
    exact (hCoherent.resolved_of_settled hSettled).not_unresolvable decl
  -- Compiling never fails for a batch that was found, so the search alone decides.
  · have hEnds := ends_searchBatch backend image f
    generalize hSearch : backend.searchBatch image f = result at hEnds
    cases hEnds with
    | found =>
      have hFinds := hCoherent.finds hSearch
      obtain ⟨after, hMake, hCompiled, hLinks, hAfter⟩ :=
        makeReady_of_found hRegular hCoherent hGet hBody hReady hSearch
      exact .inl ⟨after, hMake, hAfter, hFinds.madeReady hCompiled hLinks hAfter,
        fun d decl hReaches => (hFinds.resolved hReaches).not_unresolvable decl⟩
    | missing hReached hNone =>
      exact .inr (.inr ⟨_, hReached, hNone, makeReady_of_error hGet hBody hReady hSearch⟩)
    | unresolved hReached hUnresolvable =>
      exact .inr (.inl ⟨_, _, hReached, hUnresolvable,
        makeReady_of_error hGet hBody hReady hSearch⟩)

/-! ## Any number of requests -/

/-- Making functions ready keeps a backend coherent, whether it succeeds or not. -/
theorem Coherent.makeReady (hCoherent : backend.Coherent image) (hRegular : image.Regular)
    (f : FuncId) : (backend.makeReady image f).2.Coherent image := by
  cases hGet : image.get? f with
  | none =>
    simp only [Backend.makeReady, hGet]
    exact hCoherent
  | some entry =>
    cases hBody : entry.body with
    | none =>
      have hDecl : entry.isDeclaration = true := by simp [Entry.isDeclaration, hBody]
      simp only [Backend.makeReady, hGet, if_pos hDecl]
      exact hCoherent
    | some body =>
      rcases makeReady_ends hRegular hCoherent hGet hBody with
        ⟨after, hMake, hAfter, -⟩ | ⟨_, _, -, -, hMake⟩ | ⟨_, -, -, hMake⟩
      · rw [hMake]
        exact hAfter
      · rw [hMake]
        exact hCoherent
      · rw [hMake]
        exact hCoherent

/-- With a regular image everything that was done on the way has left a coherent backend. -/
theorem Arises.coherent (h : Arises image backend) (hRegular : image.Regular) :
    backend.Coherent image := by
  induction h with
  | start => exact coherent_empty
  | append _ entry ih => exact (ih hRegular.of_push).push entry
  | ready _ f ih => exact (ih hRegular).makeReady hRegular f

/-- In a sound image, functions of the image lead to functions of the image. -/
theorem Coherent.get?_of_reaches (h : backend.Coherent image) (hSound : image.Sound)
    (hGet : image.get? f = some entry) {g : FuncId} (hReaches : backend.Reaches image f g) :
    ∃ other, image.get? g = some other := by
  induction hReaches with
  | refl => exact ⟨entry, hGet⟩
  | tail _ hLeads _ =>
    cases hLeads with
    | call hFrom hBody hMem => exact hSound.closed hFrom hBody _ hMem
    | link hFrom hBody hLinks =>
      cases hLinks with
      | kept hLookup =>
        obtain ⟨decl, -, -, hFits⟩ := h.link hLookup
        cases hFits with
        | function _ hTarget => exact ⟨_, hTarget⟩
      | new _ hOffers =>
        cases hOffers with
        | function hLatest =>
          obtain ⟨other, hOther, -⟩ := hLatest.1
          exact ⟨other, hOther⟩

/-- Making a function ready fails at a missing symbol if and only if the function reaches a
declaration without a link for which the image has no definition and the host no function; then
nothing changes.  Otherwise it succeeds, and what the function reaches has become ready. -/
theorem makeReady_cases (hArises : Arises image backend) (hSound : image.Sound)
    (hGet : image.get? f = some entry) (hBody : entry.body = some body) :
    ((∃ name arity, (backend.makeReady image f).1 = .error (.unresolvedSymbol name arity)) ↔
      ∃ d decl, backend.Reaches image f d ∧ backend.Unresolvable image d decl) ∧
    ((∃ d decl, backend.Reaches image f d ∧ backend.Unresolvable image d decl) →
      (backend.makeReady image f).2 = backend) ∧
    ((¬ ∃ d decl, backend.Reaches image f d ∧ backend.Unresolvable image d decl) →
      (backend.makeReady image f).1 = .ok { func := f } ∧
        backend.MadeReady image f (backend.makeReady image f).2) := by
  have hCoherent := hArises.coherent hSound.toRegular
  rcases makeReady_ends hSound.toRegular hCoherent hGet hBody with
    ⟨after, hMake, -, hMade, hResolved⟩ | ⟨d, decl, hReaches, hDecl, hMake⟩ |
      ⟨g, hReaches, hNone, -⟩
  · have hNot : ¬ ∃ d decl, backend.Reaches image f d ∧ backend.Unresolvable image d decl :=
      fun ⟨d, decl, hReaches, hDecl⟩ => hResolved d decl hReaches hDecl
    rw [hMake]
    refine ⟨⟨?_, fun h => absurd h hNot⟩, fun h => absurd h hNot, fun _ => ⟨rfl, hMade⟩⟩
    rintro ⟨name, arity, hError⟩
    cases hError
  · rw [hMake]
    exact ⟨⟨fun _ => ⟨d, decl, hReaches, hDecl⟩, fun _ => ⟨_, _, rfl⟩⟩, fun _ => rfl,
      fun hNot => absurd ⟨d, decl, hReaches, hDecl⟩ hNot⟩
  · obtain ⟨other, hOther⟩ := hCoherent.get?_of_reaches hSound hGet hReaches
    rw [hNone] at hOther
    cases hOther

/-! ## A name that is defined again -/

/-- A body of one block. -/
def straightBody (name : String) (arity : Nat) (instrs : List Instr) (result : Reg) : Body where
  name := name
  arity := arity
  blocks := [{ params := [], instrs := instrs, terminator := .ret result }]
  entry := 0
  regCount := instrs.length
  slots := []

/-- A declaration and a definition that calls it. -/
def firstEntries : List Entry :=
  [{ name := "f", symbol := "f.0", arity := 1, kind := .external, body := none },
    { name := "f", symbol := "f.1", arity := 1, kind := .definition,
      body := some (straightBody "f" 1 [.param 0 0, .call 1 0 [0]] 1) }]

/-- A second definition of the name, two more declarations, and a wrapper that calls the first
definition and both declarations. -/
def laterEntries : List Entry :=
  [{ name := "f", symbol := "f.2", arity := 1, kind := .definition,
      body := some (straightBody "f" 1 [.param 0 0] 0) },
    { name := "sin", symbol := "sin.3", arity := 1, kind := .external, body := none },
    { name := "f", symbol := "f.4", arity := 1, kind := .external, body := none },
    { name := "w", symbol := "w", arity := 0, kind := .wrapper,
      body := some (straightBody "w" 0
        [.const 0 1.0, .call 1 1 [0], .call 2 3 [1], .call 3 4 [2]] 3) }]

/-- The image with both definitions. -/
def redefinedImage : Image where
  entries := firstEntries ++ laterEntries

/-- The backend in which the first definition was made ready before the second came. -/
def earlyBackend : Backend :=
  (empty.makeReady { entries := firstEntries } 1).2

theorem arises_earlyBackend : Arises redefinedImage earlyBackend := by
  have hAppend : ∀ (entries : List Entry) {image : Image} {backend : Backend},
      Arises image backend → Arises { entries := image.entries ++ entries } backend := by
    intro entries
    induction entries with
    | nil =>
      intro image backend h
      rw [List.append_nil]
      exact h
    | cons entry rest ih =>
      intro image backend h
      have hRest := ih (h.append entry)
      rw [Image.push, List.append_assoc] at hRest
      exact hRest
  exact hAppend laterEntries ((hAppend firstEntries .start).ready 1)

theorem fits_straightBody {name : String} {arity : Nat} {instrs : List Instr} {result : Reg}
    (hParams : ∀ dst index, Instr.param dst index ∈ instrs → index.toNat < arity) :
    (straightBody name arity instrs result).Fits arity where
  arity_eq := rfl
  entry_lt := Nat.one_pos
  entry_params := rfl
  param_lt b hb := List.mem_singleton.mp hb ▸ hParams
  edge_fits b hb e he := by
    obtain rfl := List.mem_singleton.mp hb
    cases he

theorem sound_redefinedImage : redefinedImage.Sound := by
  refine Image.sound_of_entries ?_ (by decide) (by decide) (by decide) (by decide)
  simp only [redefinedImage, firstEntries, laterEntries, List.cons_append, List.nil_append,
    List.forall_mem_cons, Option.mem_def, reduceCtorEq, Option.some.injEq, forall_eq',
    false_imp_iff, implies_true, true_and]
  refine ⟨fits_straightBody ?_, fits_straightBody ?_, fits_straightBody ?_, ?_⟩ <;> simp

theorem makeReady_redefined :
    Arises redefinedImage earlyBackend ∧ redefinedImage.Sound ∧
    (earlyBackend.makeReady redefinedImage 5).1 = .ok { func := 5 } ∧
    earlyBackend.MadeReady redefinedImage 5 (earlyBackend.makeReady redefinedImage 5).2 := by
  have h := makeReady_cases arises_earlyBackend sound_redefinedImage (f := 5) rfl rfl
  have hOk : (earlyBackend.makeReady redefinedImage 5).1 = .ok { func := 5 } := by decide
  refine ⟨arises_earlyBackend, sound_redefinedImage, h.2.2 ?_⟩
  rw [← h.1]
  rintro ⟨name, arity, hError⟩
  rw [hOk] at hError
  cases hError

end Backend

end LiveCompiler
