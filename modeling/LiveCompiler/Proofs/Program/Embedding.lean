import LiveCompiler.Proofs.Ir.Retarget
import LiveCompiler.Proofs.Program.Search
import Mathlib.Order.Monotone.Basic

/-!
# Searches in a larger image

An image is *embedded* in a larger one if its functions are found there in the same order, with the
same bodies under the new positions, and what the larger image has besides are wrappers
(`Image.Embeds`).  Nothing calls a wrapper and no declaration is linked to one, so a search that
starts at a function of the smaller image never meets the others: it finds the same batch under the
new positions, or fails in the same way (`Embeds.searchBatch_eq`).

The bound of a search depends on the size of the image.  Both searches are compared under a common
bound, which is possible as more than the bound changes nothing (`searchFrom_add`).
-/

namespace LiveCompiler

open Ir

/-! ## Images -/

/-- An entry whose body is mirrored by that of another entry.  Wrappers may differ in their
names. -/
structure Entry.Mirrors (rename : FuncId → FuncId) (entry other : Entry) : Prop where
  arity_eq : other.arity = entry.arity
  kind_eq : other.kind = entry.kind
  name_eq : other.name = entry.name ∨ entry.kind = .wrapper ∧ entry.body.isSome = true
  body : Option.Rel (Body.Mirrors rename) entry.body other.body

/-- An image whose functions are found in a larger one, in the same order. -/
structure Image.Embeds (rename : FuncId → FuncId) (image whole : Image) : Prop where
  mono : StrictMono rename
  beyond : ∀ more, rename (image.size + more) = whole.size + more
  entry : ∀ {f entry}, image.get? f = some entry →
    ∃ copy, whole.get? (rename f) = some copy ∧ entry.Mirrors rename copy
  extra : ∀ {g copy}, whole.get? g = some copy → copy.kind ≠ .wrapper → ∃ f, rename f = g

variable {rename : FuncId → FuncId}

namespace Image

variable {image whole : Image} {f : FuncId}

theorem Embeds.get?_eq_none (h : image.Embeds rename whole) (hNone : image.get? f = none) :
    whole.get? (rename f) = none := by
  have hSize : image.size ≤ f := List.getElem?_eq_none_iff.mp hNone
  obtain ⟨more, rfl⟩ := Nat.exists_eq_add_of_le hSize
  rw [h.beyond]
  exact List.getElem?_eq_none_iff.mpr (Nat.le_add_right _ more)

theorem Embeds.exists_of_get? (h : image.Embeds rename whole) {copy : Entry}
    (hCopy : whole.get? (rename f) = some copy) :
    ∃ entry, image.get? f = some entry ∧ entry.Mirrors rename copy := by
  cases hGet : image.get? f with
  | none =>
    rw [h.get?_eq_none hGet] at hCopy
    cases hCopy
  | some entry =>
    obtain ⟨other, hOther, hMirrors⟩ := h.entry hGet
    obtain rfl := Option.some.inj (hOther.symm.trans hCopy)
    exact ⟨entry, rfl, hMirrors⟩

/-- The definitions of the larger image are those of the smaller one. -/
theorem Embeds.defines_iff (h : image.Embeds rename whole) {name : String} {arity : Nat}
    {g : FuncId} :
    whole.Defines name arity g ↔ ∃ f, rename f = g ∧ image.Defines name arity f := by
  constructor
  · rintro ⟨copy, hCopy, hKind, hName, hArity⟩
    obtain ⟨f, rfl⟩ := h.extra hCopy (by rw [hKind]; exact nofun)
    obtain ⟨entry, hGet, hMirrors⟩ := h.exists_of_get? hCopy
    have hEntryKind : entry.kind = .definition := hMirrors.kind_eq.symm.trans hKind
    refine ⟨f, rfl, entry, hGet, hEntryKind, ?_, hMirrors.arity_eq.symm.trans hArity⟩
    rcases hMirrors.name_eq with hSame | ⟨hWrapper, -⟩
    · exact hSame.symm.trans hName
    · rw [hEntryKind] at hWrapper
      cases hWrapper
  · rintro ⟨f, rfl, entry, hGet, hKind, hName, hArity⟩
    obtain ⟨copy, hCopy, hMirrors⟩ := h.entry hGet
    refine ⟨copy, hCopy, hMirrors.kind_eq.trans hKind, ?_, hMirrors.arity_eq.trans hArity⟩
    rcases hMirrors.name_eq with hSame | ⟨hWrapper, -⟩
    · exact hSame.trans hName
    · rw [hKind] at hWrapper
      cases hWrapper

end Image

/-- The link to a renamed function. -/
def Link.map (rename : FuncId → FuncId) : Link → Link
  | function f => function (rename f)
  | host h => host h

/-- A declaration and its copy are called by the same name and take as many values. -/
theorem Entry.Mirrors.declares {decl copy : Entry} (h : decl.Mirrors rename copy)
    (hBody : decl.body = none) :
    copy.body = none ∧ copy.name = decl.name ∧ copy.arity = decl.arity := by
  obtain ⟨hArity, -, hName, hRel⟩ := h
  rw [hBody] at hRel
  generalize hCopy : copy.body = copyBody at hRel
  cases hRel
  refine ⟨rfl, ?_, hArity⟩
  rcases hName with hSame | ⟨-, hSome⟩
  · exact hSame
  · rw [hBody] at hSome
    cases hSome

namespace Image

variable {image whole : Image}

theorem Embeds.offers (h : image.Embeds rename whole) {decl copy : Entry} {link : Link}
    (hName : copy.name = decl.name) (hArity : copy.arity = decl.arity)
    (hOffers : image.Offers decl link) : whole.Offers copy (link.map rename) := by
  cases hOffers with
  | function hLatest =>
    refine .function ⟨h.defines_iff.mpr ⟨_, rfl, ?_⟩, ?_⟩
    · rw [hName, hArity]
      exact hLatest.1
    · intro g hDefines
      rw [hName, hArity] at hDefines
      obtain ⟨f, rfl, hFound⟩ := h.defines_iff.mp hDefines
      exact h.mono.monotone (hLatest.2 f hFound)
  | host hUndefined hHostName hHostArity =>
    refine .host ?_ (hHostName.trans hName.symm) (hHostArity.trans hArity.symm)
    intro g hDefines
    rw [hName, hArity] at hDefines
    obtain ⟨f, -, hDefines⟩ := h.defines_iff.mp hDefines
    exact hUndefined f hDefines

/-- A declaration and its copy are linked to the same, or to nothing. -/
theorem Embeds.chooseLink_eq (h : image.Embeds rename whole) {decl copy : Entry}
    (hName : copy.name = decl.name) (hArity : copy.arity = decl.arity) :
    Backend.chooseLink whole copy = (Backend.chooseLink image decl).map (Link.map rename) := by
  cases hChoose : Backend.chooseLink image decl with
  | ok link =>
    exact chooseLink_eq_ok_iff.mpr (h.offers hName hArity (offers_of_chooseLink hChoose))
  | error e =>
    obtain ⟨rfl, hUndefined, hHostless⟩ := not_defined_of_chooseLink hChoose
    cases hCopy : Backend.chooseLink whole copy with
    | ok other =>
      have hOffers := offers_of_chooseLink hCopy
      cases hOffers with
      | function hLatest =>
        rw [hName, hArity] at hLatest
        obtain ⟨f, -, hDefines⟩ := h.defines_iff.mp hLatest.1
        exact absurd hDefines (hUndefined f)
      | host _ hHostName hHostArity =>
        exact absurd ⟨hHostName.trans hName, hHostArity.trans hArity⟩ (hHostless _)
    | error e =>
      obtain ⟨rfl, -, -⟩ := not_defined_of_chooseLink hCopy
      rw [hName, hArity, Except.map]

end Image

/-! ## Searches -/

/-- A batch of renamed functions. -/
def Backend.Batch.map (rename : FuncId → FuncId) (batch : Backend.Batch) : Backend.Batch where
  bodies := batch.bodies.map rename
  links := batch.links.map (Prod.map rename (Link.map rename))

/-- A search among renamed functions. -/
def Backend.BatchSearch.map (rename : FuncId → FuncId) (s : Backend.BatchSearch) :
    Backend.BatchSearch where
  work := s.work.map rename
  seen := s.seen.map rename
  batch := s.batch.map rename

/-- The error that a search comes to, with the function renamed that it names. -/
def CodeError.map (rename : FuncId → FuncId) : CodeError → CodeError
  | .invalid (.notInImage f) => .invalid (.notInImage (rename f))
  | e => e

theorem lookup_map_rename {β γ : Type} (hInjective : Function.Injective rename) (value : β → γ)
    (entries : List (FuncId × β)) (f : FuncId) :
    (entries.map (Prod.map rename value)).lookup (rename f) = (entries.lookup f).map value := by
  induction entries with
  | nil => rfl
  | cons entry rest ih =>
    obtain ⟨g, x⟩ := entry
    have hSame : (rename f == rename g) = (f == g) := by
      simp [hInjective.eq_iff]
    simp only [List.map_cons, Prod.map_apply, List.lookup_cons, hSame, ih]
    cases f == g <;> rfl

theorem contains_map_rename (hInjective : Function.Injective rename) (items : List FuncId)
    (f : FuncId) : (items.map rename).contains (rename f) = items.contains f := by
  rw [Bool.eq_iff_iff, List.contains_iff_mem, List.contains_iff_mem,
    List.mem_map_of_injective hInjective]

theorem calleesOf_mirrors {body copy : Body} (h : body.Mirrors rename copy) :
    calleesOf copy = (calleesOf body).map rename := by
  simp only [calleesOf, h.blocks_eq, List.flatMap_map, List.map_flatMap, Block.instrs_mapCallees,
    List.filterMap_map, List.map_filterMap]
  congr 1
  funext b
  congr 1
  funext i
  cases i <;> rfl

namespace Backend

variable {backend copy : Backend} {image whole : Image}

/-- A backend in which the same functions are ready, and the same links are kept, as in a backend
for the larger image. -/
structure Embeds (rename : FuncId → FuncId) (backend copy : Backend) : Prop where
  ready : ∀ f, copy.isReady (rename f) = backend.isReady f
  link : ∀ d, copy.links.lookup (rename d) = (backend.links.lookup d).map (Link.map rename)

theorem Embeds.searchEntry_eq (h : backend.Embeds rename copy)
    (hImage : image.Embeds rename whole) (f : FuncId) (s : BatchSearch) :
    copy.searchEntry whole (rename f) (s.map rename) =
      ((backend.searchEntry image f s).mapError (CodeError.map rename)).map
        (BatchSearch.map rename) := by
  cases hGet : image.get? f with
  | none =>
    simp only [searchEntry, hGet, hImage.get?_eq_none hGet]
    rfl
  | some entry =>
    obtain ⟨other, hOther, hMirrors⟩ := hImage.entry hGet
    cases hBody : entry.body with
    | some body =>
      have hRel := hMirrors.body
      rw [hBody] at hRel
      generalize hOtherBody : other.body = otherBody at hRel
      cases hRel with
      | some hBodies =>
        simp only [searchEntry, hGet, hBody, hOther, hOtherBody, calleesOf_mirrors hBodies]
        simp [Except.mapError, Except.map, BatchSearch.map, Batch.map]
    | none =>
      obtain ⟨hOtherBody, hName, hArity⟩ := hMirrors.declares hBody
      simp only [searchEntry, hGet, hBody, hOther, hOtherBody, h.link]
      cases backend.links.lookup f with
      | some link => cases link <;> rfl
      | none =>
        simp only [Option.map_none, hImage.chooseLink_eq hName hArity]
        cases hChoose : chooseLink image entry with
        | error e =>
          obtain ⟨rfl, -⟩ := Image.not_defined_of_chooseLink hChoose
          rfl
        | ok link =>
          cases link <;> simp [Except.mapError, Except.map, BatchSearch.map, Batch.map, bind,
            Except.bind, Link.map]

theorem Embeds.searchFrom_eq (h : backend.Embeds rename copy)
    (hImage : image.Embeds rename whole) (count : Nat) : ∀ s : BatchSearch,
    copy.searchFrom whole count (s.map rename) =
      ((backend.searchFrom image count s).mapError (CodeError.map rename)).map
        (Batch.map rename) := by
  have hInjective := hImage.mono.injective
  induction count with
  | zero => exact fun _ => rfl
  | succ count ih =>
    rintro ⟨work, seen, batch⟩
    cases work with
    | nil => rfl
    | cons f rest =>
      have hStep := h.searchEntry_eq hImage f ⟨rest, f :: seen, batch⟩
      simp only [BatchSearch.map, List.map_cons] at hStep ⊢
      -- Renaming is injective, so both sides have seen the same functions.
      rw [searchFrom_cons, searchFrom_cons, contains_map_rename hInjective, h.ready, hStep]
      split
      · exact ih ⟨rest, seen, batch⟩
      · split
        · exact ih ⟨rest, f :: seen, batch⟩
        · cases backend.searchEntry image f ⟨rest, f :: seen, batch⟩ with
          | error e => rfl
          | ok s => exact ih s

/-- More than the bound of a search changes nothing. -/
theorem searchFrom_add (more count : Nat) : ∀ {s : BatchSearch},
    s.work.length + pending image s.seen ≤ count →
    backend.searchFrom image (count + more) s = backend.searchFrom image count s := by
  induction count with
  | zero =>
    rintro ⟨work, seen, batch⟩ hCount
    obtain rfl : work = [] := List.eq_nil_of_length_eq_zero (by simp only at hCount; omega)
    cases more <;> rfl
  | succ count ih =>
    rintro ⟨work, seen, batch⟩ hCount
    rw [Nat.add_right_comm]
    cases work with
    | nil => rfl
    | cons f rest =>
      change rest.length + 1 + pending image seen ≤ count + 1 at hCount
      rw [searchFrom_cons, searchFrom_cons]
      split
      · exact ih (by simp only; omega)
      · rename_i hUnseen
        have hUnseen : f ∉ seen := fun hMem => hUnseen (List.contains_iff_mem.mpr hMem)
        split
        · have hLe := pending_cons_le image f seen
          exact ih (by simp only; omega)
        · rcases searchEntry_cases backend image f ⟨rest, f :: seen, batch⟩ with
            ⟨next, bodies, links, hAdds, hEntry⟩ | ⟨-, hEntry⟩ | ⟨decl, -, hEntry⟩
          · have hLength := hAdds.length_le
            have hLe := followAt_add_pending_cons image hUnseen
            rw [hEntry]
            refine ih ?_
            simp only [List.length_append]
            omega
          · rw [hEntry]
          · rw [hEntry]

/-- A search in the larger image finds the same, or fails in the same way. -/
theorem Embeds.searchBatch_eq (h : backend.Embeds rename copy)
    (hImage : image.Embeds rename whole) (f : FuncId) :
    copy.searchBatch whole (rename f) =
      ((backend.searchBatch image f).mapError (CodeError.map rename)).map (Batch.map rename) := by
  have hSmall := @searchFrom_add backend image (searchBound whole) (searchBound image)
    { work := [f], seen := [], batch := { bodies := [], links := [] } }
    (Nat.le_of_eq (searchBound_eq image).symm)
  have hLarge := @searchFrom_add copy whole (searchBound image) (searchBound whole)
    { work := [rename f], seen := [], batch := { bodies := [], links := [] } }
    (Nat.le_of_eq (searchBound_eq whole).symm)
  rw [searchBatch, searchBatch, ← hSmall, ← hLarge, Nat.add_comm (searchBound whole)]
  exact h.searchFrom_eq hImage _ { work := [f], seen := [], batch := { bodies := [], links := [] } }

end Backend

end LiveCompiler
