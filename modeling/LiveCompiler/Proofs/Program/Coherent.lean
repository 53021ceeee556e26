import LiveCompiler.Proofs.Program.Image
import LiveCompiler.Program.Machine
import Mathlib.Logic.Relation

/-!
# What is settled for functions that are ready

Once a function is ready, it is settled where its calls end up: each called function is ready
itself, or it is a declaration with a link to a host function or to a function that is ready
(`Backend.Coherent`).  So all that a ready function leads to is settled as well
(`Coherent.settled_of_reaches`), and a search need not look behind it.
-/

namespace LiveCompiler

open Ir

/-- Where calls end up that go through a link. -/
def Link.destination : Link → CallTarget
  | function target => .code target
  | host h => .host h

namespace Backend

/-- Where calls of a function end up, as far as this is settled. -/
def destination? (backend : Backend) (f : FuncId) : Option CallTarget :=
  if backend.isReady f then some (.code f)
  else
    match backend.links.lookup f with
    | some (.function target) => if backend.isReady target then some (.code target) else none
    | some (.host h) => some (.host h)
    | none => none

/-- A link that can stand for its declaration: what it leads to can be called and takes as
many values. -/
inductive LinkFits (backend : Backend) (image : Image) (decl : Entry) : Link → Prop
  | function {target : FuncId} {entry : Entry} (ready : backend.isReady target = true)
      (get : image.get? target = some entry) (arity_eq : entry.arity = decl.arity) :
      LinkFits backend image decl (.function target)
  | host {h : HostFunction} (arity_eq : h.arity = decl.arity) : LinkFits backend image decl (.host h)

/-- The code of a body: the calls of the body end up where this is settled, and there are no
others. -/
structure CodeFits (backend : Backend) (body : Body) (code : Code) : Prop where
  body_eq : code.body = body
  target : ∀ g ∈ calleesOf body, ∃ target, backend.destination? g = some target ∧
    code.target? g = some target
  target_none : ∀ g ∉ calleesOf body, code.target? g = none

/-- The code table has the code of a function that has a body. -/
def HasCode (backend : Backend) (image : Image) (f : FuncId) : Prop :=
  ∃ entry body code, image.get? f = some entry ∧ entry.body = some body ∧
    backend.table.code? f = some code ∧ backend.CodeFits body code

/-- What the functions that are ready, the links and the code table agree on. -/
structure Coherent (backend : Backend) (image : Image) : Prop where
  code : ∀ {f}, backend.isReady f = true → backend.HasCode image f
  link : ∀ {d link}, backend.links.lookup d = some link →
    ∃ decl, image.get? d = some decl ∧ decl.body = none ∧ backend.LinkFits image decl link
  made : ∀ code ∈ backend.table.codes, code.isLinked = true ∧ backend.isReady code.func = true ∧
    ∃ entry, image.get? code.func = some entry ∧ code.symbol = entry.symbol
  known : ∀ symbol ∈ backend.table.symbols, ∃ target, image.Names target symbol

/-! ## Calls and links -/

/-- A declaration is linked to something now, or would be if it were reached now. -/
inductive LinksTo (backend : Backend) (image : Image) (d : FuncId) (decl : Entry) : Link → Prop
  | kept {link : Link} (recorded : backend.links.lookup d = some link) :
      LinksTo backend image d decl link
  | new {link : Link} (unlinked : backend.links.lookup d = none)
      (offered : image.Offers decl link) : LinksTo backend image d decl link

/-- One function leads to another: it calls it, or is a declaration that is linked to it. -/
inductive Leads (backend : Backend) (image : Image) (f g : FuncId) : Prop
  | call {entry : Entry} {body : Body} (get : image.get? f = some entry)
      (body_eq : entry.body = some body) (mem : g ∈ calleesOf body)
  | link {entry : Entry} (get : image.get? f = some entry) (body_eq : entry.body = none)
      (linked : backend.LinksTo image f entry (.function g))

/-- One function leads to another in some number of steps. -/
abbrev Reaches (backend : Backend) (image : Image) : FuncId → FuncId → Prop :=
  Relation.ReflTransGen (backend.Leads image)

/-- A declaration that nothing can stand for: it has no link, and the image has no definition
and the host no function of its name and arity. -/
structure Unresolvable (backend : Backend) (image : Image) (d : FuncId) (decl : Entry) : Prop where
  get : image.get? d = some decl
  body_eq : decl.body = none
  unlinked : backend.links.lookup d = none
  undefined : ∀ f, ¬ image.Defines decl.name decl.arity f
  hostless : ∀ h : HostFunction, ¬ (h.name = decl.name ∧ h.arity = decl.arity)

variable {backend : Backend} {image : Image} {f g d : FuncId} {decl entry : Entry} {link : Link}

theorem destination?_of_isReady (h : backend.isReady f = true) :
    backend.destination? f = some (.code f) := by
  rw [destination?, if_pos h]

theorem isReady_of_destination? (h : backend.destination? f = some (.code g)) :
    backend.isReady g = true := by
  unfold destination? at h
  split at h
  · rename_i hReady
    cases h
    exact hReady
  · split at h
    · split at h
      · rename_i hReady
        cases h
        exact hReady
      · cases h
    · cases h
    · cases h

theorem Unresolvable.not_linksTo (h : backend.Unresolvable image d decl) :
    ¬ backend.LinksTo image d decl link := by
  intro hLinks
  cases hLinks with
  | kept hLookup =>
    rw [h.unlinked] at hLookup
    cases hLookup
  | new _ hOffers =>
    cases hOffers with
    | function hLatest => exact h.undefined _ hLatest.1
    | host _ hName hArity => exact h.hostless _ ⟨hName, hArity⟩

theorem LinksTo.unique {other : Link} (h : backend.LinksTo image d decl link)
    (hOther : backend.LinksTo image d decl other) : link = other := by
  cases h with
  | kept hLookup =>
    cases hOther with
    | kept hOther => exact Option.some.inj (hLookup.symm.trans hOther)
    | new hNone => exact absurd (hLookup.symm.trans hNone) (Option.some_ne_none _)
  | new hNone hOffers =>
    cases hOther with
    | kept hOther => exact absurd (hOther.symm.trans hNone) (Option.some_ne_none _)
    | new _ hOther => exact hOffers.unique hOther

/-- A function that is ready and takes no arguments runs its code. -/
theorem invoke_of_code {code : Code} (hReady : backend.isReady f = true)
    (hCode : backend.table.code? f = some code) (hArity : code.body.arity = 0) (limit : Nat) :
    backend.invoke limit { func := f } =
      { result := .ok (Machine.run backend.table limit (.start code)).1
        output := (Machine.run backend.table limit (.start code)).2.toList } := by
  simp only [invoke, readyCode?, if_pos hReady, hCode, if_pos hArity]

/-! ## Coherence -/

theorem LinkFits.push (h : backend.LinkFits image decl link) (added : Entry) :
    backend.LinkFits (image.push added) decl link := by
  cases h with
  | function hReady hGet hArity =>
    exact .function hReady (Image.get?_push_of_some hGet added) hArity
  | host hArity => exact .host hArity

/-- An entry more in the image changes nothing for what is ready. -/
theorem Coherent.push (h : backend.Coherent image) (added : Entry) :
    backend.Coherent (image.push added) where
  code hReady := by
    obtain ⟨entry, body, code, hGet, hRest⟩ := h.code hReady
    exact ⟨entry, body, code, Image.get?_push_of_some hGet added, hRest⟩
  link hLookup := by
    obtain ⟨decl, hGet, hBody, hFits⟩ := h.link hLookup
    exact ⟨decl, Image.get?_push_of_some hGet added, hBody, hFits.push added⟩
  made code hCode := by
    obtain ⟨hLinked, hReady, entry, hGet, hSymbol⟩ := h.made code hCode
    exact ⟨hLinked, hReady, entry, Image.get?_push_of_some hGet added, hSymbol⟩
  known symbol hSymbol := (h.known symbol hSymbol).imp fun _ hNames => hNames.push added

theorem coherent_empty : empty.Coherent Image.empty where
  code hReady := by cases hReady
  link hLookup := by cases hLookup
  made _ hCode := by cases hCode
  known _ hSymbol := by cases hSymbol

/-- A declaration is never ready. -/
theorem Coherent.body_of_isReady (h : backend.Coherent image) (hReady : backend.isReady f = true)
    (hGet : image.get? f = some entry) : entry.body.isSome = true := by
  obtain ⟨_, body, _, hSame, hBody, -⟩ := h.code hReady
  obtain rfl := Option.some.inj (hGet.symm.trans hSame)
  rw [hBody]
  rfl

/-- The code that is found for a function that is ready is that of its body. -/
theorem Coherent.codeFits (h : backend.Coherent image) (hReady : backend.isReady f = true)
    (hGet : image.get? f = some entry) {body : Body} (hBody : entry.body = some body) {code : Code}
    (hCode : backend.table.code? f = some code) : backend.CodeFits body code := by
  obtain ⟨_, _, _, hSame, hSameBody, hSameCode, hFits⟩ := h.code hReady
  obtain rfl := Option.some.inj (hGet.symm.trans hSame)
  obtain rfl := Option.some.inj (hBody.symm.trans hSameBody)
  obtain rfl := Option.some.inj (hCode.symm.trans hSameCode)
  exact hFits

theorem Coherent.destination?_of_lookup (h : backend.Coherent image)
    (hLookup : backend.links.lookup d = some link) :
    backend.destination? d = some link.destination := by
  obtain ⟨decl, hGet, hBody, hFits⟩ := h.link hLookup
  have hUnready : ¬ backend.isReady d = true := by
    intro hReady
    have hSome := h.body_of_isReady hReady hGet
    rw [hBody] at hSome
    cases hSome
  rw [destination?, if_neg hUnready, hLookup]
  cases hFits with
  | function hReady => exact if_pos hReady
  | host => rfl

/-- It is settled where calls of a function end up. -/
def Settled (backend : Backend) (f : FuncId) : Prop :=
  backend.isReady f = true ∨ ∃ link, backend.links.lookup f = some link

/-- What a settled function leads to is settled. -/
theorem Coherent.settled_of_leads (h : backend.Coherent image) (hSettled : backend.Settled f)
    (hLeads : backend.Leads image f g) : backend.Settled g := by
  -- The code of what is ready has a target for every call, and a link fits only what is ready.
  rcases hSettled with hReady | ⟨link, hLookup⟩
  · obtain ⟨entry, body, _, hGet, hBody, -, hCode⟩ := h.code hReady
    cases hLeads with
    | call hSame hSameBody hMem =>
      obtain rfl := Option.some.inj (hGet.symm.trans hSame)
      obtain rfl := Option.some.inj (hBody.symm.trans hSameBody)
      obtain ⟨target, hDestination, -⟩ := hCode.target g hMem
      unfold destination? at hDestination
      split at hDestination
      · rename_i hReady
        exact .inl hReady
      · split at hDestination
        · rename_i hLookup
          exact .inr ⟨_, hLookup⟩
        · rename_i hLookup
          exact .inr ⟨_, hLookup⟩
        · cases hDestination
    | link hSame hNone =>
      obtain rfl := Option.some.inj (hGet.symm.trans hSame)
      rw [hBody] at hNone
      cases hNone
  · obtain ⟨decl, hGet, hBody, hFits⟩ := h.link hLookup
    cases hLeads with
    | call hSame hSameBody hMem =>
      obtain rfl := Option.some.inj (hGet.symm.trans hSame)
      rw [hBody] at hSameBody
      cases hSameBody
    | link hSame hNone hLinks =>
      obtain rfl := Option.some.inj (hGet.symm.trans hSame)
      obtain rfl := (LinksTo.kept hLookup).unique hLinks
      cases hFits with
      | function hReady => exact .inl hReady

theorem Coherent.settled_of_reaches (h : backend.Coherent image) (hSettled : backend.Settled f)
    (hReaches : backend.Reaches image f g) : backend.Settled g := by
  induction hReaches with
  | refl => exact hSettled
  | tail _ hLeads ih => exact h.settled_of_leads ih hLeads

/-- What is settled and has a body is ready. -/
theorem Coherent.isReady_of_settled (h : backend.Coherent image) (hSettled : backend.Settled f)
    (hGet : image.get? f = some entry) (hBody : entry.body.isSome = true) :
    backend.isReady f = true := by
  rcases hSettled with hReady | ⟨link, hLookup⟩
  · exact hReady
  · obtain ⟨decl, hSame, hNone, -⟩ := h.link hLookup
    obtain rfl := Option.some.inj (hGet.symm.trans hSame)
    rw [hNone] at hBody
    cases hBody

end Backend

end LiveCompiler
