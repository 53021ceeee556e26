import LiveCompiler.Proofs.Program.Improvement

/-!
# Parts of an image that are linked

A part of an image is *enclosed* if it holds all that it leads to, and every declaration in it has
a link (`Enclosed`).  What joins the image later on has no influence on such a part: a definition of
the name of one of its declarations comes too late.

So two backends that were made ready over larger images (`Continues`) have the same code for the
part, and calls of it end up in the same places (`Continues.destination?_eq`).  Both stand in for
each other there (`Continues.standsIn`).
-/

namespace LiveCompiler

open Ir

theorem Ir.Body.Replaces.refl (body : Body) : body.Replaces body :=
  ⟨id, fun _ => id⟩

namespace Backend

variable {backend after later : Backend} {image more larger : Image} {part : FuncId → Prop}
  {f g : FuncId}

/-- A part of an image that holds all that it leads to, and in which every declaration has a
link. -/
structure Enclosed (backend : Backend) (image : Image) (part : FuncId → Prop) : Prop where
  inImage : ∀ {f}, part f → ∃ entry, image.get? f = some entry
  leads : ∀ {f g}, part f → backend.Leads image f g → part g
  linked : ∀ {d decl}, part d → image.get? d = some decl → decl.body = none →
    ∃ link, backend.links.lookup d = some link

/-- A backend over a larger image that has kept all links. -/
structure Continues (backend : Backend) (image : Image) (after : Backend) (more : Image) :
    Prop where
  get : ∀ {f entry}, image.get? f = some entry → more.get? f = some entry
  link : ∀ {d link}, backend.links.lookup d = some link → after.links.lookup d = some link
  coherent : after.Coherent more

theorem Continues.trans (h : backend.Continues image after more)
    (hNext : after.Continues more later larger) : backend.Continues image later larger where
  get hGet := hNext.get (h.get hGet)
  link hLookup := hNext.link (h.link hLookup)
  coherent := hNext.coherent

/-- An entry joins the image. -/
theorem Coherent.continues_push (h : backend.Coherent image) (added : Entry) :
    backend.Continues image backend (image.push added) where
  get hGet := Image.get?_push_of_some hGet added
  link hLookup := hLookup
  coherent := h.push added

/-- Where calls of a function end up as far as it is linked: a function without a link is called
itself. -/
def aim (backend : Backend) (f : FuncId) : CallTarget :=
  match backend.links.lookup f with
  | some link => link.destination
  | none => .code f

/-- Calls of an enclosed part end up inside of it. -/
theorem Enclosed.aim_code (h : backend.Enclosed image part) (hCoherent : backend.Coherent image)
    (hPart : part f) (hAim : backend.aim f = .code g) : part g := by
  unfold aim at hAim
  split at hAim
  · rename_i link hLookup
    obtain ⟨decl, hGet, hBody, -⟩ := hCoherent.link hLookup
    cases link with
    | function target =>
      cases hAim
      exact h.leads hPart (.link hGet hBody (.kept hLookup))
    | host _ => cases hAim
  · cases hAim
    exact hPart

/-- Calls of an enclosed part end up later where they are linked to now. -/
theorem Continues.destination?_eq (h : backend.Continues image after more)
    (hPart : backend.Enclosed image part) (hf : part f) {target : CallTarget}
    (hTarget : after.destination? f = some target) : target = backend.aim f := by
  unfold aim
  split
  · rename_i link hLookup
    have hLink := h.coherent.destination?_of_lookup (h.link hLookup)
    exact Option.some.inj (hTarget.symm.trans hLink)
  · rename_i hUnlinked
    rcases destination?_cases hTarget with ⟨-, rfl⟩ | ⟨link, hLookup, rfl⟩
    · rfl
    -- Only declarations get links, and those of the part have had theirs before.
    · obtain ⟨decl, hMore, hBody, -⟩ := h.coherent.link hLookup
      obtain ⟨entry, hGet⟩ := hPart.inImage hf
      obtain rfl := Option.some.inj (hMore.symm.trans (h.get hGet))
      obtain ⟨found, hFound⟩ := hPart.linked hf hGet hBody
      rw [hUnlinked] at hFound
      cases hFound

/-- The code of a function of a part on two sides. -/
inductive OnBoth (image : Image) (part : FuncId → Prop) (after later : Backend) (code other : Code) :
    Prop
  | intro {f : FuncId} {entry : Entry} {body : Body} (mem : part f)
      (get : image.get? f = some entry) (body_eq : entry.body = some body)
      (fits : after.CodeFits body code) (other_fits : later.CodeFits body other)

theorem Continues.exists_onBoth (h : backend.Continues image after more)
    (hLater : backend.Continues image later larger) (hPart : backend.Enclosed image part)
    (hf : part f) (hReady : after.isReady f = true) (hLaterReady : later.isReady f = true) :
    ∃ code other, after.table.code? f = some code ∧ later.table.code? f = some other ∧
      OnBoth image part after later code other := by
  obtain ⟨entry, hGet⟩ := hPart.inImage hf
  obtain ⟨found, body, code, hFound, hBody, hCode, hFits⟩ := h.coherent.code hReady
  obtain ⟨copy, otherBody, other, hCopy, hOtherBody, hOther, hOtherFits⟩ :=
    hLater.coherent.code hLaterReady
  obtain rfl := Option.some.inj (hFound.symm.trans (h.get hGet))
  obtain rfl := Option.some.inj (hCopy.symm.trans (hLater.get hGet))
  obtain rfl := Option.some.inj (hOtherBody.symm.trans hBody)
  exact ⟨code, other, hCode, hOther, hf, hGet, hBody, hFits, hOtherFits⟩

/-- What two codes call of an enclosed part is the same on both sides. -/
theorem Continues.related (h : backend.Continues image after more)
    (hLater : backend.Continues image later larger) (hPart : backend.Enclosed image part)
    (hCoherent : backend.Coherent image) (hf : part f) {body otherBody : Body} {code other : Code}
    (hFits : after.CodeFits body code) (hMem : f ∈ calleesOf body)
    (hOtherFits : later.CodeFits otherBody other) (hOtherMem : f ∈ calleesOf otherBody) :
    Callee.Related (OnBoth image part after later) (after.table.callee? code f)
      (later.table.callee? other f) := by
  obtain ⟨target, hDestination, hTarget⟩ := hFits.target f hMem
  obtain ⟨otherTarget, hOtherDestination, hOtherTarget⟩ := hOtherFits.target f hOtherMem
  have hAim := h.destination?_eq hPart hf hDestination
  obtain rfl : otherTarget = target := (hLater.destination?_eq hPart hf hOtherDestination).trans
    hAim.symm
  unfold CodeTable.callee?
  rw [hTarget, hOtherTarget]
  cases otherTarget with
  | host host => exact .host host
  | code g =>
    obtain ⟨code, other, hCode, hOther, hBoth⟩ := h.exists_onBoth hLater hPart
      (hPart.aim_code hCoherent hf hAim.symm) (isReady_of_destination? hDestination)
      (isReady_of_destination? hOtherDestination)
    simp only [hCode, hOther, Option.map_some]
    exact .code hBoth

theorem Continues.standsIn (h : backend.Continues image after more)
    (hLater : backend.Continues image later larger) (hPart : backend.Enclosed image part)
    (hCoherent : backend.Coherent image) :
    after.table.StandsIn later.table (OnBoth image part after later) where
  body := by
    rintro code other ⟨-, -, -, hFits, hOtherFits⟩
    rw [hFits.body_eq, hOtherFits.body_eq]
    exact .refl _
  callee := by
    rintro code other ⟨hMem, hGet, hBody, hFits, hOtherFits⟩ g hg
    rw [hOtherFits.body_eq] at hg
    exact h.related hLater hPart hCoherent (hPart.leads hMem (.call hGet hBody hg)) hFits hg
      hOtherFits hg

/-- A call of an enclosed part comes to the same on both sides. -/
theorem Continues.comes (h : backend.Continues image after more)
    (hLater : backend.Continues image later larger) (hPart : backend.Enclosed image part)
    (hCoherent : backend.Coherent image) {body otherBody : Body} {code other : Code} {call : Call}
    {x : Float} {written : List UInt8} (hCall : part call.callee)
    (hFits : after.CodeFits body code) (hMem : call.callee ∈ calleesOf body)
    (hOtherFits : later.CodeFits otherBody other) (hOtherMem : call.callee ∈ calleesOf otherBody)
    (hComes : after.table.Comes code call x written) :
    later.table.Comes other call x written :=
  hComes.standsIn (h.standsIn hLater hPart hCoherent)
    (h.related hLater hPart hCoherent hCall hFits hMem hOtherFits hOtherMem)

/-! ## Single calls -/

/-- A call of a function with a body ends up in its code. -/
theorem Coherent.callee?_of_body (h : backend.Coherent image) {body inner : Body} {code : Code}
    (hFits : backend.CodeFits body code) {f : FuncId} (hMem : f ∈ calleesOf body) {entry : Entry}
    (hGet : image.get? f = some entry) (hBody : entry.body = some inner) :
    ∃ callee, backend.table.callee? code f = some (.code callee) ∧
      backend.CodeFits inner callee := by
  obtain ⟨target, hDestination, hTarget⟩ := hFits.target f hMem
  rcases destination?_cases hDestination with ⟨hReady, rfl⟩ | ⟨link, hLookup, -⟩
  · obtain ⟨found, own, callee, hFound, hOwn, hCode, hCallee⟩ := h.code hReady
    obtain rfl := Option.some.inj (hGet.symm.trans hFound)
    obtain rfl := Option.some.inj (hBody.symm.trans hOwn)
    refine ⟨callee, ?_, hCallee⟩
    unfold CodeTable.callee?
    rw [hTarget]
    simp only [hCode, Option.map_some]
  · obtain ⟨decl, hDecl, hNone, -⟩ := h.link hLookup
    obtain rfl := Option.some.inj (hGet.symm.trans hDecl)
    rw [hBody] at hNone
    cases hNone

/-- A declaration that is linked to a host function leads nowhere. -/
theorem Coherent.eq_of_reaches_host (h : backend.Coherent image) {d g : FuncId}
    {host : HostFunction} (hLookup : backend.links.lookup d = some (.host host))
    (hReaches : backend.Reaches image d g) : d = g := by
  obtain ⟨decl, hGet, hBody, -⟩ := h.link hLookup
  rcases hReaches.cases_head with hSame | ⟨next, hLeads, -⟩
  · exact hSame
  cases hLeads with
  | call hEntry hSome =>
    obtain rfl := Option.some.inj (hGet.symm.trans hEntry)
    rw [hBody] at hSome
    cases hSome
  | link hEntry _ hLinks => cases (LinksTo.kept hLookup).unique hLinks

end Backend

end LiveCompiler
