import LiveCompiler.Proofs.Pass.Substitution
import LiveCompiler.Proofs.Program.Evaluation
import LiveCompiler.Proofs.Program.Ready

/-!
# Images with improved bodies

The functions of an *improved* image have bodies that can take the place of the bodies in another
image: they return the same under the same logs, but may call less (`Image.Improves`).  Then a
function reaches less, and the same symbol need not be missing: a declaration that only the other
body calls is neither looked for nor linked.

This makes a difference later on.  The declaration may be reached by another function when there is
a new definition of its name, and is then linked to another function than on the side where it was
reached before.  It makes none as long as links are *current* (`Current`): each declaration that
has a link would get the same link now.  Then a request that succeeds does so with improved bodies
(`Within.makeReady`), with fewer functions ready and fewer links, and what the function gives is the
same (`Within.invoke`).
-/

namespace LiveCompiler

open Ir

/-! ## Images -/

/-- An entry that can take the place of another one. -/
structure Entry.Improves (entry better : Entry) : Prop where
  name_eq : better.name = entry.name
  arity_eq : better.arity = entry.arity
  kind_eq : better.kind = entry.kind
  body : Option.Rel (fun body betterBody => betterBody.Replaces body) entry.body better.body

/-- An image whose entries can take the places of those of another one. -/
structure Image.Improves (image better : Image) : Prop where
  size_eq : better.size = image.size
  entry : ∀ {f entry}, image.get? f = some entry →
    ∃ other, better.get? f = some other ∧ entry.Improves other

namespace Image

variable {image better : Image} {f : FuncId}

theorem Improves.exists_of_get? (h : image.Improves better) {other : Entry}
    (hOther : better.get? f = some other) :
    ∃ entry, image.get? f = some entry ∧ entry.Improves other := by
  have hLt : f < image.size := h.size_eq ▸ lt_size_of_get? hOther
  obtain ⟨found, hFound, hImproves⟩ := h.entry (List.getElem?_eq_getElem hLt)
  obtain rfl := Option.some.inj (hFound.symm.trans hOther)
  exact ⟨_, List.getElem?_eq_getElem hLt, hImproves⟩

theorem improves_empty : empty.Improves empty where
  size_eq := rfl
  entry hGet := by cases hGet

theorem Improves.push (h : image.Improves better) {entry other : Entry}
    (hImproves : entry.Improves other) : (image.push entry).Improves (better.push other) where
  size_eq := by rw [size_push, size_push, h.size_eq]
  entry := by
    intro f found hGet
    rcases get?_push_cases hGet with hOld | ⟨rfl, rfl⟩
    · obtain ⟨copy, hCopy, hSame⟩ := h.entry hOld
      refine ⟨copy, ?_, hSame⟩
      rw [better.get?_push_of_lt other (lt_size_of_get? hCopy)]
      exact hCopy
    · refine ⟨other, ?_, hImproves⟩
      rw [show image.next = better.next from h.size_eq.symm]
      exact better.get?_push_next other

/-- Definitions are at the same positions. -/
theorem Improves.defines_iff (h : image.Improves better) {name : String} {arity : Nat} :
    better.Defines name arity f ↔ image.Defines name arity f := by
  constructor
  · rintro ⟨other, hOther, hKind, hName, hArity⟩
    obtain ⟨entry, hGet, hSame⟩ := h.exists_of_get? hOther
    exact ⟨entry, hGet, hSame.kind_eq.symm.trans hKind, hSame.name_eq.symm.trans hName,
      hSame.arity_eq.symm.trans hArity⟩
  · rintro ⟨entry, hGet, hKind, hName, hArity⟩
    obtain ⟨other, hOther, hSame⟩ := h.entry hGet
    exact ⟨other, hOther, hSame.kind_eq.trans hKind, hSame.name_eq.trans hName,
      hSame.arity_eq.trans hArity⟩

/-- Declarations are offered the same. -/
theorem Improves.offers (h : image.Improves better) {decl other : Entry} {link : Link}
    (hSame : decl.Improves other) (hOffers : better.Offers other link) :
    image.Offers decl link := by
  obtain ⟨hName, hArity, -, -⟩ := hSame
  cases hOffers with
  | function hLatest =>
    rw [hName, hArity] at hLatest
    exact .function ⟨h.defines_iff.mp hLatest.1, fun g hg => hLatest.2 g (h.defines_iff.mpr hg)⟩
  | host hUndefined hHostName hHostArity =>
    rw [hName, hArity] at hUndefined
    exact .host (fun g hg => hUndefined g (h.defines_iff.mpr hg)) (hHostName.trans hName)
      (hHostArity.trans hArity)

end Image

theorem Entry.Improves.body_eq_none_iff {entry other : Entry} (h : entry.Improves other) :
    entry.body = none ↔ other.body = none := by
  have hRel := h.body
  generalize entry.body = body at hRel
  generalize other.body = betterBody at hRel
  cases hRel with
  | some _ => exact iff_of_false nofun nofun
  | none => exact Iff.rfl

/-- A body of the improved entry takes the place of a body. -/
theorem Entry.Improves.exists_body {entry other : Entry} (h : entry.Improves other)
    {betterBody : Body} (hBody : other.body = some betterBody) :
    ∃ body, entry.body = some body ∧ betterBody.Replaces body := by
  have hRel := h.body
  rw [hBody] at hRel
  generalize entry.body = found at hRel
  cases hRel with
  | some hReplaces => exact ⟨_, rfl, hReplaces⟩

theorem Image.Defines.push {image : Image} {name : String} {arity : Nat} {f : FuncId}
    (h : image.Defines name arity f) (added : Entry) :
    (image.push added).Defines name arity f := by
  obtain ⟨entry, hGet, hDefines⟩ := h
  exact ⟨entry, get?_push_of_some hGet added, hDefines⟩

namespace Backend

variable {backend less after : Backend} {image better : Image} {f g d : FuncId} {entry : Entry}
  {body : Body} {link : Link}

/-! ## Links that are current -/

/-- Each declaration that has a link would get the same link now. -/
def Current (backend : Backend) (image : Image) : Prop :=
  ∀ ⦃d link⦄, backend.links.lookup d = some link →
    ∃ decl, image.get? d = some decl ∧ image.Offers decl link

theorem current_iff : backend.Current image ↔ ∀ entry ∈ backend.links,
    backend.links.lookup entry.1 = some entry.2 →
      (image.get? entry.1).any (fun decl => chooseLink image decl = .ok entry.2) = true := by
  simp only [Current, Option.any_eq_true, decide_eq_true_eq, Image.chooseLink_eq_ok_iff]
  exact ⟨fun h entry _ hLookup => h hLookup, fun h d link hLookup =>
    h (d, link) (mem_of_lookup hLookup) hLookup⟩

instance : Decidable (backend.Current image) :=
  decidable_of_iff _ current_iff.symm

theorem Current.offers (h : backend.Current image) (hLookup : backend.links.lookup d = some link)
    (hGet : image.get? d = some entry) : image.Offers entry link := by
  obtain ⟨decl, hDecl, hOffers⟩ := h hLookup
  obtain rfl := Option.some.inj (hGet.symm.trans hDecl)
  exact hOffers

/-- Links that are current now were current before an entry joined the image: what they lead to
was there. -/
theorem Current.of_push {added : Entry} (hCoherent : backend.Coherent image)
    (h : backend.Current (image.push added)) : backend.Current image := by
  intro d link hLookup
  obtain ⟨decl, hGet, -, hFits⟩ := hCoherent.link hLookup
  have hOffers := h.offers hLookup (Image.get?_push_of_some hGet added)
  refine ⟨decl, hGet, ?_⟩
  cases hOffers with
  | @function target hLatest =>
    cases hFits with
    | @function _ entry _ hTarget =>
      obtain ⟨found, hFound, hDefines⟩ := hLatest.1
      rw [Image.get?_push_of_some hTarget added] at hFound
      obtain rfl := Option.some.inj hFound
      exact .function ⟨⟨entry, hTarget, hDefines⟩, fun g hg => hLatest.2 g (hg.push added)⟩
  | host hUndefined hName hArity =>
    exact .host (fun g hg => hUndefined g (hg.push added)) hName hArity

/-- Links that are current when some were added were current before. -/
theorem Current.of_kept (hKept : ∀ d link, backend.links.lookup d = some link →
    after.links.lookup d = some link) (h : after.Current image) : backend.Current image :=
  fun _ _ hLookup => h (hKept _ _ hLookup)

/-- A request keeps the links that there are. -/
theorem links_makeReady (hRegular : image.Regular) (hCoherent : backend.Coherent image)
    (hGet : image.get? f = some entry) (hBody : entry.body = some body)
    (hLookup : backend.links.lookup d = some link) :
    (backend.makeReady image f).2.links.lookup d = some link := by
  rcases makeReady_ends hRegular hCoherent hGet hBody with
    ⟨after, hMake, -, hMade, -⟩ | ⟨_, _, -, -, hMake⟩ | ⟨_, -, -, hMake⟩ <;> rw [hMake]
  · exact hMade.links_kept d link hLookup
  · exact hLookup
  · exact hLookup

/-! ## What is reached with improved bodies -/

/-- A backend with no more functions ready, and no other links, than another one. -/
structure Within (less backend : Backend) : Prop where
  ready : ∀ {f}, less.isReady f = true → backend.isReady f = true
  links : ∀ {d link}, less.links.lookup d = some link → backend.links.lookup d = some link

theorem Within.linksTo (h : less.Within backend) (hImage : image.Improves better)
    (hCurrent : backend.Current image) {other : Entry} (hGet : image.get? d = some entry)
    (hSame : entry.Improves other) (hLinks : less.LinksTo better d other link) :
    backend.LinksTo image d entry link := by
  cases hLinks with
  | kept hLookup => exact .kept (h.links hLookup)
  | new _ hOffers =>
    have hOffered := hImage.offers hSame hOffers
    cases hLookup : backend.links.lookup d with
    | none => exact .new hLookup hOffered
    -- The declaration is linked on the plain side already; the link is the one that is offered
    -- now because it is current.
    | some found =>
      rw [(hCurrent.offers hLookup hGet).unique hOffered] at hLookup
      exact .kept hLookup

/-- With improved bodies no function leads to more. -/
theorem Within.leads (h : less.Within backend) (hImage : image.Improves better)
    (hCurrent : backend.Current image) (hLeads : less.Leads better f g) :
    backend.Leads image f g := by
  cases hLeads with
  | call hOther hBody hMem =>
    obtain ⟨entry, hGet, hSame⟩ := hImage.exists_of_get? hOther
    obtain ⟨body, hOwn, hReplaces⟩ := hSame.exists_body hBody
    exact .call hGet hOwn (hReplaces.calleesOf g hMem)
  | link hOther hBody hLinks =>
    obtain ⟨entry, hGet, hSame⟩ := hImage.exists_of_get? hOther
    exact .link hGet (hSame.body_eq_none_iff.mpr hBody)
      (h.linksTo hImage hCurrent hGet hSame hLinks)

theorem Within.reaches (h : less.Within backend) (hImage : image.Improves better)
    (hCurrent : backend.Current image) (hReaches : less.Reaches better f g) :
    backend.Reaches image f g :=
  Relation.ReflTransGen.mono (fun _ _ hLeads => h.leads hImage hCurrent hLeads) _ _ hReaches

/-- With improved bodies no other symbol is missing. -/
theorem Current.unresolvable (h : backend.Current image) (hImage : image.Improves better)
    {other : Entry} (hMissing : less.Unresolvable better d other) :
    ∃ decl, backend.Unresolvable image d decl := by
  obtain ⟨hOther, hBody, -, hUndefined, hHostless⟩ := hMissing
  obtain ⟨decl, hGet, hSame⟩ := hImage.exists_of_get? hOther
  rw [hSame.name_eq, hSame.arity_eq] at hUndefined hHostless
  have hNone : ∀ g, ¬ image.Defines decl.name decl.arity g := fun g hg =>
    hUndefined g (hImage.defines_iff.mpr hg)
  refine ⟨decl, hGet, hSame.body_eq_none_iff.mpr hBody, ?_, hNone, hHostless⟩
  refine Option.eq_none_iff_forall_ne_some.mpr fun link hLookup => ?_
  cases h.offers hLookup hGet with
  | function hLatest => exact hNone _ hLatest.1
  | host _ hName hArity => exact hHostless _ ⟨hName, hArity⟩

/-! ## Requests -/

/-- A function that was made ready with links that are current is within what was made ready. -/
theorem Within.madeReady (h : less.Within backend) (hImage : image.Improves better)
    (hCurrent : backend.Current image) {lessAfter : Backend}
    (hMade : backend.MadeReady image f after) (hLess : less.MadeReady better f lessAfter) :
    lessAfter.Within after where
  ready := by
    intro g hReady
    rcases (hLess.isReady_iff g).mp hReady with hOld | ⟨hReaches, other, hOther, hBody⟩
    · exact (hMade.isReady_iff g).mpr (.inl (h.ready hOld))
    · obtain ⟨entry, hGet, hSame⟩ := hImage.exists_of_get? hOther
      obtain ⟨betterBody, hBetter⟩ := Option.isSome_iff_exists.mp hBody
      obtain ⟨body, hOwn, -⟩ := hSame.exists_body hBetter
      exact (hMade.isReady_iff g).mpr
        (.inr ⟨h.reaches hImage hCurrent hReaches, entry, hGet, by rw [hOwn]; rfl⟩)
  links := by
    intro d link hLookup
    cases hOld : less.links.lookup d with
    | some found =>
      obtain rfl : found = link :=
        Option.some.inj ((hLess.links_kept d found hOld).symm.trans hLookup)
      exact hMade.links_kept d found (h.links hOld)
    | none =>
      obtain ⟨hReaches, other, hOther, hBody, hOffers⟩ := (hLess.links_new d link hOld).mp hLookup
      obtain ⟨decl, hGet, hSame⟩ := hImage.exists_of_get? hOther
      have hLinks := h.linksTo hImage hCurrent hGet hSame (.new hOld hOffers)
      cases hLinks with
      | kept hRecorded => exact hMade.links_kept d link hRecorded
      | new hNone hOffered =>
        exact (hMade.links_new d link hNone).mpr ⟨h.reaches hImage hCurrent hReaches, decl, hGet,
          hSame.body_eq_none_iff.mpr hBody, hOffered⟩

/-- A request that succeeds does so with improved bodies. -/
theorem Within.makeReady (h : less.Within backend) (hImage : image.Improves better)
    (hCurrent : backend.Current image) (hSound : image.Sound) (hBetter : better.Sound)
    (hCoherent : backend.Coherent image) (hLess : less.Coherent better)
    (hGet : image.get? f = some entry) (hBody : entry.body = some body)
    (hMake : backend.makeReady image f = (.ok { func := f }, after)) :
    ∃ lessAfter, less.makeReady better f = (.ok { func := f }, lessAfter) ∧
      lessAfter.Within after ∧ lessAfter.Coherent better ∧ lessAfter.isReady f = true := by
  obtain ⟨hMade, hResolved⟩ : backend.MadeReady image f after ∧
      ∀ d decl, backend.Reaches image f d → ¬ backend.Unresolvable image d decl := by
    rcases makeReady_ends hSound.toRegular hCoherent hGet hBody with
      ⟨found, hFound, -, hMade, hResolved⟩ | ⟨_, _, -, -, hError⟩ | ⟨_, -, -, hError⟩
    · obtain ⟨-, rfl⟩ := Prod.mk.inj (hFound.symm.trans hMake)
      exact ⟨hMade, hResolved⟩
    · cases hError.symm.trans hMake
    · cases hError.symm.trans hMake
  obtain ⟨other, hOther, hSame⟩ := hImage.entry hGet
  obtain ⟨betterBody, hBetterBody⟩ : ∃ betterBody, other.body = some betterBody := by
    refine Option.ne_none_iff_exists'.mp fun hNone => ?_
    rw [hSame.body_eq_none_iff.mpr hNone] at hBody
    cases hBody
  -- Whatever stops the request on the improved side is reached on the plain side, too.
  rcases makeReady_ends hBetter.toRegular hLess hOther hBetterBody with
    ⟨lessAfter, hLessMake, hAfter, hLessMade, -⟩ | ⟨d, decl, hReaches, hMissing, -⟩ |
      ⟨g, hReaches, hNone, -⟩
  · refine ⟨lessAfter, hLessMake, h.madeReady hImage hCurrent hMade hLessMade, hAfter, ?_⟩
    exact (hLessMade.isReady_iff f).mpr (.inr ⟨.refl, other, hOther, by rw [hBetterBody]; rfl⟩)
  · obtain ⟨found, hFound⟩ := hCurrent.unresolvable hImage hMissing
    exact absurd hFound (hResolved d found (h.reaches hImage hCurrent hReaches))
  · obtain ⟨found, hFound⟩ := hLess.get?_of_reaches hBetter hOther hReaches
    rw [hNone] at hFound
    cases hFound

/-! ## Runs -/

theorem destination?_cases {target : CallTarget} (h : backend.destination? f = some target) :
    backend.isReady f = true ∧ target = .code f ∨
      ∃ link, backend.links.lookup f = some link ∧ target = link.destination := by
  unfold destination? at h
  split at h
  · rename_i hReady
    exact .inl ⟨hReady, (Option.some.inj h).symm⟩
  · cases hLookup : backend.links.lookup f with
    | none =>
      rw [hLookup] at h
      cases h
    | some link =>
      rw [hLookup] at h
      refine .inr ⟨link, rfl, ?_⟩
      cases link with
      | host host => exact (Option.some.inj h).symm
      | function t =>
        dsimp only at h
        split at h
        · exact (Option.some.inj h).symm
        · cases h

/-- Where it is settled for both, calls end up at the same place. -/
theorem Within.destination? (h : less.Within backend) (hCoherent : backend.Coherent image)
    {target : CallTarget} (hTarget : less.destination? f = some target) :
    backend.destination? f = some target := by
  rcases destination?_cases hTarget with ⟨hReady, rfl⟩ | ⟨link, hLookup, rfl⟩
  · exact destination?_of_isReady (h.ready hReady)
  · exact hCoherent.destination?_of_lookup (h.links hLookup)

/-- The code of a function on both sides. -/
structure CodeOnBoth (backend less : Backend) (g : FuncId) (code other : Code) : Prop where
  ready : less.isReady g = true
  code_eq : backend.table.code? g = some code
  other_eq : less.table.code? g = some other
  bodies : ∃ body betterBody, betterBody.Replaces body ∧ backend.CodeFits body code ∧
    less.CodeFits betterBody other

theorem Within.exists_codeOnBoth (h : less.Within backend) (hImage : image.Improves better)
    (hCoherent : backend.Coherent image) (hLess : less.Coherent better)
    (hReady : less.isReady g = true) :
    ∃ code other, CodeOnBoth backend less g code other := by
  obtain ⟨entry, body, code, hGet, hBody, hCode, hFits⟩ := hCoherent.code (h.ready hReady)
  obtain ⟨copy, betterBody, other, hCopy, hBetter, hOther, hOtherFits⟩ := hLess.code hReady
  obtain ⟨found, hFound, hSame⟩ := hImage.entry hGet
  obtain rfl := Option.some.inj (hFound.symm.trans hCopy)
  obtain ⟨own, hOwn, hReplaces⟩ := hSame.exists_body hBetter
  obtain rfl := Option.some.inj (hOwn.symm.trans hBody)
  exact ⟨code, other, hReady, hCode, hOther, own, betterBody, hReplaces, hFits, hOtherFits⟩

theorem Within.standsIn (h : less.Within backend) (hImage : image.Improves better)
    (hCoherent : backend.Coherent image) (hLess : less.Coherent better) :
    backend.table.StandsIn less.table fun code other =>
      ∃ g, CodeOnBoth backend less g code other where
  body := by
    rintro code other ⟨g, -, -, -, body, betterBody, hReplaces, hFits, hOtherFits⟩
    rw [hFits.body_eq, hOtherFits.body_eq]
    exact hReplaces
  callee := by
    rintro code other ⟨g, -, -, -, body, betterBody, hReplaces, hFits, hOtherFits⟩ f hf
    rw [hOtherFits.body_eq] at hf
    obtain ⟨target, hDestination, hOtherTarget⟩ := hOtherFits.target f hf
    obtain ⟨found, hFound, hTarget⟩ := hFits.target f (hReplaces.calleesOf f hf)
    obtain rfl := Option.some.inj (hFound.symm.trans (h.destination? hCoherent hDestination))
    unfold CodeTable.callee?
    rw [hTarget, hOtherTarget]
    cases found with
    | host host => exact .host host
    | code t =>
      obtain ⟨next, otherNext, hNext⟩ := h.exists_codeOnBoth hImage hCoherent hLess
        (isReady_of_destination? hDestination)
      simp only [hNext.code_eq, hNext.other_eq, Option.map_some]
      exact .code ⟨t, hNext⟩

theorem Coherent.arity_code (h : backend.Coherent image) (hRegular : image.Regular)
    (hReady : backend.isReady f = true) (hGet : image.get? f = some entry) {code : Code}
    (hCode : backend.table.code? f = some code) : code.body.arity = entry.arity := by
  obtain ⟨body, hBody⟩ := Option.isSome_iff_exists.mp (h.body_of_isReady hReady hGet)
  rw [(h.codeFits hReady hGet hBody hCode).body_eq]
  exact (hRegular.fits hGet hBody).arity_eq

/-- What comes to a value comes to the same with improved bodies, under any limit from some bound
on. -/
theorem Within.invoke (h : less.Within backend) (hImage : image.Improves better)
    (hCoherent : backend.Coherent image) (hLess : less.Coherent better)
    (hRegular : image.Regular) (hBetter : better.Regular) (hReady : less.isReady f = true)
    (hGet : image.get? f = some entry) (hArity : entry.arity = 0) {limit : Nat} {x : Float}
    (hResult : (backend.invoke limit { func := f }).result = .ok (.value x)) :
    ∃ bound, ∀ more, bound ≤ more →
      less.invoke more { func := f } = backend.invoke limit { func := f } := by
  obtain ⟨code, other, hBoth⟩ := h.exists_codeOnBoth hImage hCoherent hLess hReady
  obtain ⟨copy, hCopy, hSame⟩ := hImage.entry hGet
  have hZero : code.body.arity = 0 :=
    (hCoherent.arity_code hRegular (h.ready hReady) hGet hBoth.code_eq).trans hArity
  have hOtherZero : other.body.arity = 0 :=
    (hLess.arity_code hBetter hReady hCopy hBoth.other_eq).trans (hSame.arity_eq.trans hArity)
  rw [invoke_of_code (h.ready hReady) hBoth.code_eq hZero] at hResult ⊢
  have hEnd : (Machine.run backend.table limit (.start code)).1 = .value x :=
    Except.ok.inj hResult
  -- The machines do not run in step, as improved bodies take fewer steps: what counts is the
  -- value and the log of calls.
  have hGives := Machine.gives_of_run (Prod.ext hEnd rfl)
  obtain ⟨bound, hRun⟩ :=
    (hGives.standsIn (h.standsIn hImage hCoherent hLess) ⟨f, hBoth⟩).run
  refine ⟨bound, fun more hMore => ?_⟩
  rw [invoke_of_code hReady hBoth.other_eq hOtherZero, hRun more hMore, hEnd]

end Backend

end LiveCompiler
