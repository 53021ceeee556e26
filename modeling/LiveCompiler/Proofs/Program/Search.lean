import LiveCompiler.Proofs.Program.Coherent
import Mathlib.Algebra.Order.BigOperators.Group.Finset

/-!
# What the search for a batch finds

The search keeps a list of functions to look at.  Every function that it has looked at and
that is not ready has all that it leads to among the functions seen or to look at
(`Explores`); the batch holds their bodies and the links that are new.  Looking at a function
that was not seen before adds as many functions as it leads to, so the bound of the search is
never used up (`ends_searchFrom`).

Behind functions that are ready nothing is looked at; there all is settled.  So a search that
ends without an error has found all bodies that its root reaches and that are not ready
(`Explores.finds`).
-/

namespace LiveCompiler

open Ir

/-- The functions that a link leads to. -/
def Link.next : Link → List FuncId
  | function target => [target]
  | host _ => []

namespace Backend

variable {backend : Backend} {image : Image} {f g root : FuncId} {entry : Entry}
  {s s' : BatchSearch}

/-! ## What one function adds -/

/-- Whether a function of the image has a body. -/
def HasBody (image : Image) (f : FuncId) : Prop :=
  ∃ entry, image.get? f = some entry ∧ entry.body.isSome = true

/-- A declaration without a link, and what it can be linked to. -/
def NewLink (backend : Backend) (image : Image) (f : FuncId) (link : Link) : Prop :=
  backend.links.lookup f = none ∧
    ∃ decl, image.get? f = some decl ∧ decl.body = none ∧ image.Offers decl link

/-- A function of the image that has a body or is linked to something. -/
def Resolved (backend : Backend) (image : Image) (f : FuncId) : Prop :=
  ∃ entry, image.get? f = some entry ∧
    (entry.body = none → ∃ link, backend.LinksTo image f entry link)

theorem Resolved.not_unresolvable (h : backend.Resolved image f) (decl : Entry) :
    ¬ backend.Unresolvable image f decl := by
  intro hDecl
  obtain ⟨entry, hGet, hLinks⟩ := h
  obtain rfl := Option.some.inj (hGet.symm.trans hDecl.get)
  obtain ⟨link, hLinks⟩ := hLinks hDecl.body_eq
  exact hDecl.not_linksTo hLinks

/-- How many functions a function of the image leads to. -/
def followAt (image : Image) (f : FuncId) : Nat :=
  match image.get? f with
  | some entry => followCount entry
  | none => 0

/-- What looking at a function adds to a search: functions to look at next, bodies, links. -/
structure Adds (backend : Backend) (image : Image) (f : FuncId) (next bodies : List FuncId)
    (links : List (FuncId × Link)) : Prop where
  leads_iff : ∀ g, backend.Leads image f g ↔ g ∈ next
  length_le : next.length ≤ followAt image f
  mem_bodies : ∀ g, g ∈ bodies ↔ g = f ∧ HasBody image f
  bodies_nodup : bodies.Nodup
  lookup_links : ∀ g link, links.lookup g = some link ↔ g = f ∧ backend.NewLink image f link
  resolved : backend.Resolved image f

theorem adds_body {body : Body} (hGet : image.get? f = some entry)
    (hBody : entry.body = some body) :
    backend.Adds image f (calleesOf body).reverse [f] [] where
  leads_iff g := by
    rw [List.mem_reverse]
    constructor
    · intro hLeads
      cases hLeads with
      | call hSame hSameBody hMem =>
        obtain rfl := Option.some.inj (hGet.symm.trans hSame)
        obtain rfl := Option.some.inj (hBody.symm.trans hSameBody)
        exact hMem
      | link hSame hNone =>
        obtain rfl := Option.some.inj (hGet.symm.trans hSame)
        rw [hBody] at hNone
        cases hNone
    · exact .call hGet hBody
  length_le := by simp [followAt, hGet, followCount, hBody]
  mem_bodies g := by
    rw [List.mem_singleton]
    exact ⟨fun h => ⟨h, entry, hGet, by rw [hBody]; rfl⟩, And.left⟩
  bodies_nodup := List.nodup_singleton f
  lookup_links g link := by
    constructor
    · intro h
      cases h
    · rintro ⟨-, -, decl, hSame, hNone, -⟩
      obtain rfl := Option.some.inj (hGet.symm.trans hSame)
      rw [hBody] at hNone
      cases hNone
  resolved := ⟨entry, hGet, fun hNone => by
    rw [hBody] at hNone
    cases hNone⟩

theorem adds_link {link : Link} {links : List (FuncId × Link)} (hGet : image.get? f = some entry)
    (hBody : entry.body = none) (hLinks : backend.LinksTo image f entry link)
    (hNew : ∀ g other, links.lookup g = some other ↔ g = f ∧ backend.NewLink image f other) :
    backend.Adds image f link.next [] links where
  leads_iff g := by
    constructor
    · intro hLeads
      cases hLeads with
      | call hSame hSameBody =>
        obtain rfl := Option.some.inj (hGet.symm.trans hSame)
        rw [hBody] at hSameBody
        cases hSameBody
      | link hSame _ hOther =>
        obtain rfl := Option.some.inj (hGet.symm.trans hSame)
        obtain rfl := hLinks.unique hOther
        exact List.mem_singleton_self g
    · intro hMem
      cases link with
      | function target =>
        obtain rfl := List.mem_singleton.mp hMem
        exact .link hGet hBody hLinks
      | host h => cases hMem
  length_le := by
    cases link <;> simp [followAt, hGet, followCount, hBody, Link.next]
  mem_bodies g := by
    constructor
    · intro h
      cases h
    · rintro ⟨-, other, hSame, hSome⟩
      obtain rfl := Option.some.inj (hGet.symm.trans hSame)
      rw [hBody] at hSome
      cases hSome
  bodies_nodup := List.nodup_nil
  lookup_links := hNew
  resolved := ⟨entry, hGet, fun _ => ⟨link, hLinks⟩⟩

/-- Looking at a function adds what it leads to, unless it is not in the image or is a
declaration that nothing can stand for. -/
theorem searchEntry_cases (backend : Backend) (image : Image) (f : FuncId) (s : BatchSearch) :
    (∃ next bodies links, backend.Adds image f next bodies links ∧
      backend.searchEntry image f s = .ok
        { work := next ++ s.work
          seen := s.seen
          batch := { bodies := s.batch.bodies ++ bodies, links := s.batch.links ++ links } }) ∨
    (image.get? f = none ∧ backend.searchEntry image f s = .error (.invalid (.notInImage f))) ∨
    ∃ decl, backend.Unresolvable image f decl ∧
      backend.searchEntry image f s = .error (.unresolvedSymbol decl.name decl.arity) := by
  cases hGet : image.get? f with
  | none => exact .inr (.inl ⟨rfl, by simp only [searchEntry, hGet]⟩)
  | some entry =>
    cases hBody : entry.body with
    | some body =>
      refine .inl ⟨_, _, _, adds_body hGet hBody, ?_⟩
      simp only [searchEntry, hGet, hBody, List.append_nil]
    | none =>
      cases hLookup : backend.links.lookup f with
      | some link =>
        refine .inl ⟨link.next, [], [], adds_link hGet hBody (.kept hLookup) fun g other => ?_, ?_⟩
        · constructor
          · intro h
            cases h
          · rintro ⟨-, hNone, -⟩
            rw [hLookup] at hNone
            cases hNone
        · cases link <;> simp [searchEntry, hGet, hBody, hLookup, Link.next]
      | none =>
        cases hChoose : chooseLink image entry with
        | ok link =>
          have hOffers := Image.offers_of_chooseLink hChoose
          refine .inl ⟨link.next, [], [(f, link)],
            adds_link hGet hBody (.new hLookup hOffers) fun g other => ?_, ?_⟩
          · rw [List.lookup_cons, List.lookup_nil]
            constructor
            · intro h
              split at h
              · rename_i hSame
                obtain rfl := Option.some.inj h
                exact ⟨eq_of_beq hSame, hLookup, entry, hGet, hBody, hOffers⟩
              · cases h
            -- The image offers at most one link for a declaration.
            · rintro ⟨rfl, -, decl, hSame, -, hOther⟩
              obtain rfl := Option.some.inj (hGet.symm.trans hSame)
              simp [hOffers.unique hOther]
          · cases link <;>
              simp [searchEntry, hGet, hBody, hLookup, hChoose, Link.next, bind, Except.bind]
        | error e =>
          obtain ⟨rfl, hUndefined, hHostless⟩ := Image.not_defined_of_chooseLink hChoose
          refine .inr (.inr ⟨entry, ⟨hGet, hBody, hLookup, hUndefined, hHostless⟩, ?_⟩)
          simp only [searchEntry, hGet, hBody, hLookup, hChoose, bind, Except.bind]

/-! ## The invariant of the search -/

/-- What a search from a root knows: what it has met is reached by the root, what it has seen
is either ready or followed, and the batch holds the bodies and new links among what it has
seen. -/
structure Explores (backend : Backend) (image : Image) (root : FuncId) (s : BatchSearch) :
    Prop where
  root_met : root ∈ s.seen ∨ root ∈ s.work
  work_reached : ∀ g ∈ s.work, backend.Reaches image root g
  seen_reached : ∀ g ∈ s.seen, backend.Reaches image root g
  followed : ∀ f ∈ s.seen, backend.isReady f = false → ∀ g, backend.Leads image f g →
    g ∈ s.seen ∨ g ∈ s.work
  mem_bodies : ∀ g, g ∈ s.batch.bodies ↔
    g ∈ s.seen ∧ backend.isReady g = false ∧ HasBody image g
  bodies_nodup : s.batch.bodies.Nodup
  lookup_links : ∀ g link, s.batch.links.lookup g = some link ↔
    g ∈ s.seen ∧ backend.isReady g = false ∧ backend.NewLink image g link
  resolved : ∀ f ∈ s.seen, backend.isReady f = false → backend.Resolved image f

theorem explores_start (backend : Backend) (image : Image) (root : FuncId) :
    backend.Explores image root
      { work := [root], seen := [], batch := { bodies := [], links := [] } } where
  root_met := .inr (List.mem_singleton_self root)
  work_reached g hg := List.mem_singleton.mp hg ▸ .refl
  seen_reached g hg := by cases hg
  followed f hf := by cases hf
  mem_bodies g := by simp
  bodies_nodup := List.nodup_nil
  lookup_links g link := by simp
  resolved f hf := by cases hf

section Steps

variable {rest : List FuncId} {seen : List FuncId} {batch : Batch}

/-- A function that was seen before is passed over. -/
theorem Explores.pass (h : backend.Explores image root ⟨f :: rest, seen, batch⟩)
    (hSeen : f ∈ seen) : backend.Explores image root ⟨rest, seen, batch⟩ where
  root_met := by
    rcases h.root_met with hMet | hMet
    · exact .inl hMet
    · rcases List.mem_cons.mp hMet with rfl | hMet
      · exact .inl hSeen
      · exact .inr hMet
  work_reached g hg := h.work_reached g (List.mem_cons_of_mem f hg)
  seen_reached := h.seen_reached
  followed := by
    intro p hp hUnready g hLeads
    rcases h.followed p hp hUnready g hLeads with hMet | hMet
    · exact .inl hMet
    · rcases List.mem_cons.mp hMet with rfl | hMet
      · exact .inl hSeen
      · exact .inr hMet
  mem_bodies := h.mem_bodies
  bodies_nodup := h.bodies_nodup
  lookup_links := h.lookup_links
  resolved := h.resolved

/-- What was met stays met when a function moves from the work to what is seen. -/
theorem met_of_met (next : List FuncId) (h : g ∈ seen ∨ g ∈ f :: rest) :
    g ∈ f :: seen ∨ g ∈ next ++ rest := by
  rcases h with hMet | hMet
  · exact .inl (List.mem_cons_of_mem f hMet)
  · rcases List.mem_cons.mp hMet with rfl | hMet
    · exact .inl List.mem_cons_self
    · exact .inr (List.mem_append_right next hMet)

/-- A function that is ready is not followed. -/
theorem Explores.stop (h : backend.Explores image root ⟨f :: rest, seen, batch⟩)
    (hReady : backend.isReady f = true) :
    backend.Explores image root ⟨rest, f :: seen, batch⟩ where
  root_met := met_of_met [] h.root_met
  work_reached g hg := h.work_reached g (List.mem_cons_of_mem f hg)
  seen_reached g hg := by
    rcases List.mem_cons.mp hg with rfl | hg
    · exact h.work_reached g List.mem_cons_self
    · exact h.seen_reached g hg
  followed := by
    intro p hp hUnready g hLeads
    rcases List.mem_cons.mp hp with rfl | hp
    · rw [hReady] at hUnready
      cases hUnready
    · exact met_of_met [] (h.followed p hp hUnready g hLeads)
  mem_bodies g := by
    rw [h.mem_bodies, List.mem_cons]
    grind
  bodies_nodup := h.bodies_nodup
  lookup_links g link := by
    rw [h.lookup_links, List.mem_cons]
    grind
  resolved := by
    intro p hp hUnready
    rcases List.mem_cons.mp hp with rfl | hp
    · rw [hReady] at hUnready
      cases hUnready
    · exact h.resolved p hp hUnready

/-- A function that is neither seen nor ready is followed. -/
theorem Explores.follow (h : backend.Explores image root ⟨f :: rest, seen, batch⟩)
    (hUnseen : f ∉ seen) (hUnready : backend.isReady f = false) {next bodies : List FuncId}
    {links : List (FuncId × Link)} (hAdds : backend.Adds image f next bodies links) :
    backend.Explores image root
      ⟨next ++ rest, f :: seen, ⟨batch.bodies ++ bodies, batch.links ++ links⟩⟩ where
  root_met := met_of_met _ h.root_met
  work_reached g hg := by
    rcases List.mem_append.mp hg with hg | hg
    · exact (h.work_reached f List.mem_cons_self).tail ((hAdds.leads_iff g).mpr hg)
    · exact h.work_reached g (List.mem_cons_of_mem f hg)
  seen_reached g hg := by
    rcases List.mem_cons.mp hg with rfl | hg
    · exact h.work_reached g List.mem_cons_self
    · exact h.seen_reached g hg
  followed := by
    intro p hp hUnready g hLeads
    rcases List.mem_cons.mp hp with rfl | hp
    · exact .inr (List.mem_append_left rest ((hAdds.leads_iff g).mp hLeads))
    · exact met_of_met _ (h.followed p hp hUnready g hLeads)
  mem_bodies g := by
    rw [List.mem_append, h.mem_bodies, hAdds.mem_bodies, List.mem_cons]
    grind
  bodies_nodup := by
    refine List.nodup_append.mpr ⟨h.bodies_nodup, hAdds.bodies_nodup, ?_⟩
    intro g hOld other hNew hSame
    obtain ⟨rfl, -⟩ := (hAdds.mem_bodies other).mp hNew
    exact hUnseen (hSame ▸ ((h.mem_bodies g).mp hOld).1)
  lookup_links g link := by
    have hOld := h.lookup_links g
    have hNew := hAdds.lookup_links g
    rw [List.lookup_append, List.mem_cons]
    -- A function with a link in the batch was seen, so it is not the one that is followed now.
    cases hLookup : batch.links.lookup g with
    | some old =>
      obtain ⟨hSeen, hRest⟩ := (hOld old).mp hLookup
      have hOther : g ≠ f := fun hSame => hUnseen (hSame ▸ hSeen)
      rw [Option.some_or, ← hLookup, hOld]
      grind
    | none =>
      rw [Option.none_or, hNew]
      have hNone := (hOld link).not.mp (by rw [hLookup]; exact (Option.some_ne_none link).symm)
      grind
  resolved := by
    intro p hp hUnready
    rcases List.mem_cons.mp hp with rfl | hp
    · exact hAdds.resolved
    · exact h.resolved p hp hUnready

end Steps

/-! ## The bound of the search -/

/-- How many functions may still be added to the work of a search. -/
def pending (image : Image) (seen : List FuncId) : Nat :=
  ∑ f ∈ (Finset.range image.size).filter (· ∉ seen), followAt image f

theorem pending_cons_le (image : Image) (f : FuncId) (seen : List FuncId) :
    pending image (f :: seen) ≤ pending image seen := by
  refine Finset.sum_le_sum_of_subset fun g hg => ?_
  obtain ⟨hRange, hUnseen⟩ := Finset.mem_filter.mp hg
  exact Finset.mem_filter.mpr ⟨hRange, fun hSeen => hUnseen (List.mem_cons_of_mem f hSeen)⟩

/-- Seeing a function takes away as much as it may add. -/
theorem followAt_add_pending_cons (image : Image) {f : FuncId} {seen : List FuncId}
    (hUnseen : f ∉ seen) :
    followAt image f + pending image (f :: seen) ≤ pending image seen := by
  cases hGet : image.get? f with
  | none =>
    have hZero : followAt image f = 0 := by simp [followAt, hGet]
    rw [hZero, Nat.zero_add]
    exact pending_cons_le image f seen
  | some entry =>
    have hMem : f ∈ (Finset.range image.size).filter (· ∉ seen) :=
      Finset.mem_filter.mpr ⟨Finset.mem_range.mpr (Image.lt_size_of_get? hGet), hUnseen⟩
    -- The sum loses exactly the term of the function that is seen now.
    have hErase : (Finset.range image.size).filter (· ∉ f :: seen) =
        ((Finset.range image.size).filter (· ∉ seen)).erase f := by
      ext g
      simp only [Finset.mem_filter, Finset.mem_erase, List.mem_cons, not_or]
      exact and_left_comm
    rw [pending, hErase, pending, Finset.add_sum_erase _ _ hMem]

theorem searchBound_eq (image : Image) : searchBound image = 1 + pending image [] := by
  have hSum : ∀ entries : List Entry,
      entries.foldr (fun entry bound => followCount entry + bound) 1 =
        1 + ∑ f ∈ Finset.range entries.length, followAt { entries := entries } f := by
    intro entries
    induction entries with
    | nil => rfl
    | cons entry rest ih =>
      rw [List.foldr_cons, ih, List.length_cons, Finset.sum_range_succ']
      simp only [followAt, Image.get?, List.getElem?_cons_succ, List.getElem?_cons_zero]
      omega
  have hAll : (Finset.range image.size).filter (· ∉ ([] : List FuncId)) =
      Finset.range image.size :=
    Finset.filter_true_of_mem fun _ _ => List.not_mem_nil
  rw [pending, hAll]
  exact hSum image.entries

/-! ## The whole search -/

/-- How a search ends: with a batch and no work left, or at a function that the root reaches
and that is not in the image, or that nothing can stand for. -/
inductive Ends (backend : Backend) (image : Image) (root : FuncId) :
    Except CodeError Batch → Prop
  | found {s : BatchSearch} (explores : backend.Explores image root s) (work_eq : s.work = []) :
      Ends backend image root (.ok s.batch)
  | missing {f : FuncId} (reached : backend.Reaches image root f) (get : image.get? f = none) :
      Ends backend image root (.error (.invalid (.notInImage f)))
  | unresolved {d : FuncId} {decl : Entry} (reached : backend.Reaches image root d)
      (unresolvable : backend.Unresolvable image d decl) :
      Ends backend image root (.error (.unresolvedSymbol decl.name decl.arity))

theorem searchFrom_cons (backend : Backend) (image : Image) (count : Nat) (f : FuncId)
    (rest seen : List FuncId) (batch : Batch) :
    backend.searchFrom image (count + 1) ⟨f :: rest, seen, batch⟩ =
      if seen.contains f then backend.searchFrom image count ⟨rest, seen, batch⟩
      else if backend.isReady f then backend.searchFrom image count ⟨rest, f :: seen, batch⟩
      else
        match backend.searchEntry image f ⟨rest, f :: seen, batch⟩ with
        | .error e => .error e
        | .ok s => backend.searchFrom image count s :=
  rfl

/-- With a count that covers the work and what may be added to it, no work is left over. -/
theorem ends_searchFrom (count : Nat) : ∀ {s : BatchSearch}, backend.Explores image root s →
    s.work.length + pending image s.seen ≤ count →
    backend.Ends image root (backend.searchFrom image count s) := by
  -- A round takes one function from the work; what it adds is paid for by the function that is
  -- seen for the first time.
  induction count with
  | zero =>
    intro s hExplores hCount
    have hWork : s.work = [] := List.eq_nil_of_length_eq_zero (by omega)
    exact .found hExplores hWork
  | succ count ih =>
    rintro ⟨work, seen, batch⟩ hExplores hCount
    cases work with
    | nil => exact .found hExplores rfl
    | cons f rest =>
      change rest.length + 1 + pending image seen ≤ count + 1 at hCount
      rw [searchFrom_cons]
      split
      · rename_i hSeen
        exact ih (hExplores.pass (List.contains_iff_mem.mp hSeen)) (by simp only; omega)
      · rename_i hUnseen
        have hUnseen : f ∉ seen := fun hMem => hUnseen (List.contains_iff_mem.mpr hMem)
        split
        · rename_i hReady
          have hLe := pending_cons_le image f seen
          exact ih (hExplores.stop hReady) (by simp only; omega)
        · rename_i hUnready
          have hReached := hExplores.work_reached f List.mem_cons_self
          rcases searchEntry_cases backend image f ⟨rest, f :: seen, batch⟩ with
            ⟨next, bodies, links, hAdds, hEntry⟩ | ⟨hNone, hEntry⟩ | ⟨decl, hDecl, hEntry⟩
          · have hLength := hAdds.length_le
            have hLe := followAt_add_pending_cons image hUnseen
            rw [hEntry]
            refine ih (hExplores.follow hUnseen (Bool.eq_false_iff.mpr hUnready) hAdds) ?_
            simp only [List.length_append]
            omega
          · rw [hEntry]
            exact .missing hReached hNone
          · rw [hEntry]
            exact .unresolved hReached hDecl

theorem ends_searchBatch (backend : Backend) (image : Image) (root : FuncId) :
    backend.Ends image root (backend.searchBatch image root) :=
  ends_searchFrom _ (explores_start backend image root) (Nat.le_of_eq (searchBound_eq image).symm)

/-- What a batch holds that the search has found: the bodies that the root reaches and that
are not ready, and the new links of the declarations that it reaches. -/
structure Finds (backend : Backend) (image : Image) (root : FuncId) (batch : Batch) : Prop where
  resolved : ∀ {f}, backend.Reaches image root f → backend.Resolved image f
  mem_bodies : ∀ {f}, f ∈ batch.bodies ↔
    backend.Reaches image root f ∧ backend.isReady f = false ∧ HasBody image f
  bodies_nodup : batch.bodies.Nodup
  lookup_links : ∀ {d link}, batch.links.lookup d = some link ↔
    backend.Reaches image root d ∧ backend.NewLink image d link

/-- Where no work is left, all that the root reaches is seen or settled. -/
theorem Explores.seen_or_settled (h : backend.Explores image root s) (hWork : s.work = [])
    (hCoherent : backend.Coherent image) (hReaches : backend.Reaches image root f) :
    f ∈ s.seen ∨ backend.Settled f := by
  -- The way from the root stays among what was seen until it comes to a function that is ready;
  -- from there on all is settled.
  induction hReaches with
  | refl =>
    rcases h.root_met with hSeen | hMem
    · exact .inl hSeen
    · rw [hWork] at hMem
      cases hMem
  | tail _ hLeads ih =>
    rcases ih with hSeen | hSettled
    · cases hReady : backend.isReady _ with
      | true => exact .inr (hCoherent.settled_of_leads (.inl hReady) hLeads)
      | false =>
        rcases h.followed _ hSeen hReady _ hLeads with hSeen | hMem
        · exact .inl hSeen
        · rw [hWork] at hMem
          cases hMem
    · exact .inr (hCoherent.settled_of_leads hSettled hLeads)

theorem Coherent.resolved_of_settled (h : backend.Coherent image) (hSettled : backend.Settled f) :
    backend.Resolved image f := by
  rcases hSettled with hReady | ⟨link, hLookup⟩
  · obtain ⟨entry, body, -, hGet, hBody, -⟩ := h.code hReady
    exact ⟨entry, hGet, fun hNone => by
      rw [hBody] at hNone
      cases hNone⟩
  · obtain ⟨decl, hGet, -⟩ := h.link hLookup
    exact ⟨decl, hGet, fun _ => ⟨link, .kept hLookup⟩⟩

theorem Coherent.isReady_of_newLink (h : backend.Coherent image) {link : Link}
    (hNew : backend.NewLink image f link) : backend.isReady f = false := by
  obtain ⟨-, decl, hGet, hNone, -⟩ := hNew
  refine Bool.eq_false_iff.mpr fun hReady => ?_
  have hSome := h.body_of_isReady hReady hGet
  rw [hNone] at hSome
  cases hSome

theorem Explores.finds (h : backend.Explores image root s) (hWork : s.work = [])
    (hCoherent : backend.Coherent image) : backend.Finds image root s.batch where
  resolved := by
    intro f hReaches
    rcases h.seen_or_settled hWork hCoherent hReaches with hSeen | hSettled
    · cases hReady : backend.isReady f with
      | true => exact hCoherent.resolved_of_settled (.inl hReady)
      | false => exact h.resolved f hSeen hReady
    · exact hCoherent.resolved_of_settled hSettled
  mem_bodies := by
    intro f
    rw [h.mem_bodies]
    refine ⟨fun ⟨hSeen, hRest⟩ => ⟨h.seen_reached f hSeen, hRest⟩, ?_⟩
    rintro ⟨hReaches, hUnready, hBody⟩
    refine ⟨?_, hUnready, hBody⟩
    rcases h.seen_or_settled hWork hCoherent hReaches with hSeen | hSettled
    · exact hSeen
    · obtain ⟨entry, hGet, hSome⟩ := hBody
      rw [hCoherent.isReady_of_settled hSettled hGet hSome] at hUnready
      cases hUnready
  bodies_nodup := h.bodies_nodup
  lookup_links := by
    intro d link
    rw [h.lookup_links]
    refine ⟨fun ⟨hSeen, _, hNew⟩ => ⟨h.seen_reached d hSeen, hNew⟩, ?_⟩
    rintro ⟨hReaches, hNew⟩
    have hUnready := hCoherent.isReady_of_newLink hNew
    refine ⟨?_, hUnready, hNew⟩
    rcases h.seen_or_settled hWork hCoherent hReaches with hSeen | hReady | ⟨old, hLookup⟩
    · exact hSeen
    · rw [hReady] at hUnready
      cases hUnready
    · rw [hNew.1] at hLookup
      cases hLookup

end Backend

end LiveCompiler
