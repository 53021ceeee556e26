import LiveCompiler.Proofs.Program.Generation

/-!
# Compiling a batch

A batch is *planned* if its bodies are new, what they call is settled once the batch is added,
and all links fit (`Plans`); what the search finds is planned (`Finds.plans`).  In a regular
image compiling a planned batch succeeds and leaves a coherent backend in which the bodies and
the links of the batch have joined the old ones (`compileBatch_ok`).

Linking settles the calls of the new code, and those calls end up where `destination?` says:
a settled call names a symbol, and the table finds what the symbol names.  The code that was
linked before is found unchanged.
-/

namespace LiveCompiler

open Ir

variable {image : Image} {table : CodeTable}

namespace Backend

variable {symbolOf : FuncId → Except CodeError NativeSymbol}

/-! ## Planned batches -/

/-- A batch that can be compiled as a whole. -/
structure Plans (backend : Backend) (image : Image) (batch : Batch) : Prop where
  unready : ∀ f ∈ batch.bodies, backend.isReady f = false
  nodup : batch.bodies.Nodup
  body : ∀ f ∈ batch.bodies, ∃ entry body, image.get? f = some entry ∧ entry.body = some body ∧
    ∀ g ∈ calleesOf body, (backend.joined batch).Settled g
  link : ∀ {d link}, (backend.joined batch).links.lookup d = some link →
    ∃ decl, image.get? d = some decl ∧ decl.body = none ∧
      (backend.joined batch).LinkFits image decl link

variable {backend : Backend} {batch : Batch} {f g d root : FuncId} {entry decl : Entry}
  {link : Link}

theorem isReady_joined :
    (backend.joined batch).isReady f = true ↔ backend.isReady f = true ∨ f ∈ batch.bodies := by
  simp [isReady, joined]

theorem lookup_joined_of_some (h : backend.links.lookup d = some link) :
    (backend.joined batch).links.lookup d = some link := by
  rw [joined, List.lookup_append, h, Option.some_or]

theorem lookup_joined_of_none (h : backend.links.lookup d = none) :
    (backend.joined batch).links.lookup d = batch.links.lookup d := by
  rw [joined, List.lookup_append, h, Option.none_or]

theorem LinkFits.joined (h : backend.LinkFits image decl link) :
    (backend.joined batch).LinkFits image decl link := by
  cases h with
  | function hReady hGet hArity => exact .function (isReady_joined.mpr (.inl hReady)) hGet hArity
  | host hArity => exact .host hArity

/-- What the search reaches is settled once its batch is compiled. -/
theorem Finds.settled (h : backend.Finds image root batch)
    (hReaches : backend.Reaches image root f) : (backend.joined batch).Settled f := by
  obtain ⟨entry, hGet, hLinks⟩ := h.resolved hReaches
  cases hBody : entry.body with
  | some body =>
    refine .inl (isReady_joined.mpr ?_)
    cases hReady : backend.isReady f with
    | true => exact .inl rfl
    | false =>
      exact .inr (h.mem_bodies.mpr ⟨hReaches, hReady, entry, hGet, by rw [hBody]; rfl⟩)
  | none =>
    obtain ⟨link, hLinks⟩ := hLinks hBody
    refine .inr ⟨link, ?_⟩
    cases hLinks with
    | kept hLookup => exact lookup_joined_of_some hLookup
    | new hNone hOffers =>
      rw [lookup_joined_of_none hNone]
      exact h.lookup_links.mpr ⟨hReaches, hNone, entry, hGet, hBody, hOffers⟩

theorem Finds.isReady_joined (h : backend.Finds image root batch)
    (hReaches : backend.Reaches image root f) (hBody : HasBody image f) :
    (backend.joined batch).isReady f = true := by
  refine Backend.isReady_joined.mpr ?_
  cases hReady : backend.isReady f with
  | true => exact .inl rfl
  | false => exact .inr (h.mem_bodies.mpr ⟨hReaches, hReady, hBody⟩)

/-- A new link leads to a definition, which has a body, or to a host function. -/
theorem Finds.linkFits (h : backend.Finds image root batch) (hRegular : image.Regular)
    (hReaches : backend.Reaches image root d) (hGet : image.get? d = some decl)
    (hBody : decl.body = none) (hNone : backend.links.lookup d = none)
    (hOffers : image.Offers decl link) : (backend.joined batch).LinkFits image decl link := by
  cases hOffers with
  | function hLatest =>
    obtain ⟨target, hTarget, hKind, -, hArity⟩ := hLatest.1
    have hLeads : backend.Leads image d _ := .link hGet hBody (.new hNone (.function hLatest))
    exact .function (h.isReady_joined (hReaches.tail hLeads)
      ⟨target, hTarget, hRegular.defined hTarget hKind⟩) hTarget hArity
  | host _ _ hArity => exact .host hArity

/-- What the search finds can be compiled. -/
theorem Finds.plans (h : backend.Finds image root batch) (hRegular : image.Regular)
    (hCoherent : backend.Coherent image) : backend.Plans image batch where
  unready f hf := (h.mem_bodies.mp hf).2.1
  nodup := h.bodies_nodup
  body f hf := by
    obtain ⟨hReaches, -, entry, hGet, hSome⟩ := h.mem_bodies.mp hf
    obtain ⟨body, hBody⟩ := Option.isSome_iff_exists.mp hSome
    exact ⟨entry, body, hGet, hBody, fun g hg => h.settled (hReaches.tail (.call hGet hBody hg))⟩
  link := by
    intro d link hLookup
    cases hOld : backend.links.lookup d with
    | some old =>
      rw [lookup_joined_of_some hOld] at hLookup
      obtain rfl := Option.some.inj hLookup
      obtain ⟨decl, hGet, hBody, hFits⟩ := hCoherent.link hOld
      exact ⟨decl, hGet, hBody, hFits.joined⟩
    | none =>
      rw [lookup_joined_of_none hOld] at hLookup
      obtain ⟨hReaches, hNone, decl, hGet, hBody, hOffers⟩ := h.lookup_links.mp hLookup
      exact ⟨decl, hGet, hBody, h.linkFits hRegular hReaches hGet hBody hNone hOffers⟩

/-! ## The symbols of called functions -/

theorem Plans.inImage_of_isReady (h : backend.Plans image batch)
    (hCoherent : backend.Coherent image) (hReady : (backend.joined batch).isReady f = true) :
    ∃ entry, image.get? f = some entry := by
  rcases isReady_joined.mp hReady with hOld | hNew
  · obtain ⟨entry, -, -, hGet, -⟩ := hCoherent.code hOld
    exact ⟨entry, hGet⟩
  · obtain ⟨entry, -, hGet, -⟩ := h.body f hNew
    exact ⟨entry, hGet⟩

theorem Plans.inImage_of_settled (h : backend.Plans image batch)
    (hCoherent : backend.Coherent image) (hSettled : (backend.joined batch).Settled f) :
    ∃ entry, image.get? f = some entry := by
  rcases hSettled with hReady | ⟨link, hLookup⟩
  · exact h.inImage_of_isReady hCoherent hReady
  · obtain ⟨decl, hGet, -⟩ := h.link hLookup
    exact ⟨decl, hGet⟩

/-- A call of a settled function names the symbol of the place where it ends up. -/
theorem Plans.batchSymbol_ok (h : backend.Plans image batch) (hCoherent : backend.Coherent image)
    (hSettled : (backend.joined batch).Settled f) :
    ∃ target symbol, (backend.joined batch).destination? f = some target ∧
      backend.batchSymbol image batch f = .ok symbol ∧ image.Names target symbol ∧
      ∀ entry, image.get? f = some entry → symbol.arity = entry.arity := by
  have hContains : ∀ g, (batch.bodies ++ backend.compiled).contains g = true ↔
      (backend.joined batch).isReady g = true := by
    intro g
    simp [isReady, Backend.joined, or_comm]
  unfold batchSymbol symbolIn
  by_cases hReady : (backend.joined batch).isReady f = true
  · obtain ⟨entry, hGet⟩ := h.inImage_of_isReady hCoherent hReady
    rw [if_pos ((hContains f).mpr hReady), functionSymbol, hGet]
    refine ⟨_, _, destination?_of_isReady hReady, rfl, .code hGet, fun other hOther => ?_⟩
    obtain rfl := Option.some.inj hOther
    rfl
  · obtain ⟨link, hLookup⟩ := hSettled.resolve_left hReady
    obtain ⟨decl, hGet, hBody, hFits⟩ := h.link hLookup
    have hList : (backend.links ++ batch.links).lookup f = some link := hLookup
    rw [if_neg fun hMem => hReady ((hContains f).mp hMem), hList, destination?, if_neg hReady,
      hLookup]
    cases hFits with
    | function hTarget hTargetGet hArity =>
      simp only [if_pos hTarget, if_pos ((hContains _).mpr hTarget), functionSymbol, hTargetGet]
      refine ⟨_, _, rfl, rfl, .code hTargetGet, fun other hOther => ?_⟩
      obtain rfl := Option.some.inj (hGet.symm.trans hOther)
      exact hArity
    | host hArity =>
      refine ⟨_, _, rfl, rfl, .host _, fun other hOther => ?_⟩
      obtain rfl := Option.some.inj (hGet.symm.trans hOther)
      exact hArity

/-! ## Linking -/

/-- A list of answers holds nothing under a key that was not asked for. -/
theorem lookup_filterMap_of_notMem {β : Type} (answer : FuncId → Option β) {keys : List FuncId}
    {key : FuncId} (hKey : key ∉ keys) :
    (keys.filterMap fun k => (answer k).map fun a => (k, a)).lookup key = none := by
  refine List.lookup_eq_none_iff.mpr fun pair hPair => ?_
  obtain ⟨k, hk, hMap⟩ := List.mem_filterMap.mp hPair
  obtain ⟨a, -, rfl⟩ := Option.map_eq_some_iff.mp hMap
  exact bne_iff_ne.mpr fun hSame : key = k => hKey (hSame ▸ hk)

/-- A list of answers holds the answer under each key that was asked for. -/
theorem lookup_filterMap_self {β : Type} (answer : FuncId → Option β) (keys : List FuncId)
    {key : FuncId} (hKey : key ∈ keys) :
    (keys.filterMap fun k => (answer k).map fun a => (k, a)).lookup key = answer key := by
  induction keys with
  | nil => cases hKey
  | cons head rest ih =>
    by_cases hHead : key = head
    · subst hHead
      cases hAnswer : answer key with
      | some a => simp [hAnswer]
      | none =>
        by_cases hRest : key ∈ rest
        · simpa [hAnswer] using ih hRest
        · simpa [hAnswer] using lookup_filterMap_of_notMem answer hRest
    · have hRest := ih ((List.mem_cons.mp hKey).resolve_left hHead)
      cases hAnswer : answer head with
      | none => simpa [hAnswer] using hRest
      | some a => simpa [hAnswer, List.lookup_cons, beq_eq_false_iff_ne.mpr hHead] using hRest

/-- The targets of new code, under the functions that its body calls. -/
theorem target?_link_codeFor (table : CodeTable) (item : BatchItem) (g : FuncId) :
    (table.link (codeFor symbolOf item)).target? g =
      ((calleesOf item.body).filterMap fun callee =>
        (match symbolOf callee with
          | .ok symbol => table.target? symbol.name
          | .error _ => none).map fun target => (callee, target)).lookup g := by
  have hTargets : ((codeFor symbolOf item).callSymbols.filterMap fun call =>
      (table.target? call.2).map fun target => (call.1, target)) =
      (calleesOf item.body).filterMap fun callee =>
        (match symbolOf callee with
          | .ok symbol => table.target? symbol.name
          | .error _ => none).map fun target => (callee, target) := by
    rw [codeFor, List.filterMap_filterMap]
    refine List.filterMap_congr fun callee _ => ?_
    cases symbolOf callee <;> rfl
  rw [CodeTable.link, if_neg (by simp [Code.isLinked, codeFor]), Code.target?, Option.bind_some,
    ← hTargets]

/-- Calls of new code end up where the table puts the symbols that they name. -/
theorem target?_link_codeFor_of_mem (table : CodeTable) (item : BatchItem)
    {symbol : NativeSymbol} (hMem : f ∈ calleesOf item.body) (hSymbol : symbolOf f = .ok symbol) :
    (table.link (codeFor symbolOf item)).target? f = table.target? symbol.name := by
  rw [target?_link_codeFor, lookup_filterMap_self _ _ hMem, hSymbol]

theorem target?_link_codeFor_of_notMem (table : CodeTable) (item : BatchItem)
    (hMem : f ∉ calleesOf item.body) :
    (table.link (codeFor symbolOf item)).target? f = none := by
  rw [target?_link_codeFor, lookup_filterMap_of_notMem _ hMem]

/-- What a symbol names is found by it, if its code has been made. -/
theorem target?_of_names (hRegular : image.Regular)
    (hMade : ∀ code ∈ table.codes, ∃ entry, image.get? code.func = some entry ∧
      code.symbol = entry.symbol)
    {target : CallTarget} {symbol : NativeSymbol} (hNames : image.Names target symbol)
    (hCode : ∀ g, target = .code g → ∃ code ∈ table.codes, code.func = g) :
    table.target? symbol.name = some target := by
  unfold CodeTable.target? CodeTable.codeUnder?
  split
  · rename_i code hFind
    have hSymbol : code.symbol = symbol.name := by simpa using List.find?_some hFind
    obtain ⟨entry, hGet, hOwn⟩ := hMade code (List.mem_of_find?_eq_some hFind)
    obtain ⟨rfl, -⟩ := hRegular.names_unique (.code hGet) hNames (hOwn.symm.trans hSymbol)
    rfl
  · rename_i hNone
    cases hNames with
    | @code g entry hGet =>
      obtain ⟨code, hMem, rfl⟩ := hCode g rfl
      obtain ⟨other, hOther, hSymbol⟩ := hMade code hMem
      obtain rfl := Option.some.inj (hGet.symm.trans hOther)
      exact absurd (beq_iff_eq.mpr hSymbol) (List.find?_eq_none.mp hNone code hMem)
    | host h =>
      rw [HostFunction.native, HostFunction.ofSymbol?_symbol]
      rfl

/-! ## A compiled batch -/

/-- The bodies of a batch with their entries, in order. -/
theorem batchItems_spec (bodies : List FuncId)
    (hBodies : ∀ f ∈ bodies, ∃ entry body, image.get? f = some entry ∧ entry.body = some body) :
    (∀ item ∈ batchItems image bodies, item.InImage image) ∧
      (batchItems image bodies).map BatchItem.func = bodies := by
  induction bodies with
  | nil => exact ⟨List.forall_mem_nil _, rfl⟩
  | cons f rest ih =>
    obtain ⟨entry, body, hGet, hBody⟩ := hBodies f List.mem_cons_self
    obtain ⟨hItems, hFuncs⟩ := ih fun g hg => hBodies g (List.mem_cons_of_mem f hg)
    have hCons : batchItems image (f :: rest) =
        { func := f, entry := entry, body := body } :: batchItems image rest := by
      simp [batchItems, hGet, hBody]
    rw [hCons]
    refine ⟨fun item hItem => ?_, congrArg (f :: ·) hFuncs⟩
    rcases List.mem_cons.mp hItem with rfl | hItem
    · exact ⟨hGet, hBody⟩
    · exact hItems item hItem

/-- The code table once the code of a batch has been made. -/
structure Extends (backend : Backend) (image : Image) (batch : Batch) (table : CodeTable) :
    Prop where
  knows : table.Knows image
  codes_eq : table.codes = backend.table.codes ++
    (batchItems image batch.bodies).map (codeFor (backend.batchSymbol image batch))

theorem Plans.symbolises (h : backend.Plans image batch) (hCoherent : backend.Coherent image)
    (hSettled : (backend.joined batch).Settled f) :
    Symbolises image (backend.batchSymbol image batch) f := by
  obtain ⟨target, symbol, -, hSymbol, hNames, hArity⟩ := h.batchSymbol_ok hCoherent hSettled
  exact ⟨target, symbol, hSymbol, hNames, hArity⟩

theorem Plans.items (h : backend.Plans image batch) :
    (∀ item ∈ batchItems image batch.bodies, item.InImage image) ∧
      (batchItems image batch.bodies).map BatchItem.func = batch.bodies :=
  batchItems_spec batch.bodies fun f hf =>
    let ⟨entry, body, hGet, hBody, _⟩ := h.body f hf
    ⟨entry, body, hGet, hBody⟩

theorem Plans.settled_callee (h : backend.Plans image batch) (item : BatchItem)
    (hItem : item ∈ batchItems image batch.bodies) (hf : f ∈ calleesOf item.body) :
    (backend.joined batch).Settled f := by
  obtain ⟨hInImage, hFuncs⟩ := h.items
  have hMem : item.func ∈ batch.bodies := hFuncs ▸ List.mem_map_of_mem hItem
  obtain ⟨entry, body, hGet, hBody, hCallees⟩ := h.body item.func hMem
  obtain ⟨hSame, hSameBody⟩ := hInImage item hItem
  obtain rfl := Option.some.inj (hGet.symm.trans hSame)
  obtain rfl := Option.some.inj (hBody.symm.trans hSameBody)
  exact hCallees f hf

/-- All steps on the code table succeed for a planned batch. -/
theorem Plans.exists_table (h : backend.Plans image batch) (hRegular : image.Regular)
    (hCoherent : backend.Coherent image) :
    ∃ table, backend.Extends image batch table ∧ backend.generate image batch = .ok table := by
  obtain ⟨hInImage, hFuncs⟩ := h.items
  have hCallees := fun item hItem f hf =>
    h.symbolises hCoherent (h.settled_callee item hItem (f := f) hf)
  obtain ⟨declared, hDeclared, hKnows, hCodes⟩ :=
    declareAll_ok hRegular (batchItems image batch.bodies) hInImage hCoherent.known
  obtain ⟨checked, hChecked, hKnows, hSame⟩ :=
    checkAll_ok hRegular (batchItems image batch.bodies) hInImage hCallees hKnows
  have hCodes : checked.codes = backend.table.codes := hSame.trans hCodes
  have hFits : ∀ item ∈ batchItems image batch.bodies,
      valuesFit (backend.batchSymbol image batch) item.body = true := fun item hItem =>
    valuesFit_of_regular hRegular (hInImage item hItem) fun f hf =>
      ⟨hCallees item hItem f hf,
        h.inImage_of_settled hCoherent (h.settled_callee _ hItem hf)⟩
  -- Old code belongs to functions that are ready, which no body of the batch is.
  have hFresh : ∀ item ∈ batchItems image batch.bodies, ∀ code ∈ checked.codes,
      code.symbol ≠ item.entry.symbol := by
    intro item hItem code hCode hSymbol
    obtain ⟨-, hReady, entry, hGet, hOwn⟩ := hCoherent.made code (hCodes ▸ hCode)
    have hFunc := hRegular.symbol_unique hGet (hInImage item hItem).get (hOwn.symm.trans hSymbol)
    have hMem : item.func ∈ batch.bodies := hFuncs ▸ List.mem_map_of_mem hItem
    rw [hFunc, h.unready item.func hMem] at hReady
    cases hReady
  have hDistinct : (batchItems image batch.bodies).Pairwise fun item other =>
      item.entry.symbol ≠ other.entry.symbol := by
    have hNodup : ((batchItems image batch.bodies).map BatchItem.func).Nodup := by
      rw [hFuncs]
      exact h.nodup
    refine (List.pairwise_map.mp hNodup).imp_of_mem fun hItem hOther hFunc hSymbol => ?_
    exact hFunc (hRegular.symbol_unique (hInImage _ hItem).get (hInImage _ hOther).get hSymbol)
  have hDefined := @defineAll_ok checked _ (batchItems image batch.bodies) hFits hFresh hDistinct
  rw [hCodes] at hDefined
  refine ⟨{ checked with
    codes := backend.table.codes ++
      (batchItems image batch.bodies).map (codeFor (backend.batchSymbol image batch)) },
    ⟨hKnows, rfl⟩, ?_⟩
  rw [generate, hDeclared, bind_ok, hChecked, bind_ok, hDefined]

/-! ## Coherence after a batch -/

section Extended

variable {table : CodeTable}

/-- Where calls ended up before a batch, they end up after it. -/
theorem destination?_joined (h : backend.Plans image batch) {target : CallTarget}
    (hCoherent : backend.Coherent image) (hDestination : backend.destination? f = some target) :
    (backend.joined batch).destination? f = some target := by
  by_cases hReady : backend.isReady f = true
  · rw [destination?_of_isReady hReady] at hDestination
    rw [destination?_of_isReady (isReady_joined.mpr (.inl hReady))]
    exact hDestination
  · have hSome : ∃ link, backend.links.lookup f = some link := by
      cases hLookup : backend.links.lookup f with
      | some link => exact ⟨link, rfl⟩
      | none =>
        rw [destination?, if_neg hReady, hLookup] at hDestination
        cases hDestination
    obtain ⟨link, hLookup⟩ := hSome
    rw [hCoherent.destination?_of_lookup hLookup] at hDestination
    obtain ⟨decl, hGet, hBody, hFits⟩ := hCoherent.link hLookup
    -- A declaration with a link has no body, so no batch makes it ready.
    have hUnready : ¬ (backend.joined batch).isReady f = true := by
      intro hJoined
      obtain ⟨entry, body, hSame, hSome, -⟩ := h.body f ((isReady_joined.mp hJoined).resolve_left hReady)
      obtain rfl := Option.some.inj (hGet.symm.trans hSame)
      rw [hBody] at hSome
      cases hSome
    rw [destination?, if_neg hUnready, lookup_joined_of_some hLookup, ← hDestination]
    cases hFits with
    | function hTarget => exact if_pos (isReady_joined.mpr (.inl hTarget))
    | host => rfl

/-- All code that a batch leaves in the table belongs to functions that are ready, under
their symbols. -/
theorem Extends.made (h : backend.Extends image batch table) (hPlans : backend.Plans image batch)
    (hCoherent : backend.Coherent image) : ∀ code ∈ table.codes,
      (backend.joined batch).isReady code.func = true ∧
        ∃ entry, image.get? code.func = some entry ∧ code.symbol = entry.symbol := by
  obtain ⟨hInImage, hFuncs⟩ := hPlans.items
  intro code hCode
  rw [h.codes_eq] at hCode
  rcases List.mem_append.mp hCode with hOld | hNew
  · obtain ⟨-, hReady, hEntry⟩ := hCoherent.made code hOld
    exact ⟨isReady_joined.mpr (.inl hReady), hEntry⟩
  · obtain ⟨item, hItem, rfl⟩ := List.mem_map.mp hNew
    have hMem : item.func ∈ batch.bodies := by
      rw [← hFuncs]
      exact List.mem_map_of_mem hItem
    exact ⟨isReady_joined.mpr (.inr hMem), item.entry, (hInImage item hItem).get, rfl⟩

/-- Code that there was is found unchanged. -/
theorem Extends.code?_of_found (h : backend.Extends image batch table)
    (hCoherent : backend.Coherent image) {code : Code} (hCode : backend.table.code? f = some code) :
    table.linkAll.code? f = some code := by
  have hLinked := (hCoherent.made code (List.mem_of_find?_eq_some hCode)).1
  have hFound : table.code? f = some code := by
    rw [CodeTable.code?] at hCode ⊢
    rw [h.codes_eq, List.find?_append, hCode, Option.some_or]
  exact table.code?_linkAll_of_isLinked hFound hLinked

/-- A body of the batch has its code in the table. -/
theorem Extends.code?_of_mem (h : backend.Extends image batch table)
    (hPlans : backend.Plans image batch) (hCoherent : backend.Coherent image)
    (hf : f ∈ batch.bodies) :
    ∃ item ∈ batchItems image batch.bodies, item.func = f ∧
      table.code? f = some (codeFor (backend.batchSymbol image batch) item) := by
  obtain ⟨-, hFuncs⟩ := hPlans.items
  have hOld : backend.table.codes.find? (fun code => code.func == f) = none := by
    refine List.find?_eq_none.mpr fun code hCode hFunc => ?_
    have hReady := (hCoherent.made code hCode).2.1
    rw [eq_of_beq hFunc, hPlans.unready f hf] at hReady
    cases hReady
  have hItem : ∃ item, (batchItems image batch.bodies).find? (fun item => item.func == f) =
      some item := by
    rw [← hFuncs] at hf
    obtain ⟨item, hItem, hFunc⟩ := List.mem_map.mp hf
    exact Option.isSome_iff_exists.mp
      (List.find?_isSome.mpr ⟨item, hItem, beq_iff_eq.mpr hFunc⟩)
  obtain ⟨item, hFind⟩ := hItem
  refine ⟨item, List.mem_of_find?_eq_some hFind, by simpa using List.find?_some hFind, ?_⟩
  have hNew : ((batchItems image batch.bodies).map
      (codeFor (backend.batchSymbol image batch))).find? (fun code => code.func == f) =
        some (codeFor (backend.batchSymbol image batch) item) := by
    rw [List.find?_map]
    exact congrArg _ hFind
  rw [CodeTable.code?, h.codes_eq, List.find?_append, hOld, Option.none_or, hNew]

/-- The calls of new code end up where they are settled. -/
theorem Extends.target?_link (h : backend.Extends image batch table)
    (hRegular : image.Regular) (hPlans : backend.Plans image batch)
    (hCoherent : backend.Coherent image) {item : BatchItem}
    (hItem : item ∈ batchItems image batch.bodies) (hg : g ∈ calleesOf item.body) :
    ∃ target, (backend.joined batch).destination? g = some target ∧
      (table.link (codeFor (backend.batchSymbol image batch) item)).target? g = some target := by
  obtain ⟨target, symbol, hDestination, hSymbol, hNames, -⟩ :=
    hPlans.batchSymbol_ok hCoherent (hPlans.settled_callee _ hItem hg)
  refine ⟨target, hDestination, ?_⟩
  rw [target?_link_codeFor_of_mem table item hg hSymbol]
  refine target?_of_names hRegular (fun code hCode => (h.made hPlans hCoherent code hCode).2)
    hNames ?_
  rintro p rfl
  have hReady := isReady_of_destination? hDestination
  -- A callee has its code from before, or from the batch itself: bodies may call each other.
  rcases isReady_joined.mp hReady with hOld | hNew
  · obtain ⟨-, -, code, -, -, hCode, -⟩ := hCoherent.code hOld
    refine ⟨code, ?_, by simpa using List.find?_some hCode⟩
    rw [h.codes_eq]
    exact List.mem_append_left _ (List.mem_of_find?_eq_some hCode)
  · obtain ⟨other, hOther, rfl, hCode⟩ := h.code?_of_mem hPlans hCoherent hNew
    exact ⟨_, List.mem_of_find?_eq_some hCode, rfl⟩

theorem Extends.coherent (h : backend.Extends image batch table) (hRegular : image.Regular)
    (hPlans : backend.Plans image batch) (hCoherent : backend.Coherent image) :
    ({ backend.joined batch with table := table.linkAll } : Backend).Coherent image where
  code := by
    intro f hReady
    -- Old code keeps its targets; new code gets them when the table is linked.
    rcases isReady_joined.mp hReady with hOld | hNew
    · obtain ⟨entry, body, code, hGet, hBody, hCode, hFits⟩ := hCoherent.code hOld
      refine ⟨entry, body, code, hGet, hBody, h.code?_of_found hCoherent hCode, hFits.body_eq,
        fun g hg => ?_, hFits.target_none⟩
      obtain ⟨target, hDestination, hTarget⟩ := hFits.target g hg
      exact ⟨target, destination?_joined hPlans hCoherent hDestination, hTarget⟩
    · obtain ⟨item, hItem, rfl, hCode⟩ := h.code?_of_mem hPlans hCoherent hNew
      obtain ⟨hGet, hBody⟩ := hPlans.items.1 item hItem
      refine ⟨item.entry, item.body, table.link (codeFor (backend.batchSymbol image batch) item),
        hGet, hBody, ?_, CodeTable.body_link table _,
        fun g hg => h.target?_link hRegular hPlans hCoherent hItem hg,
        fun g hg => target?_link_codeFor_of_notMem table item hg⟩
      exact (table.code?_linkAll item.func).trans (congrArg (Option.map table.link) hCode)
  link hLookup := by
    obtain ⟨decl, hGet, hBody, hFits⟩ := hPlans.link hLookup
    refine ⟨decl, hGet, hBody, ?_⟩
    cases hFits with
    | function hReady hTarget hArity => exact .function hReady hTarget hArity
    | host hArity => exact .host hArity
  made := by
    intro code hCode
    obtain ⟨unlinked, hMem, rfl⟩ := List.mem_map.mp hCode
    obtain ⟨hReady, entry, hGet, hSymbol⟩ := h.made hPlans hCoherent unlinked hMem
    rw [CodeTable.func_link, CodeTable.symbol_link]
    exact ⟨table.isLinked_link unlinked, hReady, entry, hGet, hSymbol⟩
  known := h.knows

end Extended

/-- In a regular image a planned batch compiles, and what is settled stays coherent. -/
theorem compileBatch_ok (hRegular : image.Regular) (hCoherent : backend.Coherent image)
    (hPlans : backend.Plans image batch) :
    ∃ after : Backend, backend.compileBatch image batch = (.ok (), after) ∧
      after.compiled = backend.compiled ++ batch.bodies ∧
      after.links = backend.links ++ batch.links ∧ after.Coherent image := by
  obtain ⟨table, hExtends, hGenerate⟩ := hPlans.exists_table hRegular hCoherent
  exact ⟨_, by rw [compileBatch_eq, hGenerate], rfl, rfl, hExtends.coherent hRegular hPlans hCoherent⟩

end Backend

end LiveCompiler
