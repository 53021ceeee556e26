import LiveCompiler.Proofs.Pass.Substitution
import LiveCompiler.Proofs.Program.Mirror
import LiveCompiler.Proofs.Program.Generation

/-!
# Linked code lasts

Nothing that is done to a backend changes code that is linked, whatever the image looks like and
however a request ends.  A request may fail after some code was made, and that code stays in the
table; but it is not linked then, so no code that is ready leads to it.

`Backend.Lasting` says that ready functions have linked code and that linked code calls linked
code only.  Requests keep this and keep all linked code (`persists_makeReady`); so what is ready
runs the same way ever after (`Precedes.invoke_eq`).
-/

namespace LiveCompiler

open Ir

namespace CodeTable

variable {table after final : CodeTable}

/-- Linked code of a table is found unchanged in another one. -/
def Keeps (table after : CodeTable) : Prop :=
  ∀ ⦃f code⦄, table.code? f = some code → code.isLinked = true → after.code? f = some code

/-- Linked code calls only code that is found and linked. -/
def CallsLinked (table : CodeTable) : Prop :=
  ∀ ⦃f code⦄, table.code? f = some code → code.isLinked = true → ∀ ⦃g target⦄,
    code.target? g = some (.code target) →
      ∃ callee, table.code? target = some callee ∧ callee.isLinked = true

/-- A table with more code, which is not linked. -/
def Appends (table after : CodeTable) : Prop :=
  ∃ new, after.codes = table.codes ++ new ∧ ∀ code ∈ new, code.isLinked = false

theorem Keeps.refl (table : CodeTable) : table.Keeps table :=
  fun _ _ hFound _ => hFound

theorem Keeps.trans (h : table.Keeps after) (hNext : after.Keeps final) : table.Keeps final :=
  fun _ _ hFound hLinked => hNext (h hFound hLinked) hLinked

theorem Appends.of_codes_eq (h : after.codes = table.codes) : table.Appends after :=
  ⟨[], by rw [h, List.append_nil], List.forall_mem_nil _⟩

theorem Appends.trans (h : table.Appends after) (hNext : after.Appends final) :
    table.Appends final := by
  obtain ⟨new, hCodes, hNew⟩ := h
  obtain ⟨more, hFinal, hMore⟩ := hNext
  refine ⟨new ++ more, by rw [hFinal, hCodes, List.append_assoc], fun code hCode => ?_⟩
  exact (List.mem_append.mp hCode).elim (hNew code) (hMore code)

theorem Appends.code?_of_found (h : table.Appends after) {f : FuncId} {code : Code}
    (hFound : table.code? f = some code) : after.code? f = some code := by
  obtain ⟨new, hCodes, -⟩ := h
  rw [code?] at hFound ⊢
  rw [hCodes, List.find?_append, hFound, Option.some_or]

theorem Appends.keeps (h : table.Appends after) : table.Keeps after :=
  fun _ _ hFound _ => h.code?_of_found hFound

/-- Linked code that is found was found before. -/
theorem Appends.code?_of_isLinked (h : table.Appends after) {f : FuncId} {code : Code}
    (hFound : after.code? f = some code) (hLinked : code.isLinked = true) :
    table.code? f = some code := by
  obtain ⟨new, hCodes, hNew⟩ := h
  rw [code?, hCodes, List.find?_append] at hFound
  rw [code?]
  cases hOld : table.codes.find? fun code => code.func == f with
  | some old => rwa [hOld, Option.some_or] at hFound
  | none =>
    rw [hOld, Option.none_or] at hFound
    rw [hNew code (List.mem_of_find?_eq_some hFound)] at hLinked
    cases hLinked

theorem Appends.callsLinked (h : table.Appends after) (hCalls : table.CallsLinked) :
    after.CallsLinked := by
  intro f code hFound hLinked g target hTarget
  obtain ⟨callee, hCallee, hCalleeLinked⟩ :=
    hCalls (h.code?_of_isLinked hFound hLinked) hLinked hTarget
  exact ⟨callee, h.code?_of_found hCallee, hCalleeLinked⟩

theorem keeps_linkAll (table : CodeTable) : table.Keeps table.linkAll :=
  fun _ _ hFound hLinked => table.code?_linkAll_of_isLinked hFound hLinked

theorem exists_code?_linkAll {f : FuncId} {code : Code} (hFound : table.code? f = some code) :
    ∃ linked, table.linkAll.code? f = some linked ∧ linked.isLinked = true :=
  ⟨table.link code, by rw [code?_linkAll, hFound, Option.map_some], table.isLinked_link code⟩

/-- A target that a table settles is in the table. -/
theorem exists_code?_of_target? {symbol : String} {f : FuncId}
    (h : table.target? symbol = some (.code f)) : ∃ code, table.code? f = some code := by
  unfold target? at h
  split at h
  · rename_i code hUnder
    obtain rfl := CallTarget.code.inj (Option.some.inj h)
    refine Option.isSome_iff_exists.mp (List.find?_isSome.mpr ⟨code, ?_, beq_self_eq_true _⟩)
    exact List.mem_of_find?_eq_some hUnder
  · obtain ⟨host, -, hHost⟩ := Option.map_eq_some_iff.mp h
    cases hHost

/-- After linking, all code that calls lead to is linked. -/
theorem CallsLinked.linkAll (h : table.CallsLinked) : table.linkAll.CallsLinked := by
  intro f code hFound _ g target hTarget
  rw [code?_linkAll] at hFound
  obtain ⟨old, hOld, rfl⟩ := Option.map_eq_some_iff.mp hFound
  -- Code that was linked before calls what was found before; the targets of the rest are looked up
  -- in the table itself.
  have hCallee : ∃ callee, table.code? target = some callee := by
    cases hLinked : old.isLinked with
    | true =>
      rw [table.link_of_isLinked hLinked] at hTarget
      obtain ⟨callee, hCallee, -⟩ := h hOld hLinked hTarget
      exact ⟨callee, hCallee⟩
    | false =>
      rw [link, if_neg (by simp [hLinked]), Code.target?, Option.bind_some] at hTarget
      obtain ⟨⟨callee, symbol⟩, -, hMap⟩ := List.mem_filterMap.mp (mem_of_lookup hTarget)
      obtain ⟨found, hSymbol, hPair⟩ := Option.map_eq_some_iff.mp hMap
      obtain ⟨-, rfl⟩ := Prod.mk.inj hPair
      exact exists_code?_of_target? hSymbol
  obtain ⟨callee, hCallee⟩ := hCallee
  exact exists_code?_linkAll hCallee

theorem appends_declare {symbol : NativeSymbol} (h : table.declare symbol = .ok after) :
    table.Appends after := by
  unfold declare at h
  split at h
  · split at h
    · exact Except.ok.inj h ▸ .of_codes_eq rfl
    · cases h
  · exact Except.ok.inj h ▸ .of_codes_eq rfl

end CodeTable

namespace Backend

/-! ## Steps on the code table -/

/-- The table that a step leaves, whether it succeeds or not. -/
def TableResult.table : TableResult → CodeTable
  | .ok table => table
  | .error (_, table) => table

variable {symbolOf : FuncId → Except CodeError NativeSymbol} {table : CodeTable}

theorem appends_declareAll (items : List BatchItem) :
    table.Appends (TableResult.table (declareAll table items)) := by
  induction items generalizing table with
  | nil => exact .of_codes_eq rfl
  | cons item rest ih =>
    rw [declareAll]
    split
    · exact .of_codes_eq rfl
    · rename_i next hDeclare
      exact (CodeTable.appends_declare hDeclare).trans ih

theorem appends_declareCallees (callees : List FuncId) :
    table.Appends (TableResult.table (declareCallees symbolOf table callees)) := by
  induction callees generalizing table with
  | nil => exact .of_codes_eq rfl
  | cons f rest ih =>
    rw [declareCallees]
    split
    · exact .of_codes_eq rfl
    · rename_i next hDeclare
      cases hSymbol : symbolOf f with
      | error e =>
        rw [hSymbol] at hDeclare
        cases hDeclare
      | ok symbol =>
        rw [hSymbol] at hDeclare
        exact (CodeTable.appends_declare hDeclare).trans ih

theorem appends_checkAll (items : List BatchItem) :
    table.Appends (TableResult.table (checkAll symbolOf table items)) := by
  induction items generalizing table with
  | nil => exact .of_codes_eq rfl
  | cons item rest ih =>
    have hFirst := @appends_declareCallees symbolOf table (calleesOf item.body)
    rw [checkAll]
    cases hDeclare : declareCallees symbolOf table (calleesOf item.body) with
    | error failed =>
      rw [hDeclare] at hFirst
      exact hFirst
    | ok next =>
      rw [hDeclare] at hFirst
      cases hCheck : checkBody item.entry item.body with
      | error e => exact hFirst
      | ok _ => exact hFirst.trans ih

theorem appends_defineAll (items : List BatchItem) :
    table.Appends (TableResult.table (defineAll symbolOf table items)) := by
  induction items generalizing table with
  | nil => exact .of_codes_eq rfl
  | cons item rest ih =>
    simp only [defineAll]
    split
    · exact .of_codes_eq rfl
    · split
      · refine CodeTable.Appends.trans ⟨[codeFor symbolOf item], rfl, fun code hCode => ?_⟩ ih
        obtain rfl := List.mem_singleton.mp hCode
        rfl
      · exact .of_codes_eq rfl

/-- Where all code is made, every body has some. -/
theorem exists_code?_of_defineAll (items : List BatchItem) {after : CodeTable}
    (h : defineAll symbolOf table items = .ok after) :
    ∀ item ∈ items, ∃ code, after.code? item.func = some code := by
  induction items generalizing table with
  | nil => exact List.forall_mem_nil _
  | cons item rest ih =>
    simp only [defineAll] at h
    split at h
    · cases h
    · split at h
      · intro other hOther
        rcases List.mem_cons.mp hOther with rfl | hOther
        · have hRest := @appends_defineAll symbolOf (table.add (codeFor symbolOf other)) rest
          rw [h] at hRest
          have hAdded : ∃ code, (table.add (codeFor symbolOf other)).code? other.func = some code :=
            Option.isSome_iff_exists.mp (List.find?_isSome.mpr
              ⟨codeFor symbolOf other, List.mem_append_right _ (List.mem_singleton_self _),
                beq_self_eq_true _⟩)
          obtain ⟨code, hCode⟩ := hAdded
          exact ⟨code, hRest.code?_of_found hCode⟩
        · exact ih h other hOther
      · cases h

variable {backend after final : Backend} {image : Image} {f : FuncId} {batch : Batch}

theorem appends_generate (backend : Backend) (image : Image) (batch : Batch) :
    backend.table.Appends (TableResult.table (backend.generate image batch)) := by
  have hDeclare := @appends_declareAll backend.table (batchItems image batch.bodies)
  unfold generate
  cases hDeclared : declareAll backend.table (batchItems image batch.bodies) with
  | error failed =>
    rw [hDeclared] at hDeclare
    exact hDeclare
  | ok declared =>
    rw [hDeclared] at hDeclare
    have hCheck := @appends_checkAll (backend.batchSymbol image batch) declared
      (batchItems image batch.bodies)
    rw [bind_ok]
    cases hChecked : checkAll (backend.batchSymbol image batch) declared
        (batchItems image batch.bodies) with
    | error failed =>
      rw [hChecked] at hCheck
      exact hDeclare.trans hCheck
    | ok checked =>
      rw [hChecked] at hCheck
      rw [bind_ok]
      exact (hDeclare.trans hCheck).trans (appends_defineAll _)

theorem exists_code?_of_generate {table : CodeTable}
    (h : backend.generate image batch = .ok table) :
    ∀ item ∈ batchItems image batch.bodies, ∃ code, table.code? item.func = some code := by
  unfold generate at h
  cases hDeclared : declareAll backend.table (batchItems image batch.bodies) with
  | error failed =>
    rw [hDeclared] at h
    cases h
  | ok declared =>
    rw [hDeclared, bind_ok] at h
    cases hChecked : checkAll (backend.batchSymbol image batch) declared
        (batchItems image batch.bodies) with
    | error failed =>
      rw [hChecked] at h
      cases h
    | ok checked =>
      rw [hChecked, bind_ok] at h
      exact exists_code?_of_defineAll _ h

/-! ## Backends -/

/-- Ready functions have linked code, and linked code calls linked code only. -/
structure Lasting (backend : Backend) : Prop where
  ready : ∀ {f}, backend.isReady f = true →
    ∃ code, backend.table.code? f = some code ∧ code.isLinked = true
  calls : backend.table.CallsLinked

/-- What is ready and what is linked in one backend is so in another one. -/
structure Precedes (backend after : Backend) : Prop where
  ready : ∀ {f}, backend.isReady f = true → after.isReady f = true
  keeps : backend.table.Keeps after.table

theorem Precedes.refl (backend : Backend) : backend.Precedes backend :=
  ⟨id, .refl _⟩

theorem Precedes.trans (h : backend.Precedes after) (hNext : after.Precedes final) :
    backend.Precedes final :=
  ⟨fun hReady => hNext.ready (h.ready hReady), h.keeps.trans hNext.keeps⟩

/-- Functions that are ready have a body in the image. -/
def ReadyIn (backend : Backend) (image : Image) : Prop :=
  ∀ ⦃f⦄, backend.isReady f = true → HasBody image f

/-- What a backend keeps that a request leaves, and what it keeps up. -/
structure Persists (backend : Backend) (image : Image) (after : Backend) : Prop where
  lasting : after.Lasting
  readyIn : after.ReadyIn image
  precedes : backend.Precedes after

theorem persists_table (hLasting : backend.Lasting) (hReady : backend.ReadyIn image)
    {table : CodeTable} (hAppends : backend.table.Appends table) :
    backend.Persists image { backend with table := table } where
  lasting :=
    { ready := fun h =>
        let ⟨code, hCode, hLinked⟩ := hLasting.ready h
        ⟨code, hAppends.code?_of_found hCode, hLinked⟩
      calls := hAppends.callsLinked hLasting.calls }
  readyIn := hReady
  precedes := ⟨id, hAppends.keeps⟩

/-- The bodies of a batch that the search has found are bodies of the image. -/
theorem hasBody_of_searchBatch {root : FuncId} (h : backend.searchBatch image root = .ok batch) :
    ∀ f ∈ batch.bodies, HasBody image f := by
  have hEnds := ends_searchBatch backend image root
  rw [h] at hEnds
  cases hEnds with
  | found hExplores _ => exact fun f hf => ((hExplores.mem_bodies f).mp hf).2.2

theorem exists_item_of_mem {bodies : List FuncId} (hf : f ∈ bodies) (hBody : HasBody image f) :
    ∃ item ∈ batchItems image bodies, item.func = f := by
  obtain ⟨entry, hGet, hSome⟩ := hBody
  obtain ⟨body, hBody⟩ := Option.isSome_iff_exists.mp hSome
  refine ⟨⟨f, entry, body⟩, List.mem_filterMap.mpr ⟨f, hf, ?_⟩, rfl⟩
  rw [hGet, Option.bind_some, hBody, Option.map_some]

theorem persists_compileBatch (hLasting : backend.Lasting) (hReady : backend.ReadyIn image)
    (hBodies : ∀ f ∈ batch.bodies, HasBody image f) :
    backend.Persists image (backend.compileBatch image batch).2 := by
  have hAppends := appends_generate backend image batch
  rw [compileBatch_eq]
  cases hGenerate : backend.generate image batch with
  | error failed =>
    rw [hGenerate] at hAppends
    exact persists_table hLasting hReady hAppends
  | ok table =>
    rw [hGenerate] at hAppends
    have hAppends : backend.table.Appends table := hAppends
    have hSplit : ∀ {f}, (backend.joined batch).isReady f = true →
        backend.isReady f = true ∨ f ∈ batch.bodies := by
      intro f h
      simpa [isReady, joined] using h
    refine ⟨⟨fun {f} h => ?_, (hAppends.callsLinked hLasting.calls).linkAll⟩, fun f h => ?_,
      fun {f} h => ?_, hAppends.keeps.trans table.keeps_linkAll⟩
    · rcases hSplit h with hOld | hNew
      · obtain ⟨code, hCode, -⟩ := hLasting.ready hOld
        exact CodeTable.exists_code?_linkAll (hAppends.code?_of_found hCode)
      · obtain ⟨item, hItem, rfl⟩ := exists_item_of_mem hNew (hBodies f hNew)
        obtain ⟨code, hCode⟩ := exists_code?_of_generate hGenerate item hItem
        exact CodeTable.exists_code?_linkAll hCode
    · exact (hSplit h).elim (fun hOld => hReady hOld) (hBodies f)
    · have hOld : f ∈ backend.compiled := List.contains_iff_mem.mp h
      exact List.contains_iff_mem.mpr (List.mem_append_left batch.bodies hOld)

/-- A request keeps what is ready and what is linked, however it ends. -/
theorem persists_makeReady (hLasting : backend.Lasting) (hReady : backend.ReadyIn image)
    (f : FuncId) : backend.Persists image (backend.makeReady image f).2 := by
  have hSame : backend.Persists image backend := ⟨hLasting, hReady, .refl backend⟩
  unfold makeReady
  split
  -- Only compiling changes anything, and it may leave new code behind even where it fails.
  · exact hSame
  · split
    · exact hSame
    · split
      · exact hSame
      · split
        · exact hSame
        · rename_i batch hSearch
          exact persists_compileBatch hLasting hReady (hasBody_of_searchBatch hSearch)

/-- What is ready is made ready again at no cost. -/
theorem makeReady_again (hReady : backend.ReadyIn image) (h : backend.isReady f = true) :
    backend.makeReady image f = (.ok { func := f }, backend) := by
  obtain ⟨entry, hGet, hSome⟩ := hReady h
  have hDecl : ¬ entry.isDeclaration = true := by
    simp [Entry.isDeclaration, Option.isSome_iff_ne_none.mp hSome]
  simp only [makeReady, hGet, if_neg hDecl, if_pos h]

/-! ## Runs -/

/-- Linked code of a table, on both sides of what is done later. -/
def SameLinked (table : CodeTable) (code other : Code) : Prop :=
  other = code ∧ code.isLinked = true ∧ ∃ f, table.code? f = some code

/-- Linked code calls the same code now and later. -/
theorem lockstep_of_precedes (hLasting : backend.Lasting) (h : backend.Precedes after) :
    Lockstep id backend.table after.table (SameLinked backend.table) where
  body := by
    rintro code _ ⟨rfl, -⟩
    exact Body.mirrors_id _
  callee := by
    rintro code _ ⟨rfl, hLinked, f, hFound⟩ g
    unfold CodeTable.callee?
    rw [id_eq]
    cases hTarget : Code.target? _ g with
    | none => exact .none
    | some target =>
      cases target with
      | host h => exact .host h
      | code t =>
        obtain ⟨callee, hCallee, hCalleeLinked⟩ := hLasting.calls hFound hLinked hTarget
        simp only [hCallee, h.keeps hCallee hCalleeLinked, Option.map_some]
        exact .code ⟨rfl, hCalleeLinked, t, hCallee⟩

/-- A function that is ready runs the same way ever after. -/
theorem Precedes.invoke_eq (h : backend.Precedes after) (hLasting : backend.Lasting)
    (hReady : backend.isReady f = true) (limit : Nat) :
    after.invoke limit { func := f } = backend.invoke limit { func := f } := by
  obtain ⟨code, hCode, hLinked⟩ := hLasting.ready hReady
  have hRun := (lockstep_of_precedes hLasting h).run_eq ⟨rfl, hLinked, f, hCode⟩ limit
  simp only [invoke, readyCode?, if_pos hReady, if_pos (h.ready hReady), hCode,
    h.keeps hCode hLinked, hRun]

end Backend

end LiveCompiler
