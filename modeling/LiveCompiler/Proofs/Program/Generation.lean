import LiveCompiler.Proofs.Program.Search

/-!
# The steps of code generation

In a regular image no step on the code table refuses anything: declaring the symbols of bodies
and of called functions adds known symbols and no code (`declareAll_ok`, `checkAll_ok`), all
checks of a body pass, and the code that is made comes behind the code there was
(`defineAll_ok`).  What the steps need to know about called functions is that each of them has
a symbol that takes as many values as the function (`Symbolises`).
-/

namespace LiveCompiler

open Ir

variable {image : Image} {table : CodeTable}

/-! ## Declaring symbols -/

namespace CodeTable

/-- Every symbol of the table is the symbol of a function of the image or of the host. -/
def Knows (table : CodeTable) (image : Image) : Prop :=
  ∀ symbol ∈ table.symbols, ∃ target, image.Names target symbol

/-- Declaring a symbol of the image succeeds and leaves the code alone. -/
theorem declare_ok (hRegular : image.Regular) (hKnows : table.Knows image) {target : CallTarget}
    {symbol : NativeSymbol} (hNames : image.Names target symbol) :
    ∃ after, table.declare symbol = .ok after ∧ after.Knows image ∧
      after.codes = table.codes := by
  unfold declare
  split
  · rename_i known hFind
    obtain ⟨other, hOther⟩ := hKnows known (List.mem_of_find?_eq_some hFind)
    have hName : known.name = symbol.name := by simpa using List.find?_some hFind
    -- One name stands for one symbol, so the known one has the same number of arguments.
    obtain ⟨-, rfl⟩ := hRegular.names_unique hOther hNames hName
    exact ⟨table, if_pos rfl, hKnows, rfl⟩
  · refine ⟨_, rfl, fun known hMem => ?_, rfl⟩
    rcases List.mem_append.mp hMem with hMem | hMem
    · exact hKnows known hMem
    · exact List.mem_singleton.mp hMem ▸ ⟨target, hNames⟩

end CodeTable

namespace Backend

variable {symbolOf : FuncId → Except CodeError NativeSymbol}

/-- A symbol for a called function: it names something, and takes as many values as the entry
of the function. -/
def Symbolises (image : Image) (symbolOf : FuncId → Except CodeError NativeSymbol) (f : FuncId) :
    Prop :=
  ∃ target symbol, symbolOf f = .ok symbol ∧ image.Names target symbol ∧
    ∀ entry, image.get? f = some entry → symbol.arity = entry.arity

/-- A body of the image, with its entry. -/
structure BatchItem.InImage (image : Image) (item : BatchItem) : Prop where
  get : image.get? item.func = some item.entry
  body_eq : item.entry.body = some item.body

theorem declareAll_ok (hRegular : image.Regular) (items : List BatchItem)
    (hItems : ∀ item ∈ items, item.InImage image) (hKnows : table.Knows image) :
    ∃ after, declareAll table items = .ok after ∧ after.Knows image ∧
      after.codes = table.codes := by
  induction items generalizing table with
  | nil => exact ⟨table, rfl, hKnows, rfl⟩
  | cons item rest ih =>
    obtain ⟨next, hDeclare, hNext, hCodes⟩ :=
      table.declare_ok hRegular hKnows (.code (hItems item List.mem_cons_self).get)
    obtain ⟨after, hAfter, hKnown, hSame⟩ :=
      ih (fun other hOther => hItems other (List.mem_cons_of_mem item hOther)) hNext
    refine ⟨after, ?_, hKnown, hSame.trans hCodes⟩
    rw [declareAll, hDeclare]
    exact hAfter

theorem declareCallees_ok (hRegular : image.Regular) (callees : List FuncId)
    (hCallees : ∀ f ∈ callees, Symbolises image symbolOf f) (hKnows : table.Knows image) :
    ∃ after, declareCallees symbolOf table callees = .ok after ∧ after.Knows image ∧
      after.codes = table.codes := by
  induction callees generalizing table with
  | nil => exact ⟨table, rfl, hKnows, rfl⟩
  | cons f rest ih =>
    obtain ⟨target, symbol, hSymbol, hNames, -⟩ := hCallees f List.mem_cons_self
    obtain ⟨next, hDeclare, hNext, hCodes⟩ := table.declare_ok hRegular hKnows hNames
    obtain ⟨after, hAfter, hKnown, hSame⟩ :=
      ih (fun g hg => hCallees g (List.mem_cons_of_mem f hg)) hNext
    refine ⟨after, ?_, hKnown, hSame.trans hCodes⟩
    have hFirst : (symbolOf f >>= table.declare) = .ok next := by
      rw [hSymbol]
      exact hDeclare
    rw [declareCallees, hFirst]
    exact hAfter

/-! ## Checks -/

theorem forM_ok {α : Type} {check : α → Except CodeError Unit} {items : List α}
    (h : ∀ a ∈ items, check a = .ok ()) : items.forM check = .ok () := by
  induction items with
  | nil => rfl
  | cons a rest ih =>
    have hRest := ih fun b hb => h b (List.mem_cons_of_mem a hb)
    change (check a >>= fun _ => rest.forM check) = .ok ()
    rw [h a List.mem_cons_self]
    exact hRest

theorem checkLabel_ok {body : Body} {label : Label} (h : label < body.blocks.length) :
    checkLabel body label = .ok () :=
  if_pos h

theorem checkBlock_ok {body : Body} {arity : Nat} (hFits : body.Fits arity) {b : Block}
    (hb : b ∈ body.blocks) : checkBlock body b = .ok () := by
  have hInstrs : b.instrs.forM (checkInstr body) = .ok () := by
    refine forM_ok fun i hi => ?_
    cases i with
    | param dst index => exact if_pos (hFits.param_lt b hb dst index hi)
    | _ => rfl
  have hLabels : b.terminator.successors.forM (checkLabel body) = .ok () := by
    refine forM_ok fun label hLabel => ?_
    obtain ⟨e, he, rfl⟩ := List.mem_map.mp hLabel
    exact checkLabel_ok (hFits.edge_fits b hb e he).1
  rw [checkBlock, hInstrs]
  exact hLabels

theorem checkBody_ok {body : Body} {entry : Entry} (hFits : body.Fits entry.arity) :
    checkBody entry body = .ok () := by
  have hBlocks : body.blocks.forM (checkBlock body) = .ok () :=
    forM_ok fun b hb => checkBlock_ok hFits hb
  have hArity : ¬ body.arity ≠ entry.arity := fun h => h hFits.arity_eq
  rw [checkBody, if_neg hArity, checkLabel_ok hFits.entry_lt]
  exact hBlocks

theorem checkAll_ok (hRegular : image.Regular) (items : List BatchItem)
    (hItems : ∀ item ∈ items, item.InImage image)
    (hCallees : ∀ item ∈ items, ∀ f ∈ calleesOf item.body, Symbolises image symbolOf f)
    (hKnows : table.Knows image) :
    ∃ after, checkAll symbolOf table items = .ok after ∧ after.Knows image ∧
      after.codes = table.codes := by
  induction items generalizing table with
  | nil => exact ⟨table, rfl, hKnows, rfl⟩
  | cons item rest ih =>
    obtain ⟨next, hNext, hKnown, hCodes⟩ := declareCallees_ok hRegular (calleesOf item.body)
      (hCallees item List.mem_cons_self) hKnows
    obtain ⟨after, hAfter, hKnown, hSame⟩ :=
      ih (fun other hOther => hItems other (List.mem_cons_of_mem item hOther))
        (fun other hOther => hCallees other (List.mem_cons_of_mem item hOther)) hKnown
    refine ⟨after, ?_, hKnown, hSame.trans hCodes⟩
    have hItem := hItems item List.mem_cons_self
    have hCheck := checkBody_ok (hRegular.fits hItem.get hItem.body_eq)
    rw [checkAll, hNext, hCheck]
    exact hAfter

/-- Calls and edges of a body of the image pass the right numbers of values. -/
theorem valuesFit_of_regular (hRegular : image.Regular) {item : BatchItem}
    (hItem : item.InImage image)
    (hCallees : ∀ f ∈ calleesOf item.body, Symbolises image symbolOf f ∧
      ∃ entry, image.get? f = some entry) :
    valuesFit symbolOf item.body = true := by
  have hFits := hRegular.fits hItem.get hItem.body_eq
  have hCall : ∀ b ∈ item.body.blocks, ∀ i ∈ b.instrs, callFits symbolOf i = true := by
    intro b hb i hi
    cases i with
    | call dst callee args =>
      obtain ⟨⟨target, symbol, hSymbol, -, hArity⟩, entry, hGet⟩ :=
        hCallees callee (mem_calleesOf.mpr ⟨b, hb, dst, args, hi⟩)
      have hLength := hRegular.calls_fit hItem.get hItem.body_eq b hb dst callee args hi entry hGet
      simp [callFits, hSymbol, hLength, hArity entry hGet]
    | _ => rfl
  have hEdge : ∀ b ∈ item.body.blocks, ∀ e ∈ b.terminator.edges,
      edgeFits item.body e = true := fun b hb e he =>
    beq_iff_eq.mpr (hFits.edge_fits b hb e he).2
  simp only [valuesFit, hFits.entry_params, List.isEmpty_nil, Bool.true_and, List.all_eq_true,
    Bool.and_eq_true]
  exact fun b hb => ⟨hCall b hb, hEdge b hb⟩

/-! ## Making code -/

/-- With fresh symbols, the code of all bodies comes behind the code there was. -/
theorem defineAll_ok (items : List BatchItem)
    (hFits : ∀ item ∈ items, valuesFit symbolOf item.body = true)
    (hFresh : ∀ item ∈ items, ∀ code ∈ table.codes, code.symbol ≠ item.entry.symbol)
    (hDistinct : items.Pairwise fun item other => item.entry.symbol ≠ other.entry.symbol) :
    defineAll symbolOf table items =
      .ok { table with codes := table.codes ++ items.map (codeFor symbolOf) } := by
  induction items generalizing table with
  | nil => simp [defineAll]
  | cons item rest ih =>
    obtain ⟨hFirst, hRest⟩ := List.pairwise_cons.mp hDistinct
    have hUnder : ¬ (table.codeUnder? item.entry.symbol).isSome = true := by
      rw [CodeTable.codeUnder?, List.find?_isSome]
      rintro ⟨code, hCode, hSymbol⟩
      exact hFresh item List.mem_cons_self code hCode (eq_of_beq hSymbol)
    -- The code that is added takes no symbol from the bodies that are left.
    have hAdd := @ih (table.add (codeFor symbolOf item))
      (fun other hOther => hFits other (List.mem_cons_of_mem item hOther))
      (fun other hOther code hCode => by
        rcases List.mem_append.mp hCode with hCode | hCode
        · exact hFresh other (List.mem_cons_of_mem item hOther) code hCode
        · obtain rfl := List.mem_singleton.mp hCode
          exact hFirst other hOther)
      hRest
    simp only [defineAll]
    rw [if_neg hUnder, if_pos (hFits item List.mem_cons_self), hAdd]
    simp [CodeTable.add]

/-! ## All steps -/

/-- The functions and links that count once a batch is compiled. -/
def joined (backend : Backend) (batch : Batch) : Backend where
  compiled := backend.compiled ++ batch.bodies
  links := backend.links ++ batch.links
  table := backend.table

/-- The symbols that calls name while a batch is compiled. -/
def batchSymbol (backend : Backend) (image : Image) (batch : Batch) :
    FuncId → Except CodeError NativeSymbol :=
  symbolIn image (batch.bodies ++ backend.compiled) (backend.links ++ batch.links)

/-- The steps that compiling a batch takes on the code table. -/
def generate (backend : Backend) (image : Image) (batch : Batch) : TableResult :=
  declareAll backend.table (batchItems image batch.bodies) >>= fun table =>
    checkAll (backend.batchSymbol image batch) table (batchItems image batch.bodies) >>= fun table =>
      defineAll (backend.batchSymbol image batch) table (batchItems image batch.bodies)

theorem compileBatch_eq (backend : Backend) (image : Image) (batch : Batch) :
    backend.compileBatch image batch =
      match backend.generate image batch with
      | .ok table => (.ok (), { backend.joined batch with table := table.linkAll })
      | .error (e, table) => (.error e, { backend with table := table }) :=
  rfl

theorem bind_ok {ε α β : Type} (a : α) (next : α → Except ε β) :
    ((.ok a : Except ε α) >>= next) = next a :=
  rfl

end Backend

end LiveCompiler
