import LiveCompiler.Program.Code
import LiveCompiler.Program.Image

/-!
# Making functions ready to run

A function is compiled together with all that it reaches through calls.  A call of a
declaration goes to the function that the declaration is linked to: the latest definition
of its name and arity, else the host function of that name and arity.  A link is chosen
when the declaration is first reached, and then kept.

`Backend.makeReady` finds the whole batch before it changes anything.  If the batch fails,
no function counts as compiled and no link is kept.  Only the code table keeps the symbols
that were declared, and the code that was made, before the failure.
-/

namespace LiveCompiler

open Ir

/-- What a declaration is linked to. -/
inductive Link where
  | function (f : FuncId)
  | host (h : HostFunction)
deriving DecidableEq, Repr

/-- The functions that are ready to run, what declarations were linked to, and the code. -/
structure Backend where
  compiled : List FuncId
  links : List (FuncId × Link)
  table : CodeTable

/-- A function that can be run without arguments. -/
structure Runnable where
  func : FuncId
deriving DecidableEq, Repr

/-- The symbol of an entry for the code generator. -/
def Entry.native (entry : Entry) : NativeSymbol where
  name := entry.symbol
  arity := entry.arity

/-- The functions that a body calls, in order. -/
def calleesOf (body : Body) : List FuncId :=
  body.blocks.flatMap fun b =>
    b.instrs.filterMap fun
      | .call _ callee _ => some callee
      | _ => none

namespace Backend

/-- Nothing compiled yet. -/
def empty : Backend where
  compiled := []
  links := []
  table := CodeTable.empty

/-- Whether a function is ready to run. -/
def isReady (backend : Backend) (f : FuncId) : Bool :=
  backend.compiled.contains f

/-- The number of functions that are ready to run. -/
def compiledTotal (backend : Backend) : Nat :=
  backend.compiled.length

/-! ## BatchSearch -/

/-- The latest definition with a name and arity, from a position on. -/
def lastDefinition? (name : String) (arity : Nat) (entries : List Entry) (f : FuncId) :
    Option FuncId :=
  match entries with
  | [] => none
  | entry :: rest =>
    match lastDefinition? name arity rest (f + 1) with
    | some later => some later
    | none =>
      if entry.kind = .definition ∧ entry.name = name ∧ entry.arity = arity then some f else none

/-- What a declaration is linked to when it is first reached. -/
def chooseLink (image : Image) (decl : Entry) : Except CodeError Link :=
  match lastDefinition? decl.name decl.arity image.entries 0 with
  | some f => .ok (.function f)
  | none =>
    match HostFunction.find? decl.name decl.arity with
    | some h => .ok (.host h)
    | none => .error (.unresolvedSymbol decl.name decl.arity)

/-- A batch: the bodies to compile and the links to keep, in the order of the search. -/
structure Batch where
  bodies : List FuncId
  links : List (FuncId × Link)
deriving DecidableEq, Repr

/-- The state of the search. -/
structure BatchSearch where
  /-- The functions to look at, the next one first. -/
  work : List FuncId
  seen : List FuncId
  batch : Batch

/-- Look at a function that is neither seen nor compiled. -/
def searchEntry (backend : Backend) (image : Image) (f : FuncId) (s : BatchSearch) :
    Except CodeError BatchSearch :=
  match image.get? f with
  | none => .error (.invalid (.notInImage f))
  | some entry =>
    match entry.body with
    | some body =>
      .ok { s with
        -- The last call of the body is followed first.
        work := (calleesOf body).reverse ++ s.work
        batch := { s.batch with bodies := s.batch.bodies ++ [f] } }
    | none =>
      let follow (link : Link) (s : BatchSearch) : BatchSearch :=
        match link with
        | .function target => { s with work := target :: s.work }
        | .host _ => s
      match backend.links.lookup f with
      | some link => .ok (follow link s)
      | none => do
        let link ← chooseLink image entry
        .ok (follow link { s with batch := { s.batch with links := s.batch.links ++ [(f, link)] } })

/-- Look at functions until none is left, at most so many. -/
def searchFrom (backend : Backend) (image : Image) : Nat → BatchSearch → Except CodeError Batch
  | 0, s => .ok s.batch
  | count + 1, s =>
    match s.work with
    | [] => .ok s.batch
    | f :: rest =>
      if s.seen.contains f then searchFrom backend image count { s with work := rest }
      else
        let s := { s with work := rest, seen := f :: s.seen }
        if backend.isReady f then searchFrom backend image count s
        else
          match backend.searchEntry image f s with
          | .error e => .error e
          | .ok s => searchFrom backend image count s

/-- How many functions an entry leads to: those it calls, or the one it is linked to. -/
def followCount (entry : Entry) : Nat :=
  match entry.body with
  | some body => (calleesOf body).length
  | none => 1

/-- A bound on the functions that a search looks at: the root, and what each function of
the image leads to. -/
def searchBound (image : Image) : Nat :=
  image.entries.foldr (fun entry bound => followCount entry + bound) 1

/-- The batch that makes a function ready to run. -/
def searchBatch (backend : Backend) (image : Image) (root : FuncId) : Except CodeError Batch :=
  backend.searchFrom image (searchBound image)
    { work := [root], seen := [], batch := { bodies := [], links := [] } }

/-! ## Compiling a batch -/

/-- The symbol of a function of the image. -/
def functionSymbol (image : Image) (f : FuncId) : Except CodeError NativeSymbol :=
  match image.get? f with
  | some entry => .ok entry.native
  | none => .error (.invalid (.notInImage f))

/-- The symbol that calls of a function name, with given bodies and links. -/
def symbolIn (image : Image) (bodies : List FuncId) (links : List (FuncId × Link))
    (callee : FuncId) : Except CodeError NativeSymbol :=
  if bodies.contains callee then functionSymbol image callee
  else
    match links.lookup callee with
    | none => .error (.invalid (.notPlanned callee))
    | some (.host h) => .ok h.native
    | some (.function target) =>
      if bodies.contains target then functionSymbol image target
      else .error (.invalid (.notPlanned target))

/-- Check that an edge leads to a block. -/
def checkLabel (body : Body) (label : Label) : Except CodeError Unit :=
  if label < body.blocks.length then .ok () else .error (.invalid (.unknownBlock label))

/-- Check that an instruction reads an argument that there is. -/
def checkInstr (body : Body) : Instr → Except CodeError Unit
  | .param _ index =>
    if index.toNat < body.arity then .ok () else .error (.invalid (.noParameter index))
  | _ => .ok ()

/-- Check one block. -/
def checkBlock (body : Body) (b : Block) : Except CodeError Unit := do
  b.instrs.forM (checkInstr body)
  b.terminator.successors.forM (checkLabel body)

/-- Check a body against the signature of its entry. -/
def checkBody (entry : Entry) (body : Body) : Except CodeError Unit := do
  if body.arity ≠ entry.arity then
    throw (.invalid (.arityDiffers body.name body.arity entry.arity))
  checkLabel body body.entry
  body.blocks.forM (checkBlock body)

/-- Whether an edge passes a value for each parameter of its target. -/
def edgeFits (body : Body) (e : Edge) : Bool :=
  e.args.length == (body.block e.target).params.length

/-- Whether a call passes as many values as its symbol takes. -/
def callFits (symbolOf : FuncId → Except CodeError NativeSymbol) : Instr → Bool
  | .call _ callee args =>
    match symbolOf callee with
    | .ok symbol => args.length == symbol.arity
    | .error _ => false
  | _ => true

/-- Whether all edges and calls of a body pass the right number of values.  The entry is
started without values. -/
def valuesFit (symbolOf : FuncId → Except CodeError NativeSymbol) (body : Body) : Bool :=
  (body.block body.entry).params.isEmpty &&
    body.blocks.all fun b =>
      b.instrs.all (callFits symbolOf) && b.terminator.edges.all (edgeFits body)

/-- A body of a batch with its entry. -/
structure BatchItem where
  func : FuncId
  entry : Entry
  body : Body

/-- The bodies of a batch with their entries. -/
def batchItems (image : Image) (bodies : List FuncId) : List BatchItem :=
  bodies.filterMap fun f =>
    (image.get? f).bind fun entry =>
      entry.body.map fun body => { func := f, entry := entry, body := body }

/-- The code for a body, with a symbol for each function that it calls. -/
def codeFor (symbolOf : FuncId → Except CodeError NativeSymbol) (item : BatchItem) : Code where
  func := item.func
  symbol := item.entry.symbol
  body := item.body
  callSymbols := (calleesOf item.body).filterMap fun callee =>
    match symbolOf callee with
    | .ok symbol => some (callee, symbol.name)
    | .error _ => none
  targets := none

/-- What a step on the code table comes to.  An error comes with the table as it is left. -/
abbrev TableResult :=
  Except (CodeError × CodeTable) CodeTable

/-- Declare the symbols of all bodies, so that they can call each other. -/
def declareAll (table : CodeTable) : List BatchItem → TableResult
  | [] => .ok table
  | item :: rest =>
    match table.declare item.entry.native with
    | .error e => .error (e, table)
    | .ok table => declareAll table rest

/-- Declare the symbols that calls name. -/
def declareCallees (symbolOf : FuncId → Except CodeError NativeSymbol) (table : CodeTable) :
    List FuncId → TableResult
  | [] => .ok table
  | callee :: rest =>
    match symbolOf callee >>= table.declare with
    | .error e => .error (e, table)
    | .ok table => declareCallees symbolOf table rest

/-- Check all bodies before any of them gets its code. -/
def checkAll (symbolOf : FuncId → Except CodeError NativeSymbol) (table : CodeTable) :
    List BatchItem → TableResult
  | [] => .ok table
  | item :: rest => do
    let table ← declareCallees symbolOf table (calleesOf item.body)
    match checkBody item.entry item.body with
    | .error e => .error (e, table)
    | .ok _ => checkAll symbolOf table rest

/-- Make the code of all bodies. -/
def defineAll (symbolOf : FuncId → Except CodeError NativeSymbol) (table : CodeTable) :
    List BatchItem → TableResult
  | [] => .ok table
  | item :: rest =>
    let symbol := item.entry.symbol
    -- A symbol keeps the code it got, also if a later body of the batch is refused.
    if (table.codeUnder? symbol).isSome then .error (.refused (.secondBody symbol), table)
    else if valuesFit symbolOf item.body then
      defineAll symbolOf (table.add (codeFor symbolOf item)) rest
    else .error (.refused (.wrongValueCount symbol), table)

/-- Compile a batch.  If nothing is refused, all code is linked. -/
def compileBatch (backend : Backend) (image : Image) (batch : Batch) :
    Except CodeError Unit × Backend :=
  -- Calls may go to the bodies of this batch as well as to earlier ones.
  let bodies := batch.bodies ++ backend.compiled
  let links := backend.links ++ batch.links
  let symbolOf := symbolIn image bodies links
  let items := batchItems image batch.bodies
  let made := do
    let table ← declareAll backend.table items
    let table ← checkAll symbolOf table items
    defineAll symbolOf table items
  match made with
  | .ok table =>
    (.ok (),
      { compiled := backend.compiled ++ batch.bodies, links := links, table := table.linkAll })
  | .error (e, table) => (.error e, { backend with table := table })

/-- Make a function ready to run, with all that it reaches.  Nothing is done twice. -/
def makeReady (backend : Backend) (image : Image) (f : FuncId) :
    Except CodeError Runnable × Backend :=
  match image.get? f with
  | none => (.error (.invalid (.notInImage f)), backend)
  | some entry =>
    if entry.isDeclaration then (.error (.invalid (.noBody f entry.name)), backend)
    else if backend.isReady f then (.ok { func := f }, backend)
    else
      match backend.searchBatch image f with
      | .error e => (.error e, backend)
      | .ok batch =>
        let (done, after) := backend.compileBatch image batch
        (done.map fun _ => { func := f }, after)

end Backend

end LiveCompiler
