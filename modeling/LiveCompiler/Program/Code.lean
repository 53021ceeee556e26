import LiveCompiler.Program.CodeError
import LiveCompiler.Program.HostFunction

/-!
# The code table

The code generator knows functions by symbols.  A symbol has one number of arguments and at
most one body.  The calls of a body name symbols; where they end up is settled when the
code is linked: in the body under the symbol if there is one, else in the host function
that is known by it.

Code is linked once (`link_of_isLinked`).  A body that takes a symbol later on is found by
code that is linked after it, and changes nothing for code that was linked before.
-/

namespace LiveCompiler

open Ir

/-- A symbol of the code generator and its number of arguments. -/
structure NativeSymbol where
  name : String
  arity : Nat
deriving DecidableEq, Repr

/-- Where a call ends up. -/
inductive CallTarget where
  | code (f : FuncId)
  | host (h : HostFunction)
deriving DecidableEq, Repr

/-- The code of a function. -/
structure Code where
  func : FuncId
  symbol : String
  body : Body
  /-- The symbol that stands for each called function. -/
  callSymbols : List (FuncId × String)
  /-- Where the calls end up, once the code is linked. -/
  targets : Option (List (FuncId × CallTarget))

/-- Whether it is settled where the calls end up. -/
def Code.isLinked (code : Code) : Bool :=
  code.targets.isSome

/-- Where a call of linked code ends up. -/
def Code.target? (code : Code) (callee : FuncId) : Option CallTarget :=
  code.targets.bind fun targets => targets.lookup callee

/-- The symbol of a host function. -/
def HostFunction.native (h : HostFunction) : NativeSymbol where
  name := h.symbol
  arity := h.arity

/-- The host function that is known by a symbol. -/
def HostFunction.ofSymbol? (symbol : String) : Option HostFunction :=
  HostFunction.all.find? fun h => h.symbol == symbol

/-- The symbols of a code generator, and the code that it has made. -/
structure CodeTable where
  symbols : List NativeSymbol
  codes : List Code

namespace CodeTable

/-- No symbol and no code. -/
def empty : CodeTable where
  symbols := []
  codes := []

/-- The code of a function. -/
def code? (table : CodeTable) (f : FuncId) : Option Code :=
  table.codes.find? fun code => code.func == f

/-- The code under a symbol. -/
def codeUnder? (table : CodeTable) (symbol : String) : Option Code :=
  table.codes.find? fun code => code.symbol == symbol

/-- Declare a symbol.  A symbol has one number of arguments. -/
def declare (table : CodeTable) (symbol : NativeSymbol) : Except CodeError CodeTable :=
  match table.symbols.find? fun known => known.name == symbol.name with
  | some known =>
    if known.arity = symbol.arity then .ok table
    else .error (.refused (.signatureClash symbol.name))
  | none => .ok { table with symbols := table.symbols ++ [symbol] }

/-- Add code under a symbol that has none. -/
def add (table : CodeTable) (code : Code) : CodeTable :=
  { table with codes := table.codes ++ [code] }

/-! ## Linking -/

/-- Where calls of a symbol end up. -/
def target? (table : CodeTable) (symbol : String) : Option CallTarget :=
  match table.codeUnder? symbol with
  | some code => some (.code code.func)
  | none => (HostFunction.ofSymbol? symbol).map .host

/-- Settle where the calls of a code end up.  Code that is linked stays as it is. -/
def link (table : CodeTable) (code : Code) : Code :=
  if code.isLinked then code
  else
    { code with
      targets := some (code.callSymbols.filterMap fun (callee, symbol) =>
        (table.target? symbol).map fun target => (callee, target)) }

/-- Link all code. -/
def linkAll (table : CodeTable) : CodeTable :=
  { table with codes := table.codes.map table.link }

theorem link_of_isLinked (table : CodeTable) {code : Code} (h : code.isLinked = true) :
    table.link code = code := by
  simp [link, h]

@[simp] theorem isLinked_link (table : CodeTable) (code : Code) :
    (table.link code).isLinked = true := by
  unfold link
  split
  · assumption
  · rfl

@[simp] theorem func_link (table : CodeTable) (code : Code) :
    (table.link code).func = code.func := by
  unfold link
  split <;> rfl

@[simp] theorem symbol_link (table : CodeTable) (code : Code) :
    (table.link code).symbol = code.symbol := by
  unfold link
  split <;> rfl

@[simp] theorem body_link (table : CodeTable) (code : Code) :
    (table.link code).body = code.body := by
  unfold link
  split <;> rfl

/-- Linking keeps every function's place. -/
theorem code?_linkAll (table : CodeTable) (f : FuncId) :
    table.linkAll.code? f = (table.code? f).map table.link := by
  have sameFunction :
      (fun code => code.func == f) ∘ table.link = fun code : Code => code.func == f := by
    funext code
    simp
  unfold linkAll code?
  rw [List.find?_map, sameFunction]

/-- A code that is linked and found is found unchanged when all code is linked again. -/
theorem code?_linkAll_of_isLinked (table : CodeTable) {f : FuncId} {code : Code}
    (found : table.code? f = some code) (linked : code.isLinked = true) :
    table.linkAll.code? f = some code := by
  rw [code?_linkAll, found, Option.map_some, table.link_of_isLinked linked]

end CodeTable

end LiveCompiler
