import LiveCompiler.Ir.Listing
import LiveCompiler.Program.Symbols

/-!
# The program image

The image lists every function that a session ever accepted.  It only grows: a function
keeps its position and its content, also when its name is bound anew.
-/

namespace LiveCompiler

open Ir

/-- One function of the image. -/
structure Entry where
  name : String
  /-- The name for the code generator, one of its own for each entry. -/
  symbol : String
  arity : Nat
  kind : FunctionKind
  body : Option Body

/-- Whether an entry has no body. -/
def Entry.isDeclaration (entry : Entry) : Bool :=
  entry.body.isNone

/-- The functions accepted so far, in order. -/
structure Image where
  entries : List Entry

namespace Image

/-- No function yet. -/
def empty : Image where
  entries := []

/-- The number of functions. -/
def size (image : Image) : Nat :=
  image.entries.length

/-- The function at a position. -/
def get? (image : Image) (f : FuncId) : Option Entry :=
  image.entries[f]?

/-- The position of the function that comes next. -/
def next (image : Image) : FuncId :=
  image.size

/-- Add a function; it gets the position `next`. -/
def push (image : Image) (entry : Entry) : Image where
  entries := image.entries ++ [entry]

@[simp] theorem size_push (image : Image) (entry : Entry) :
    (image.push entry).size = image.size + 1 := by
  simp [push, size]

@[simp] theorem get?_push_next (image : Image) (entry : Entry) :
    (image.push entry).get? image.next = some entry := by
  simp [push, get?, next, size]

/-- A function keeps its position and its content when another one is added. -/
theorem get?_push_of_lt (image : Image) (entry : Entry) {f : FuncId} (h : f < image.size) :
    (image.push entry).get? f = image.get? f :=
  List.getElem?_append_left h

/-- The symbol for the function that comes next.  The names of wrappers are never used
twice; other names may be, so they carry the position. -/
def nativeName (image : Image) (name : String) : FunctionKind → String
  | .wrapper => name
  | .definition => name ++ "." ++ toString image.next
  | .external => name ++ "." ++ toString image.next

/-- The text of one function. -/
def entryText (f : FuncId) (entry : Entry) : String :=
  "; " ++ FuncId.text f ++ " = " ++ entry.symbol ++ "\n" ++
    (match entry.body with
    | some body => body.listing
    | none => "declare " ++ entry.name ++ "/" ++ toString entry.arity ++ "\n") ++ "\n"

/-- The text of the image. -/
def text (image : Image) : String :=
  String.join (image.entries.mapIdx entryText)

end Image

end LiveCompiler
