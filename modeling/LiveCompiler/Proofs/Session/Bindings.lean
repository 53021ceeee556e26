import LiveCompiler.Proofs.Session.Sound

/-!
# Names, functions and calls agree

A session keeps an image, the bindings of names, and a count of wrappers.  They agree whatever
units it is given: a bound name stands for the latest function of that name, every function that
is no wrapper has its name bound, and a body calls only functions that come before its own, or
itself (`Session.Consistent`).

A unit adds at most one entry.  `Named.accept` is the step for an entry that gets a name,
`Named.wrap` the one for a wrapper.  What is in the image keeps its place and its content
(`get?_handleAll`).
-/

namespace LiveCompiler

open Ir

/-- All calls of a body, with the number of values that they pass, are of one kind. -/
def Ir.Body.CallsOnly (allowed : FuncId → Nat → Prop) (body : Body) : Prop :=
  ∀ b ∈ body.blocks, ∀ dst callee args, Instr.call dst callee args ∈ b.instrs →
    allowed callee args.length

/-- What a call in the body of an entry may go to: a function at an earlier position, or the entry
itself if it is a definition.  Its own name stands for the definition itself and for nothing
else. -/
inductive Image.CallsBack (image : Image) (f : FuncId) (entry : Entry) : FuncId → Nat → Prop
  | earlier {callee : FuncId} {target : Entry} (lt : callee < f)
      (get : image.get? callee = some target)
      (name_ne : entry.kind = .definition → target.name ≠ entry.name) :
      CallsBack image f entry callee target.arity
  | itself (kind_eq : entry.kind = .definition) : CallsBack image f entry f entry.arity

theorem Image.CallsBack.push {image : Image} {f callee : FuncId} {entry : Entry} {count : Nat}
    (h : image.CallsBack f entry callee count) (added : Entry) :
    (image.push added).CallsBack f entry callee count := by
  cases h with
  | earlier hLt hGet hName => exact .earlier hLt (get?_push_of_some hGet added) hName
  | itself hKind => exact .itself hKind

namespace Session

/-- What the names of a session have to do with its image. -/
structure Named (s : Session) : Prop where
  bound : ∀ {name binding}, s.symbols.lookup name = some binding →
    ∃ entry, s.image.get? binding.func = some entry ∧ entry.kind ≠ .wrapper ∧
      entry.name = name ∧ entry.arity = binding.arity ∧ entry.kind = binding.kind
  latest : ∀ {name binding}, s.symbols.lookup name = some binding → ∀ {f entry},
    s.image.get? f = some entry → entry.kind ≠ .wrapper → entry.name = name → f ≤ binding.func
  named : ∀ {f entry}, s.image.get? f = some entry → entry.kind ≠ .wrapper →
    ∃ binding, s.symbols.lookup entry.name = some binding
  wrapper_symbol : ∀ {f entry}, s.image.get? f = some entry → entry.kind = .wrapper →
    entry.symbol = entry.name
  calls : ∀ {f entry body}, s.image.get? f = some entry → entry.body = some body →
    body.CallsOnly (s.image.CallsBack f entry)

/-- What can be relied on in the image and the names of a session. -/
structure Consistent (s : Session) : Prop extends Named s where
  wrapper_name_unique : ∀ {f g entry other}, s.image.get? f = some entry →
    s.image.get? g = some other → entry.kind = .wrapper → other.kind = .wrapper →
    entry.name = other.name → f = g
  symbol_unique : ∀ {f g entry other}, s.image.get? f = some entry → s.image.get? g = some other →
    entry.symbol = other.symbol → f = g
  symbol_ne_host : ∀ {f entry}, s.image.get? f = some entry →
    ∀ host : HostFunction, entry.symbol ≠ host.symbol

variable {s : Session} {procedure : Procedure} {kind : FunctionKind} {lowered : Body}
  {entry : Entry}

theorem named_start (config : Config) : (start config).Named where
  bound h := by cases h
  latest h := by cases h
  named h := by cases h
  wrapper_symbol h := by cases h
  calls h := by cases h

/-! ## One entry -/

/-- The calls of the bodies in a larger image. -/
theorem Named.calls_push (h : s.Named)
    (hCalls : ∀ body, entry.body = some body →
      body.CallsOnly ((s.image.push entry).CallsBack s.image.next entry))
    {f : FuncId} {found : Entry} {body : Body} (hGet : (s.image.push entry).get? f = some found)
    (hBody : found.body = some body) :
    body.CallsOnly ((s.image.push entry).CallsBack f found) := by
  rcases Image.get?_push_cases hGet with hOld | ⟨rfl, rfl⟩
  · exact fun b hb dst callee args hi => (h.calls hOld hBody b hb dst callee args hi).push entry
  · exact hCalls body hBody

/-- An entry joins the image, and its name is bound to it. -/
theorem Named.accept (h : s.Named) (listings : String) (hKind : entry.kind ≠ .wrapper)
    (hCalls : ∀ body, entry.body = some body →
      body.CallsOnly ((s.image.push entry).CallsBack s.image.next entry)) :
    (s.accept entry listings).Named := by
  have hLookup : ∀ name, (s.accept entry listings).symbols.lookup name =
      if name = entry.name then
        some { func := s.image.next, arity := entry.arity, kind := entry.kind }
      else s.symbols.lookup name :=
    fun name => Symbols.lookup_bind s.symbols entry.name name _
  constructor
  case bound =>
    intro name binding hBinding
    rw [hLookup] at hBinding
    split at hBinding
    · rename_i hName
      obtain rfl := Option.some.inj hBinding
      exact ⟨entry, s.image.get?_push_next entry, hKind, hName.symm, rfl, rfl⟩
    · obtain ⟨found, hGet, hRest⟩ := h.bound hBinding
      exact ⟨found, Image.get?_push_of_some hGet entry, hRest⟩
  case latest =>
    intro name binding hBinding f found hGet hNamed hName
    rw [hLookup] at hBinding
    -- The new entry is the last one, and under its name nothing else is bound any more.
    split at hBinding
    · obtain rfl := Option.some.inj hBinding
      have hSize : f < (s.image.push entry).size := Image.lt_size_of_get? hGet
      rw [Image.size_push] at hSize
      exact Nat.le_of_lt_succ hSize
    · rename_i hOther
      rcases Image.get?_push_cases hGet with hOld | ⟨-, rfl⟩
      · exact h.latest hBinding hOld hNamed hName
      · exact absurd hName.symm hOther
  case named =>
    intro f found hGet hNamed
    rw [hLookup]
    split
    · exact ⟨_, rfl⟩
    · rename_i hOther
      rcases Image.get?_push_cases hGet with hOld | ⟨-, rfl⟩
      · exact h.named hOld hNamed
      · exact absurd rfl hOther
  case wrapper_symbol =>
    intro f found hGet hWrapper
    rcases Image.get?_push_cases hGet with hOld | ⟨-, rfl⟩
    · exact h.wrapper_symbol hOld hWrapper
    · exact absurd hWrapper hKind
  case calls => exact h.calls_push hCalls

/-- A wrapper joins the image.  No name is bound to it. -/
theorem Named.wrap (h : s.Named) (listings : String) (hKind : entry.kind = .wrapper)
    (hSymbol : entry.symbol = entry.name)
    (hCalls : ∀ body, entry.body = some body →
      body.CallsOnly ((s.image.push entry).CallsBack s.image.next entry)) :
    (s.wrap entry listings).Named where
  bound hBinding := by
    obtain ⟨found, hGet, hRest⟩ := h.bound hBinding
    exact ⟨found, Image.get?_push_of_some hGet entry, hRest⟩
  latest hBinding f found hGet hNamed hName := by
    rcases Image.get?_push_cases hGet with hOld | ⟨-, rfl⟩
    · exact h.latest hBinding hOld hNamed hName
    · exact absurd hKind hNamed
  named hGet hNamed := by
    rcases Image.get?_push_cases hGet with hOld | ⟨-, rfl⟩
    · exact h.named hOld hNamed
    · exact absurd hKind hNamed
  wrapper_symbol hGet hWrapper := by
    rcases Image.get?_push_cases hGet with hOld | ⟨-, rfl⟩
    · exact h.wrapper_symbol hOld hWrapper
    · exact hSymbol
  calls := h.calls_push hCalls

/-! ## The calls of a new body -/

/-- What a name stands for while a procedure is lowered comes before the entry that is added, or is
this entry. -/
theorem Named.callsBack (h : s.Named) (hKind : entry.kind = kind)
    (hName : kind = .definition → entry.name = procedure.signature.name)
    (hArity : entry.arity = procedure.signature.arity) {f : FuncId} {count : Nat}
    (hCallable : (Lowering.namesFor procedure s.image.next kind s.symbols).Callable f count) :
    (s.image.push entry).CallsBack s.image.next entry f count := by
  obtain ⟨name, binding, hCallee, rfl, rfl⟩ := hCallable
  have hEarlier : s.symbols.lookup name = some binding →
      (entry.kind = .definition → name ≠ entry.name) →
      (s.image.push entry).CallsBack s.image.next entry binding.func binding.arity := by
    intro hLookup hOther
    obtain ⟨found, hGet, -, rfl, hSame, -⟩ := h.bound hLookup
    rw [← hSame]
    exact .earlier (Image.lt_size_of_get? hGet) (Image.get?_push_of_some hGet entry) hOther
  unfold Lowering.Names.callee Lowering.namesFor at hCallee
  by_cases hDefinition : kind = .definition
  · simp only [if_pos hDefinition] at hCallee
    split at hCallee
    · obtain rfl := Option.some.inj hCallee
      rw [← hArity]
      exact .itself (hKind.trans hDefinition)
    · rename_i hOther
      refine hEarlier hCallee fun _ hSame => hOther ?_
      rw [hSame, hName hDefinition]
  · simp only [if_neg hDefinition] at hCallee
    exact hEarlier hCallee fun hSame => absurd (hKind.symm.trans hSame) hDefinition

/-- The calls of a body that was lowered for an entry. -/
theorem Named.calls_kept (h : s.Named) {name : String}
    (hLowered : Lowering.lowerProcedure procedure name s.image.next kind s.symbols = .ok lowered)
    (hKind : entry.kind = kind) (hName : kind = .definition → entry.name = procedure.signature.name)
    (hArity : entry.arity = procedure.signature.arity) :
    (s.kept lowered).CallsOnly ((s.image.push entry).CallsBack s.image.next entry) :=
  ((prepared_kept_names hLowered).imp fun _ _ => h.callsBack hKind hName hArity).calls

/-! ## Units -/

/-- Handling a unit keeps names and image in agreement. -/
theorem Named.handle (h : s.Named) {u : SourceUnit} (hPlain : u.Plain) :
    (s.handle u).session.Named := by
  have hHandles := s.handles u
  generalize s.handle u = handled at hHandles ⊢
  cases hHandles with
  | refused _ => exact h
  | defined hLower =>
    refine h.accept _ (fun hKind => by cases hKind) fun body hBody => ?_
    obtain rfl := Option.some.inj hBody
    exact h.calls_kept hLower rfl (fun _ => rfl) rfl
  | declared _ =>
    exact h.accept _ (fun hKind => by cases hKind) fun body hBody => by cases hBody
  | @ran procedure lowered hLower =>
    have hArity : (s.wrapperEntry lowered).arity = procedure.signature.arity := by
      rw [Signature.arity, show procedure.signature.params = [] from hPlain]
      rfl
    have hWrapped : (s.wrap (s.wrapperEntry lowered) (s.listed lowered)).Named := by
      refine h.wrap _ rfl rfl fun body hBody => ?_
      obtain rfl := Option.some.inj hBody
      exact h.calls_kept hLower rfl (fun hKind => by cases hKind) hArity
    rw [session_runWrapper]
    exact ⟨hWrapped.bound, hWrapped.latest, hWrapped.named, hWrapped.wrapper_symbol,
      hWrapped.calls⟩

theorem Named.handleAll (units : List SourceUnit) : ∀ {s : Session}, s.Named →
    (∀ u ∈ units, u.Plain) → (s.handleAll units).Named := by
  induction units with
  | nil => exact fun h _ => h
  | cons u rest ih =>
    intro s h hPlain
    exact ih (h.handle (hPlain u List.mem_cons_self))
      fun v hv => hPlain v (List.mem_cons_of_mem u hv)

/-- A unit leaves the functions of the image where they are and as they are. -/
theorem get?_handle {f : FuncId} (u : SourceUnit) (hGet : s.image.get? f = some entry) :
    (s.handle u).session.image.get? f = some entry := by
  have hHandles := s.handles u
  generalize s.handle u = handled at hHandles ⊢
  cases hHandles with
  | refused _ => exact hGet
  | defined _ => exact Image.get?_push_of_some hGet _
  | declared _ => exact Image.get?_push_of_some hGet _
  | ran _ =>
    rw [session_runWrapper]
    exact Image.get?_push_of_some hGet _

theorem get?_handleAll (units : List SourceUnit) {f : FuncId} : ∀ {s : Session},
    s.image.get? f = some entry → (s.handleAll units).image.get? f = some entry := by
  induction units with
  | nil => exact fun hGet => hGet
  | cons u rest ih => exact fun hGet => ih (get?_handle u hGet)

/-- Names of wrappers are their symbols, and no symbol is used twice. -/
theorem Named.consistent (h : s.Named) (hSound : s.Sound) : s.Consistent where
  toNamed := h
  wrapper_name_unique hGet hOther hWrapper hOtherWrapper hName := by
    refine hSound.image.symbol_unique hGet hOther ?_
    rw [h.wrapper_symbol hGet hWrapper, h.wrapper_symbol hOther hOtherWrapper, hName]
  symbol_unique := hSound.image.symbol_unique
  symbol_ne_host hGet := (hSound.image.marked hGet).symbol_ne_host

/-- Whatever units a new session was given, its names, functions and calls agree; and whatever
comes later, every function stays in the image as it is. -/
theorem consistent_handleAll (config : Config) (units : List SourceUnit)
    (hPlain : ∀ u ∈ units, u.Plain) :
    ((start config).handleAll units).Consistent ∧
      ∀ (later : List SourceUnit) (f : FuncId) (entry : Entry),
        ((start config).handleAll units).image.get? f = some entry →
          (((start config).handleAll units).handleAll later).image.get? f = some entry :=
  ⟨((named_start config).handleAll units hPlain).consistent
      ((sound_start config).handleAll units hPlain),
    fun later _ _ hGet => get?_handleAll later hGet⟩

/-- A function that calls itself, a caller of it, an expression that misses a symbol, and both
names again: the one declared, the other defined by a call of what the first stands for now. -/
def rebindingUnits : List SourceUnit :=
  [.definition
      { signature := { name := "f", params := ["x"] }
        body := .ifThenElse (.variable "x") (.call "f" [.number 0.0]) (.number 1.0) },
    .definition { signature := { name := "g", params := [] }, body := .call "f" [.number 2.0] },
    .declaration { name := "f", params := ["x", "y"] },
    .expression
      { signature := Signature.unnamed, body := .call "f" [.number 1.0, .number 2.0] },
    .definition
      { signature := { name := "g", params := ["x"] }
        body := .call "f" [.variable "x", .call "g" [.variable "x"]] },
    .expression { signature := Signature.unnamed, body := .number 3.0 }]

theorem consistent_rebindingUnits :
    (∀ u ∈ rebindingUnits, u.Plain) ∧
    ((start Config.standard).handleAll rebindingUnits).Consistent ∧
    ∀ (later : List SourceUnit) (f : FuncId) (entry : Entry),
      ((start Config.standard).handleAll rebindingUnits).image.get? f = some entry →
        (((start Config.standard).handleAll rebindingUnits).handleAll later).image.get? f =
          some entry := by
  have hPlain : ∀ u ∈ rebindingUnits, u.Plain := by
    simp [rebindingUnits, SourceUnit.Plain, Signature.unnamed]
  exact ⟨hPlain, consistent_handleAll Config.standard rebindingUnits hPlain⟩

end Session

end LiveCompiler
