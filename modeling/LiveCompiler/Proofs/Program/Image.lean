import LiveCompiler.Program.Backend
import Mathlib.Data.List.Basic

/-!
# What an image says about calls and links

A declaration can be linked to the latest definition of its name and arity, and where there is
none, to the host function of that name and arity.  `Image.Offers` says so without the scan
of the image, and `chooseLink` finds what is offered (`offers_of_chooseLink`,
`not_defined_of_chooseLink`).

A *regular* image is one that code generation has nothing to refuse in: bodies are in shape,
calls pass as many values as the called function takes, definitions have bodies, and every
symbol names one thing.  Prefixes of a regular image are regular (`Regular.of_push`), so an
image is regular all along its growth if it is regular in the end.  A *sound* image is regular
and its bodies call nothing but its own functions.
-/

namespace LiveCompiler

open Ir

/-! ## Calls -/

theorem mem_calleesOf {body : Body} {f : FuncId} :
    f ∈ calleesOf body ↔ ∃ b ∈ body.blocks, ∃ dst args, Instr.call dst f args ∈ b.instrs := by
  simp only [calleesOf, List.mem_flatMap, List.mem_filterMap]
  constructor
  · rintro ⟨b, hb, i, hi, hCallee⟩
    cases i with
    | call dst callee args =>
      obtain rfl := Option.some.inj hCallee
      exact ⟨b, hb, dst, args, hi⟩
    | _ => cases hCallee
  · rintro ⟨b, hb, dst, args, hi⟩
    exact ⟨b, hb, _, hi, rfl⟩

/-- A body that fits an arity: its labels and arguments exist and its edges pass the right
number of values. -/
structure Ir.Body.Fits (body : Body) (arity : Nat) : Prop where
  arity_eq : body.arity = arity
  entry_lt : body.entry < body.blocks.length
  entry_params : (body.block body.entry).params = []
  param_lt : ∀ b ∈ body.blocks, ∀ dst index, Instr.param dst index ∈ b.instrs →
    index.toNat < body.arity
  edge_fits : ∀ b ∈ body.blocks, ∀ e ∈ b.terminator.edges,
    e.target < body.blocks.length ∧ e.args.length = (body.block e.target).params.length

/-! ## Host functions -/

namespace HostFunction

theorem find?_eq_some_iff {name : String} {arity : Nat} {h : HostFunction} :
    find? name arity = some h ↔ h.name = name ∧ h.arity = arity := by
  constructor
  · intro hFind
    have hMatches := List.find?_some hFind
    simpa using hMatches
  · rintro ⟨rfl, rfl⟩
    cases h <;> decide

theorem find?_eq_none_iff {name : String} {arity : Nat} :
    find? name arity = none ↔ ∀ h : HostFunction, ¬ (h.name = name ∧ h.arity = arity) := by
  rw [Option.eq_none_iff_forall_ne_some]
  exact forall_congr' fun h => not_congr find?_eq_some_iff

theorem ofSymbol?_symbol (h : HostFunction) : ofSymbol? h.symbol = some h := by
  cases h <;> decide

theorem symbol_injective {h other : HostFunction} (hSymbol : h.symbol = other.symbol) :
    h = other := by
  have hFound := ofSymbol?_symbol h
  rw [hSymbol, ofSymbol?_symbol] at hFound
  exact (Option.some.inj hFound).symm

end HostFunction

namespace Image

/-! ## Definitions and links -/

/-- A definition with a name and an arity is at a position. -/
def Defines (image : Image) (name : String) (arity : Nat) (f : FuncId) : Prop :=
  ∃ entry, image.get? f = some entry ∧ entry.kind = .definition ∧ entry.name = name ∧
    entry.arity = arity

/-- The position of the latest definition with a name and an arity. -/
def Latest (image : Image) (name : String) (arity : Nat) (f : FuncId) : Prop :=
  image.Defines name arity f ∧ ∀ g, image.Defines name arity g → g ≤ f

/-- What a declaration without a link can be linked to. -/
inductive Offers (image : Image) (decl : Entry) : Link → Prop
  | function {f : FuncId} (latest : image.Latest decl.name decl.arity f) :
      Offers image decl (.function f)
  | host {h : HostFunction} (undefined : ∀ f, ¬ image.Defines decl.name decl.arity f)
      (name_eq : h.name = decl.name) (arity_eq : h.arity = decl.arity) :
      Offers image decl (.host h)

variable {image : Image} {decl entry : Entry} {name : String} {arity : Nat} {f : FuncId}
  {link other : Link}

theorem Offers.unique (h : image.Offers decl link) (hOther : image.Offers decl other) :
    link = other := by
  cases h with
  | function hLatest =>
    cases hOther with
    | function hOther =>
      exact congrArg _ (Nat.le_antisymm (hOther.2 _ hLatest.1) (hLatest.2 _ hOther.1))
    | host hNone => exact absurd hLatest.1 (hNone _)
  | host hNone hName hArity =>
    cases hOther with
    | function hOther => exact absurd hOther.1 (hNone _)
    | host _ hOtherName hOtherArity =>
      have hFound := HostFunction.find?_eq_some_iff.mpr ⟨hName, hArity⟩
      rw [HostFunction.find?_eq_some_iff.mpr ⟨hOtherName, hOtherArity⟩] at hFound
      exact congrArg _ (Option.some.inj hFound).symm

theorem lastDefinition?_ne_none (entries : List Entry) {base : FuncId} {i : Nat}
    (hGet : entries[i]? = some entry) (hKind : entry.kind = .definition)
    (hName : entry.name = name) (hArity : entry.arity = arity) :
    Backend.lastDefinition? name arity entries base ≠ none := by
  induction entries generalizing base i with
  | nil => cases hGet
  | cons head rest ih =>
    simp only [Backend.lastDefinition?]
    split
    · exact Option.some_ne_none _
    · rename_i hNone
      cases i with
      | zero =>
        obtain rfl := Option.some.inj hGet
        rw [if_pos ⟨hKind, hName, hArity⟩]
        exact Option.some_ne_none _
      | succ i => exact absurd hNone (ih hGet)

/-- The scan of the entries from a position on finds a definition, and none comes later. -/
theorem lastDefinition?_eq_some (entries : List Entry) {base : FuncId}
    (h : Backend.lastDefinition? name arity entries base = some f) :
    ∃ i, f = base + i ∧
      (∃ entry, entries[i]? = some entry ∧ entry.kind = .definition ∧ entry.name = name ∧
        entry.arity = arity) ∧
      ∀ j entry, entries[j]? = some entry → entry.kind = .definition → entry.name = name →
        entry.arity = arity → j ≤ i := by
  induction entries generalizing base with
  | nil => cases h
  | cons head rest ih =>
    simp only [Backend.lastDefinition?] at h
    split at h
    · rename_i later hLater
      obtain rfl := Option.some.inj h
      obtain ⟨i, rfl, hEntry, hLast⟩ := ih hLater
      refine ⟨i + 1, Nat.add_right_comm base 1 i, hEntry, ?_⟩
      rintro (_ | j) entry hGet hKind hName hArity
      · exact Nat.zero_le _
      · exact Nat.succ_le_succ (hLast j entry hGet hKind hName hArity)
    · rename_i hNone
      split at h
      · rename_i hHead
        obtain rfl := Option.some.inj h
        refine ⟨0, rfl, ⟨head, rfl, hHead⟩, ?_⟩
        rintro (_ | j) entry hGet hKind hName hArity
        · exact Nat.le_refl _
        · exact absurd hNone (lastDefinition?_ne_none rest hGet hKind hName hArity)
      · cases h

theorem latest_of_lastDefinition?
    (h : Backend.lastDefinition? name arity image.entries 0 = some f) :
    image.Latest name arity f := by
  obtain ⟨i, rfl, hEntry, hLast⟩ := lastDefinition?_eq_some image.entries h
  rw [Nat.zero_add]
  exact ⟨hEntry, fun g ⟨entry, hGet, hKind, hName, hArity⟩ =>
    hLast g entry hGet hKind hName hArity⟩

theorem not_defines_of_lastDefinition?
    (h : Backend.lastDefinition? name arity image.entries 0 = none) (f : FuncId) :
    ¬ image.Defines name arity f := fun ⟨_, hGet, hKind, hName, hArity⟩ =>
  lastDefinition?_ne_none image.entries hGet hKind hName hArity h

theorem offers_of_chooseLink (h : Backend.chooseLink image decl = .ok link) :
    image.Offers decl link := by
  unfold Backend.chooseLink at h
  split at h
  · rename_i f hLast
    obtain rfl := Except.ok.inj h
    exact .function (latest_of_lastDefinition? hLast)
  · rename_i hNone
    split at h
    · rename_i host hFind
      obtain rfl := Except.ok.inj h
      obtain ⟨hName, hArity⟩ := HostFunction.find?_eq_some_iff.mp hFind
      exact .host (not_defines_of_lastDefinition? hNone) hName hArity
    · cases h

/-- No link is found only where there is neither a definition nor a host function, and the
error names the declaration. -/
theorem not_defined_of_chooseLink {e : CodeError} (h : Backend.chooseLink image decl = .error e) :
    e = .unresolvedSymbol decl.name decl.arity ∧
      (∀ f, ¬ image.Defines decl.name decl.arity f) ∧
      ∀ host : HostFunction, ¬ (host.name = decl.name ∧ host.arity = decl.arity) := by
  unfold Backend.chooseLink at h
  split at h
  · cases h
  · rename_i hNone
    split at h
    · cases h
    · rename_i hHost
      exact ⟨(Except.error.inj h).symm, not_defines_of_lastDefinition? hNone,
        HostFunction.find?_eq_none_iff.mp hHost⟩

theorem chooseLink_eq_ok_iff : Backend.chooseLink image decl = .ok link ↔ image.Offers decl link := by
  refine ⟨offers_of_chooseLink, fun hOffers => ?_⟩
  cases hChoose : Backend.chooseLink image decl with
  | ok other => rw [(offers_of_chooseLink hChoose).unique hOffers]
  | error e =>
    obtain ⟨-, hUndefined, hHostless⟩ := not_defined_of_chooseLink hChoose
    cases hOffers with
    | function hLatest => exact absurd hLatest.1 (hUndefined _)
    | host _ hName hArity => exact absurd ⟨hName, hArity⟩ (hHostless _)

/-! ## What symbols name -/

/-- The symbol under which the code generator knows a target of calls. -/
inductive Names (image : Image) : CallTarget → NativeSymbol → Prop
  | code {f : FuncId} {entry : Entry} (get : image.get? f = some entry) :
      Names image (.code f) entry.native
  | host (h : HostFunction) : Names image (.host h) h.native

/-! ## Images without faults -/

/-- An image in which the code generator has nothing to refuse. -/
structure Regular (image : Image) : Prop where
  fits : ∀ {f entry body}, image.get? f = some entry → entry.body = some body →
    body.Fits entry.arity
  calls_fit : ∀ {f entry body}, image.get? f = some entry → entry.body = some body →
    ∀ b ∈ body.blocks, ∀ dst callee args, Instr.call dst callee args ∈ b.instrs →
      ∀ target, image.get? callee = some target → args.length = target.arity
  defined : ∀ {f entry}, image.get? f = some entry → entry.kind = .definition →
    entry.body.isSome = true
  symbol_unique : ∀ {f g entry other}, image.get? f = some entry → image.get? g = some other →
    entry.symbol = other.symbol → f = g
  symbol_ne_host : ∀ {f entry}, image.get? f = some entry →
    ∀ h : HostFunction, entry.symbol ≠ h.symbol

/-- A regular image whose bodies call functions of the image only. -/
structure Sound (image : Image) : Prop extends Regular image where
  closed : ∀ {f entry body}, image.get? f = some entry → entry.body = some body →
    ∀ callee ∈ calleesOf body, ∃ target, image.get? callee = some target

/-- Whether an instruction is no call, or calls a function of the image with as many values as
it takes. -/
def accepts (image : Image) : Instr → Bool
  | .call _ callee args =>
    match image.get? callee with
    | some target => args.length == target.arity
    | none => false
  | _ => true

/-- Soundness, said entry by entry. -/
theorem sound_of_entries
    (hFits : ∀ entry ∈ image.entries, ∀ body ∈ entry.body, body.Fits entry.arity)
    (hCalls : ∀ entry ∈ image.entries, ∀ body ∈ entry.body, ∀ b ∈ body.blocks, ∀ i ∈ b.instrs,
      image.accepts i = true)
    (hDefined : ∀ entry ∈ image.entries, entry.kind = .definition → entry.body.isSome = true)
    (hUnique : (image.entries.map Entry.symbol).Nodup)
    (hHost : ∀ entry ∈ image.entries, ∀ h ∈ HostFunction.all, entry.symbol ≠ h.symbol) :
    image.Sound := by
  have hCall : ∀ {f entry body}, image.get? f = some entry → entry.body = some body →
      ∀ b ∈ body.blocks, ∀ dst callee args, Instr.call dst callee args ∈ b.instrs →
        ∃ target, image.get? callee = some target ∧ args.length = target.arity := by
    intro f entry body hGet hBody b hb dst callee args hi
    have hAccepts := hCalls entry (List.mem_of_getElem? hGet) body hBody b hb _ hi
    rw [accepts] at hAccepts
    cases hTarget : image.get? callee with
    | some target =>
      rw [hTarget] at hAccepts
      exact ⟨target, rfl, eq_of_beq hAccepts⟩
    | none =>
      rw [hTarget] at hAccepts
      cases hAccepts
  exact {
    fits := fun hGet hBody => hFits _ (List.mem_of_getElem? hGet) _ hBody
    calls_fit := by
      intro f entry body hGet hBody b hb dst callee args hi target hTarget
      obtain ⟨other, hOther, hLength⟩ := hCall hGet hBody b hb dst callee args hi
      obtain rfl := Option.some.inj (hTarget.symm.trans hOther)
      exact hLength
    defined := fun hGet => hDefined _ (List.mem_of_getElem? hGet)
    symbol_unique := by
      intro f g entry other hGet hOther hSymbol
      have hf : (image.entries.map Entry.symbol)[f]? = some entry.symbol := by
        rw [List.getElem?_map, show image.entries[f]? = some entry from hGet, Option.map_some]
      have hg : (image.entries.map Entry.symbol)[g]? = some entry.symbol := by
        rw [List.getElem?_map, show image.entries[g]? = some other from hOther, Option.map_some,
          hSymbol]
      exact (List.getElem?_inj (List.getElem?_eq_some_iff.mp hf).1 hUnique).mp (hf.trans hg.symm)
    symbol_ne_host := fun hGet h => hHost _ (List.mem_of_getElem? hGet) h h.mem_all
    closed := by
      intro f entry body hGet hBody callee hMem
      obtain ⟨b, hb, dst, args, hi⟩ := mem_calleesOf.mp hMem
      obtain ⟨target, hTarget, -⟩ := hCall hGet hBody b hb dst callee args hi
      exact ⟨target, hTarget⟩ }

theorem lt_size_of_get? (h : image.get? f = some entry) : f < image.size :=
  (List.getElem?_eq_some_iff.mp h).1

/-- What an image holds, it holds after another entry is added. -/
theorem get?_push_of_some (h : image.get? f = some entry) (added : Entry) :
    (image.push added).get? f = some entry :=
  (image.get?_push_of_lt added (lt_size_of_get? h)).trans h

theorem get?_push_cases {added : Entry} (h : (image.push added).get? f = some entry) :
    image.get? f = some entry ∨ f = image.next ∧ entry = added := by
  rcases Nat.lt_or_ge f image.size with hLt | hGe
  · rw [image.get?_push_of_lt added hLt] at h
    exact .inl h
  · have hSize := lt_size_of_get? h
    rw [size_push] at hSize
    obtain rfl : f = image.next := Nat.le_antisymm (Nat.le_of_lt_succ hSize) hGe
    rw [get?_push_next] at h
    exact .inr ⟨rfl, (Option.some.inj h).symm⟩

theorem Names.push {target : CallTarget} {symbol : NativeSymbol} (h : image.Names target symbol)
    (added : Entry) : (image.push added).Names target symbol := by
  cases h with
  | code hGet => exact .code (get?_push_of_some hGet added)
  | host h => exact .host h

theorem Regular.of_push {added : Entry} (h : (image.push added).Regular) : image.Regular where
  fits hGet hBody := h.fits (get?_push_of_some hGet added) hBody
  calls_fit hGet hBody b hb dst callee args hi target hTarget :=
    h.calls_fit (get?_push_of_some hGet added) hBody b hb dst callee args hi target
      (get?_push_of_some hTarget added)
  defined hGet hKind := h.defined (get?_push_of_some hGet added) hKind
  symbol_unique hGet hOther hSymbol :=
    h.symbol_unique (get?_push_of_some hGet added) (get?_push_of_some hOther added) hSymbol
  symbol_ne_host hGet host := h.symbol_ne_host (get?_push_of_some hGet added) host

/-- In a regular image a symbol names one thing. -/
theorem Regular.names_unique (h : image.Regular) {target other : CallTarget}
    {symbol otherSymbol : NativeSymbol} (hNames : image.Names target symbol)
    (hOther : image.Names other otherSymbol) (hName : symbol.name = otherSymbol.name) :
    target = other ∧ symbol = otherSymbol := by
  cases hNames with
  | code hGet =>
    cases hOther with
    | code hOtherGet =>
      obtain rfl := h.symbol_unique hGet hOtherGet hName
      obtain rfl := Option.some.inj (hGet.symm.trans hOtherGet)
      exact ⟨rfl, rfl⟩
    | host host => exact absurd hName (h.symbol_ne_host hGet host)
  | host host =>
    cases hOther with
    | code hOtherGet => exact absurd hName.symm (h.symbol_ne_host hOtherGet host)
    | host otherHost =>
      obtain rfl := HostFunction.symbol_injective hName
      exact ⟨rfl, rfl⟩

end Image

end LiveCompiler
