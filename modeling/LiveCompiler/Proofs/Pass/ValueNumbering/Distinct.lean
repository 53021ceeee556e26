import LiveCompiler.Proofs.Ir.SingleAssignment
import LiveCompiler.Proofs.Pass.Returning
import LiveCompiler.Proofs.Pass.ValueNumbering

/-!
# No computation is left twice

Where one instruction comes before another on every path, value numbering leaves no two that are
alike (`distinct_run`).  A replacement may make later instructions alike that were not before, so
this takes that the operands of an instruction are final when it is visited: they have been written
by then, and what has been written is not replaced any more.

For a block, `Numbers.covers` says that all keys of its instructions are known at its end and that
none of them was known at its start.  For the walk, `Placed` says that what is known at the end of a
block covers the block and all that strictly dominate it.
-/

namespace LiveCompiler

namespace Ir

/-- Two pure instructions with the same operation and the same operands, where those of a
commutative operation may change places.  Constants are the same if they have the same bits. -/
inductive Instr.Alike : Instr → Instr → Prop
  | const {r q : Reg} {x y : Float} (bits : x.toBits = y.toBits) : Alike (.const r x) (.const q y)
  | param {r q : Reg} {index : UInt16} : Alike (.param r index) (.param q index)
  | arith {op : ArithOp} {r q left right : Reg} :
      Alike (.arith op r left right) (.arith op q left right)
  | swapped {op : ArithOp} {r q left right : Reg} (commutative : op.isCommutative = true) :
      Alike (.arith op r left right) (.arith op q right left)
  | less {r q left right : Reg} : Alike (.less r left right) (.less q left right)

/-- There are no two instructions that are alike of which one comes before the other on every
path. -/
def Body.Distinct (body : Body) : Prop :=
  ∀ (a b : Label) (m n : Nat) (i j : Instr), body.Reached b →
    (body.block a).instrs[m]? = some i → (body.block b).instrs[n]? = some j →
    (a = b ∧ m < n ∨ body.graph.SDom body.entry a b) → ¬ i.Alike j

theorem Instr.renameUses_renameUses (f g : Reg → Reg) (i : Instr) :
    (i.renameUses g).renameUses f = i.renameUses fun r => f (g r) := by
  cases i <;> simp [renameUses]

@[simp] theorem Instr.isPure_renameUses (f : Reg → Reg) (i : Instr) :
    (i.renameUses f).isPure = i.isPure := by
  cases i <;> rfl

end Ir

open Ir

namespace ValueNumbering

/-! ## Keys -/

theorem isSome_keyOf (i : Instr) : (keyOf i).isSome = i.isPure := by
  cases i with
  | arith op dst left right =>
    simp only [keyOf]
    split <;> rfl
  | _ => rfl

/-- Instructions that are alike have one key. -/
theorem keyOf_eq_of_alike {i j : Instr} (h : i.Alike j) :
    ∃ key, keyOf i = some key ∧ keyOf j = some key := by
  cases h with
  | const bits => exact ⟨_, rfl, by rw [keyOf, bits]⟩
  | param => exact ⟨_, rfl, rfl⟩
  | @arith op r q left right =>
    obtain ⟨key, hKey⟩ := Option.isSome_iff_exists.mp (isSome_keyOf (.arith op r left right))
    exact ⟨key, hKey, hKey⟩
  | @swapped op r q left right commutative =>
    simp only [keyOf, commutative, Bool.true_and, decide_eq_true_eq]
    rcases Nat.lt_trichotomy left right with hLess | rfl | hMore
    · exact ⟨_, if_pos hLess, if_neg (Nat.lt_asymm hLess)⟩
    · exact ⟨_, if_neg (Nat.lt_irrefl _), if_neg (Nat.lt_irrefl _)⟩
    · exact ⟨_, if_neg (Nat.lt_asymm hMore), if_pos hMore⟩
  | less => exact ⟨_, rfl, rfl⟩

/-- A key is known, in some register. -/
def Covers (known : Known) (key : Key) : Prop :=
  ∃ r, (key, r) ∈ known

/-! ## Numbering a block -/

section Block

variable {written : Reg → Prop} {known : Known} {s : Substitution} {changed : Bool}
  {i : Instr} {rest instrs : List Instr} {dst earlier : Reg} {key : Key}
  {out : List Instr × Known × Substitution × Bool}

/-- What numbering some instructions comes to. -/
structure Numbers (written : Reg → Prop) (known : Known) (s : Substitution) (instrs : List Instr)
    (out : List Instr × Known × Substitution × Bool) : Prop where
  within : out.2.2.1.Within fun r => written r ∨ r ∈ instrs.filterMap Instr.dst
  agrees : ∀ r, written r → out.2.2.1.representative r = s.representative r
  left : out.1.Sublist (instrs.map (Instr.renameUses out.2.2.1.representative))
  impure : out.1.filter (!·.isPure) =
    (instrs.filter (!·.isPure)).map (Instr.renameUses out.2.2.1.representative)
  registers : ∀ fact ∈ out.2.1, written fact.2 ∨ fact.2 ∈ instrs.filterMap Instr.dst
  grows : known ⊆ out.2.1
  covers : ∀ j ∈ out.1, ∀ key, keyOf j = some key → Covers out.2.1 key ∧ ¬ Covers known key
  distinct : (out.1.filterMap keyOf).Nodup

theorem written_cons {r : Reg} :
    (written r ∨ i.dst = some r) ∨ r ∈ rest.filterMap Instr.dst ↔
      written r ∨ r ∈ (i :: rest).filterMap Instr.dst := by
  rw [mem_dsts_cons, or_assoc]

/-- An instruction is kept whose key was not known, or which has none. -/
theorem Numbers.keep {more : Known}
    (h : Numbers (fun r => written r ∨ i.dst = some r) more s rest out)
    (hUses : ∀ a ∈ i.uses, written a) (hMore : known ⊆ more)
    (hHead : ∀ key, keyOf (i.renameUses s.representative) = some key →
      Covers more key ∧ ¬ Covers known key) :
    Numbers written known s (i :: rest) (i.renameUses s.representative :: out.1, out.2) := by
  -- What stands for the operands is final.
  have hFinal : i.renameUses s.representative = i.renameUses out.2.2.1.representative :=
    Instr.renameUses_congr fun a ha => (h.agrees a (.inl (hUses a ha))).symm
  constructor
  case within => exact h.within.mono fun r => written_cons.mp
  case agrees => exact fun r hr => h.agrees r (.inl hr)
  case left =>
    rw [hFinal]
    exact h.left.cons_cons _
  case impure =>
    simp only [List.filter_cons, Instr.isPure_renameUses, h.impure]
    rw [hFinal]
    split <;> rfl
  case registers => exact fun fact hFact => written_cons.mp (h.registers fact hFact)
  case grows => exact List.Subset.trans hMore h.grows
  case covers =>
    intro j hj key hKey
    rcases List.mem_cons.mp hj with rfl | hLater
    · obtain ⟨⟨r, hr⟩, hNot⟩ := hHead key hKey
      exact ⟨⟨r, h.grows hr⟩, hNot⟩
    · obtain ⟨hCovers, hNot⟩ := h.covers j hLater key hKey
      exact ⟨hCovers, fun ⟨r, hr⟩ => hNot ⟨r, hMore hr⟩⟩
  case distinct =>
    rw [List.filterMap_cons]
    split
    · exact h.distinct
    · rename_i key hKey
      apply List.nodup_cons.mpr ⟨_, h.distinct⟩
      intro hMem
      obtain ⟨j, hj, hSame⟩ := List.mem_filterMap.mp hMem
      exact (h.covers j hj key hSame).2 (hHead key hKey).1

/-- An instruction is taken out whose key was known. -/
theorem Numbers.drop
    (h : Numbers (fun r => written r ∨ i.dst = some r) known (s.insert dst earlier) rest out)
    (hWithin : s.Within written) (hNew : ¬ written dst) (hPure : i.isPure = true) :
    Numbers written known s (i :: rest) out where
  within := h.within.mono fun r => written_cons.mp
  agrees r hr := (h.agrees r (.inl hr)).trans (hWithin.representative_insert hNew hr)
  left := h.left.cons _
  impure := by
    rw [h.impure, List.filter_cons_of_neg (by simp [hPure])]
  registers fact hFact := written_cons.mp (h.registers fact hFact)
  grows := h.grows
  covers := h.covers
  distinct := h.distinct

theorem numbers_numberInstrs (instrs : List Instr) :
    ∀ (written : Reg → Prop) (known : Known) (s : Substitution) (changed : Bool),
      InOrder written instrs → s.Within written → (∀ fact ∈ known, written fact.2) →
      Numbers written known s instrs (numberInstrs instrs known s changed) := by
  induction instrs with
  | nil =>
    intro written known s changed _ hWithin hKnown
    constructor
    case within => exact hWithin.mono fun r hr => .inl hr
    case registers => exact fun fact hFact => .inl (hKnown fact hFact)
    all_goals simp [numberInstrs]
  | cons i rest ih =>
    rintro written known s changed ⟨hUses, hNew, hRest⟩ hWithin hKnown
    have hMono : s.Within fun r => written r ∨ i.dst = some r := hWithin.mono fun r hr => .inl hr
    have hKnown' : ∀ fact ∈ known, written fact.2 ∨ i.dst = some fact.2 :=
      fun fact hFact => .inl (hKnown fact hFact)
    cases hKey : keyOf (i.renameUses s.representative) with
    | none =>
      rw [numberInstrs_of_none hKey]
      apply (ih _ known s changed hRest hMono hKnown').keep hUses (List.Subset.refl known)
      intro key hSome
      rw [hKey] at hSome
      cases hSome
    | some key =>
      have hPure := isPure_of_keyOf hKey
      obtain ⟨dst, hDst⟩ := Instr.exists_dst hPure
      cases hLookup : known.lookup key with
      | some earlier =>
        have hEarlier := hKnown _ (mem_of_lookup hLookup)
        have hInsert : (s.insert dst earlier).Within fun r => written r ∨ i.dst = some r :=
          hWithin.insert (hNew dst hDst) hEarlier (fun r hr => .inl hr) (.inr hDst)
        rw [numberInstrs_of_known hKey hDst hLookup]
        exact (ih _ known _ true hRest hInsert hKnown').drop hWithin (hNew dst hDst) hPure
      | none =>
        have hMore : ∀ fact ∈ (key, dst) :: known, written fact.2 ∨ i.dst = some fact.2 := by
          intro fact hFact
          rcases List.mem_cons.mp hFact with rfl | hOld
          · exact .inr hDst
          · exact hKnown' fact hOld
        rw [numberInstrs_of_new hKey hDst hLookup]
        apply (ih _ ((key, dst) :: known) s changed hRest hMono hMore).keep hUses
          (List.subset_cons_self _ _)
        intro key' hSome
        obtain rfl := Option.some.inj (hKey.symm.trans hSome)
        refine ⟨⟨dst, List.mem_cons_self⟩, ?_⟩
        rintro ⟨r, hr⟩
        have hAbsent := List.lookup_eq_none_iff.mp hLookup (key, r) hr
        simp at hAbsent

end Block

/-! ## Walking down the dominator tree -/

section Walk

variable {body : Body} {visited : List Label} {w : Walk} {label : Label}

/-- A block that has been visited: what is known at its end covers it and all that strictly dominate
it, and no key of it is one of theirs or comes twice. -/
structure Placed (body : Body) (visited : List Label) (w : Walk) (label : Label) : Prop where
  known : ∃ known, w.atEnd.lookup label = some known ∧
    (∀ fact ∈ known, body.WrittenBy visited fact.2) ∧
    ∀ d, body.graph.Dom body.entry d label → ∀ i ∈ (w.body.block d).instrs, ∀ key,
      keyOf i = some key → Covers known key
  apart : ∀ d, body.graph.SDom body.entry d label → ∀ i ∈ (w.body.block d).instrs,
    ∀ j ∈ (w.body.block label).instrs, ∀ key, keyOf i = some key → keyOf j ≠ some key
  distinct : ((w.body.block label).instrs.filterMap keyOf).Nodup
  left : (w.body.block label).instrs.Sublist
    ((body.block label).instrs.map (Instr.renameUses w.replaced.representative))
  impure : (w.body.block label).instrs.filter (!·.isPure) =
    ((body.block label).instrs.filter (!·.isPure)).map
      (Instr.renameUses w.replaced.representative)
  uses : ∀ i ∈ (body.block label).instrs, ∀ a ∈ i.uses, body.WrittenBy visited a

/-- The walk behind some blocks. -/
structure Visited (body : Body) (visited : List Label) (w : Walk) : Prop where
  within : w.replaced.Within (body.WrittenBy visited)
  entry : w.body.entry = body.entry
  length : w.body.blocks.length = body.blocks.length
  terminator : ∀ label, (w.body.block label).terminator = (body.block label).terminator
  unvisited : ∀ label, label ∉ visited → w.body.block label = body.block label
  closed : ∀ label ∈ visited, ∀ d, body.graph.SDom body.entry d label → d ∈ visited
  placed : ∀ label ∈ visited, Placed body visited w label

/-- A block that has been visited stays as it is. -/
theorem Placed.frame {more : List Label} {w' : Walk} (h : Placed body visited w label)
    (hKnown : w'.atEnd.lookup label = w.atEnd.lookup label)
    (hSame : ∀ d, body.graph.Dom body.entry d label → w'.body.block d = w.body.block d)
    (hMore : ∀ r, body.WrittenBy visited r → body.WrittenBy more r)
    (hAgrees : ∀ r, body.WrittenBy visited r →
      w'.replaced.representative r = w.replaced.representative r) :
    Placed body more w' label := by
  have hHere := hSame label (.inl rfl)
  have hRename : ∀ i ∈ (body.block label).instrs,
      i.renameUses w'.replaced.representative = i.renameUses w.replaced.representative :=
    fun i hi => Instr.renameUses_congr fun a ha => hAgrees a (h.uses i hi a ha)
  constructor
  case known =>
    obtain ⟨known, hLookup, hWritten, hCovers⟩ := h.known
    refine ⟨known, hKnown.trans hLookup, fun fact hFact => hMore _ (hWritten fact hFact), ?_⟩
    intro d hDom i hi
    rw [hSame d hDom] at hi
    exact hCovers d hDom i hi
  case apart =>
    intro d hDom i hi j hj
    rw [hSame d (.inr hDom)] at hi
    rw [hHere] at hj
    exact h.apart d hDom i hi j hj
  case distinct =>
    rw [hHere]
    exact h.distinct
  case left =>
    rw [hHere, List.map_congr_left hRename]
    exact h.left
  case impure =>
    rw [hHere, List.map_congr_left fun i hi => hRename i (List.mem_of_mem_filter hi)]
    exact h.impure
  case uses => exact fun i hi a ha => hMore a (h.uses i hi a ha)

/-- The block that was visited last: it holds what numbering left of it, and what it inherited
covers all that strictly dominate it. -/
theorem Placed.next {w' : Walk} {inherited : Known} {out : List Instr × Known × Substitution × Bool}
    (hNumbers : Numbers (body.WrittenBefore visited label) inherited w.replaced
      (body.block label).instrs out)
    (hCovers : ∀ d, body.graph.SDom body.entry d label → ∀ i ∈ (w.body.block d).instrs, ∀ key,
      keyOf i = some key → Covers inherited key)
    (hHere : (w'.body.block label).instrs = out.1)
    (hAbove : ∀ d, body.graph.SDom body.entry d label → w'.body.block d = w.body.block d)
    (hKnown : w'.atEnd.lookup label = some out.2.1) (hReplaced : w'.replaced = out.2.2.1)
    (hUses : ∀ i ∈ (body.block label).instrs, ∀ a ∈ i.uses,
      body.WrittenBefore visited label a ∨ a ∈ (body.block label).instrs.filterMap Instr.dst) :
    Placed body (label :: visited) w' label := by
  constructor
  case known =>
    refine ⟨out.2.1, hKnown, ?_, ?_⟩
    · exact fun fact hFact => Body.writtenBy_cons.mpr (hNumbers.registers fact hFact)
    · rintro d (rfl | hDom) i hi key hKey
      · rw [hHere] at hi
        exact (hNumbers.covers i hi key hKey).1
      · rw [hAbove d hDom] at hi
        obtain ⟨r, hr⟩ := hCovers d hDom i hi key hKey
        exact ⟨r, hNumbers.grows hr⟩
  case apart =>
    intro d hDom i hi j hj key hKey hSame
    rw [hAbove d hDom] at hi
    rw [hHere] at hj
    exact (hNumbers.covers j hj key hSame).2 (hCovers d hDom i hi key hKey)
  case distinct =>
    rw [hHere]
    exact hNumbers.distinct
  case left =>
    rw [hHere, hReplaced]
    exact hNumbers.left
  case impure =>
    rw [hHere, hReplaced]
    exact hNumbers.impure
  case uses => exact fun i hi a ha => Body.writtenBy_cons.mpr (hUses i hi a ha)

theorem Visited.start (body : Body) :
    Visited body []
      { body := body, replaced := Substitution.empty, changed := false, atEnd := [] } := by
  constructor
  case within => exact .empty _
  case closed => exact fun _ hMem => absurd hMem List.not_mem_nil
  case placed => exact fun _ hMem => absurd hMem List.not_mem_nil
  all_goals intros; rfl

/-- A block inherits what covers all that strictly dominate it. -/
theorem Visited.inherits (h : Visited body visited w) {parent : Option Label}
    (hParent : ∀ p, parent = some p → p ∈ visited)
    (hNearest : ∀ d, body.graph.SDom body.entry d label →
      ∃ p, parent = some p ∧ body.graph.Dom body.entry d p) :
    (∀ fact ∈ (parent.bind fun p => w.atEnd.lookup p).getD [], body.WrittenBy visited fact.2) ∧
      ∀ d, body.graph.SDom body.entry d label → ∀ i ∈ (w.body.block d).instrs, ∀ key,
        keyOf i = some key → Covers ((parent.bind fun p => w.atEnd.lookup p).getD []) key := by
  cases parent with
  | none =>
    refine ⟨by simp, fun d hDom => ?_⟩
    obtain ⟨p, hNone, -⟩ := hNearest d hDom
    cases hNone
  | some p =>
    obtain ⟨known, hLookup, hWritten, hCovers⟩ := (h.placed p (hParent p rfl)).known
    rw [Option.bind_some, hLookup, Option.getD_some]
    refine ⟨hWritten, fun d hDom => ?_⟩
    obtain ⟨q, hSome, hAbove⟩ := hNearest d hDom
    obtain rfl := Option.some.inj hSome
    exact hCovers d hAbove

/-- The visit of a block behind all that strictly dominate it. -/
theorem Visited.next (h : Visited body visited w) (hSingle : body.SingleAssignment)
    (hNew : label ∉ visited) (hMem : label ∈ body.order) {parent : Option Label}
    (hParent : ∀ p, parent = some p → p ∈ visited)
    (hNearest : ∀ d, body.graph.SDom body.entry d label →
      d ∈ visited ∧ ∃ p, parent = some p ∧ body.graph.Dom body.entry d p) :
    Visited body (label :: visited) (numberBlock w (label, parent)) := by
  have hReached := Body.reached_of_mem_order hMem
  have hOrder := hSingle.inOrder hReached hNew fun d hDom => (hNearest d hDom).1
  -- The table at the end of the nearest dominator covers all blocks that dominate this one.
  obtain ⟨hWritten, hCovers⟩ := h.inherits hParent fun d hDom => (hNearest d hDom).2
  have hNumbers := numbers_numberInstrs (body.block label).instrs
    (body.WrittenBefore visited label) _ w.replaced w.changed hOrder
    (h.within.mono fun r hr => .inl hr) fun fact hFact => .inl (hWritten fact hFact)
  have hLt : label < w.body.blocks.length := h.length ▸ Body.lt_of_mem_order hMem
  have hBefore : ∀ r, body.WrittenBy visited r → body.WrittenBy (label :: visited) r :=
    fun r hr => Body.writtenBy_cons.mpr (.inl (.inl hr))
  unfold numberBlock
  dsimp only
  rw [h.unvisited label hNew]
  generalize (parent.bind fun p => w.atEnd.lookup p).getD [] = inherited at hCovers hNumbers ⊢
  generalize numberInstrs (body.block label).instrs inherited w.replaced w.changed = out
    at hNumbers ⊢
  have hHere : ((w.body.modifyBlock label fun b => { b with instrs := out.1 }).block label).instrs =
      out.1 := by
    rw [Body.block_modifyBlock_self _ hLt]
  have hElse : ∀ other, other ≠ label →
      (w.body.modifyBlock label fun b => { b with instrs := out.1 }).block other =
        w.body.block other :=
    fun other hne => Body.block_modifyBlock_of_ne _ hne
  have hOld : ∀ d, d ∈ visited → d ≠ label := fun d hd hEq => hNew (hEq ▸ hd)
  constructor
  case within => exact hNumbers.within.mono fun r hr => Body.writtenBy_cons.mpr hr
  case entry => exact h.entry
  case length => simpa using h.length
  case terminator =>
    intro other
    rw [Body.block_modifyBlock]
    split <;> exact h.terminator other
  case unvisited =>
    intro other hOther
    rw [List.mem_cons, not_or] at hOther
    exact (hElse other hOther.1).trans (h.unvisited other hOther.2)
  case closed =>
    intro v hv d hDom
    rcases List.mem_cons.mp hv with rfl | hIn
    · exact List.mem_cons_of_mem _ (hNearest d hDom).1
    · exact List.mem_cons_of_mem _ (h.closed v hIn d hDom)
  case placed =>
    intro v hv
    rcases List.mem_cons.mp hv with rfl | hIn
    · refine Placed.next hNumbers hCovers hHere (fun d hDom => ?_) List.lookup_cons_self rfl
        hOrder.written_of_mem
      exact hElse d (hOld d (hNearest d hDom).1)
    -- What is known at the end of `v` rests on `v` and its dominators, and these have been visited.
    · apply (h.placed v hIn).frame
      · have hne : (v == label) = false := beq_false_of_ne (hOld v hIn)
        rw [List.lookup_cons, hne]
      · rintro d (rfl | hDom)
        · exact hElse d (hOld d hIn)
        · exact hElse d (hOld d (h.closed v hIn d hDom))
      · exact hBefore
      · exact fun r hr => hNumbers.agrees r (.inl hr)

end Walk

/-! ## What is left -/

section Left

variable {body : Body}

/-- Instructions that have no key twice. -/
theorem not_alike_of_nodup {instrs : List Instr} (h : (instrs.filterMap keyOf).Nodup) {m n : Nat}
    {i j : Instr} (hi : instrs[m]? = some i) (hj : instrs[n]? = some j) (hLess : m < n) :
    ¬ i.Alike j := by
  intro hAlike
  obtain ⟨key, hKey, hKey'⟩ := keyOf_eq_of_alike hAlike
  rw [List.Nodup, List.pairwise_filterMap, List.pairwise_iff_getElem] at h
  obtain ⟨hm, rfl⟩ := List.getElem?_eq_some_iff.mp hi
  obtain ⟨hn, rfl⟩ := List.getElem?_eq_some_iff.mp hj
  exact h m n hm hn hLess key hKey key hKey' rfl

/-- If every register is written in one place, before it is read, value numbering leaves no
computation twice where one comes before the other.  All calls, loads and stores are left in their
blocks and in order, with operands replaced, and nothing is added. -/
theorem distinct_run (hSingle : body.SingleAssignment) :
    let after := (run body).1
    after.Distinct ∧ ∃ rename : Reg → Reg, ∀ label,
      (after.block label).instrs.filter (!·.isPure) =
        ((body.block label).instrs.filter (!·.isPure)).map (Instr.renameUses rename) ∧
      (after.block label).instrs.Sublist
        ((body.block label).instrs.map (Instr.renameUses rename)) := by
  intro after
  obtain ⟨visited, hVisited, h⟩ := Body.preorder_induction numberBlock (Visited body)
    (Visited.start body) fun visited w label parent hw hNew hMem hParent hNearest =>
      hw.next hSingle hNew hMem hParent hNearest
  generalize hWalk : body.dominance.preorder.foldl numberBlock
    { body := body, replaced := Substitution.empty, changed := false, atEnd := [] } = w at h
  have hAfter : after = w.replaced.apply w.body := by
    rw [← hWalk]
    rfl
  obtain ⟨hEntry, hLength, -⟩ := w.replaced.apply_fields w.body
  have hBlock : ∀ label,
      after.block label = (w.body.block label).renameUses w.replaced.representative := by
    intro label
    rw [hAfter, Substitution.block_apply]
  have hGraph : after.graph = body.graph := by
    apply Body.graph_congr
    · rw [hAfter]
      exact hLength.trans h.length
    · intro label
      rw [hBlock, Block.terminator_renameUses, Terminator.successors_renameUses, h.terminator]
  have hRoot : after.entry = body.entry := by
    rw [hAfter]
    exact hEntry.trans h.entry
  -- The operands of what is left in a visited block have been replaced already.
  have hInstrs : ∀ label ∈ visited, (after.block label).instrs = (w.body.block label).instrs := by
    intro label hMem
    rw [hBlock, Block.instrs_renameUses]
    apply (List.map_congr_left fun i hi => ?_).trans (List.map_id _)
    obtain ⟨k, -, rfl⟩ := List.mem_map.mp ((h.placed label hMem).left.subset hi)
    rw [id, Instr.renameUses_renameUses]
    exact Instr.renameUses_congr fun a _ => h.within.representative_representative a
  constructor
  · intro a b m n i j hReached hi hj hOver hAlike
    rw [Body.Reached, hGraph, hRoot] at hReached
    have hb : b ∈ visited := by
      rw [hVisited]
      apply Body.mem_order_of_reached hReached
      by_contra hOut
      rw [hBlock, Block.instrs_renameUses, List.getElem?_map,
        Body.block_of_le (h.length ▸ Nat.le_of_not_lt hOut)] at hj
      simp [Block.empty] at hj
    rw [hInstrs b hb] at hj
    rcases hOver with ⟨rfl, hLess⟩ | hDom
    · rw [hInstrs a hb] at hi
      exact not_alike_of_nodup (h.placed a hb).distinct hi hj hLess hAlike
    · rw [hGraph, hRoot] at hDom
      rw [hInstrs a (h.closed b hb a hDom)] at hi
      obtain ⟨key, hKey, hKey'⟩ := keyOf_eq_of_alike hAlike
      exact (h.placed b hb).apart a hDom i (List.mem_of_getElem? hi) j (List.mem_of_getElem? hj)
        key hKey hKey'
  · refine ⟨w.replaced.representative, fun label => ?_⟩
    by_cases hMem : label ∈ visited
    · rw [hInstrs label hMem]
      exact ⟨(h.placed label hMem).impure, (h.placed label hMem).left⟩
    · rw [hBlock, h.unvisited label hMem, Block.instrs_renameUses, List.filter_map]
      simp [Function.comp_def]

theorem distinct_run_rereads : rereads.SingleAssignment ∧
    (run rereads).1.instrCount + 6 = rereads.instrCount ∧ (run rereads).1.Distinct ∧
    ∃ rename : Reg → Reg, ∀ label,
      ((run rereads).1.block label).instrs.filter (!·.isPure) =
        ((rereads.block label).instrs.filter (!·.isPure)).map (Instr.renameUses rename) ∧
      ((run rereads).1.block label).instrs.Sublist
        ((rereads.block label).instrs.map (Instr.renameUses rename)) := by
  have hShaped : rereads.Shaped :=
    Body.shaped_of_checks [[], [0, 1, 2, 3], [0, 1, 2, 3, 4, 5, 6, 7, 8, 9],
      [0, 1, 2, 3, 4, 5, 6, 7, 8, 9]] (by decide +kernel)
  exact ⟨hShaped.singleAssignment, by decide +kernel, distinct_run hShaped.singleAssignment⟩

end Left

end ValueNumbering

end LiveCompiler
