import LiveCompiler.Pass.ValueNumbering
import LiveCompiler.Proofs.Binary64.Identities
import LiveCompiler.Proofs.Graph.Dominance
import LiveCompiler.Proofs.Pass.Substitution

/-!
# Value numbering keeps what a body yields

What is known at a point of the walk are registers that have been written before that
point, each with what its instruction computes (`Facts`).  A block takes over what is known
at the end of its immediate dominator, where all these registers have been written.  So an
instruction with a known key computes what an earlier register holds, and that register
stands for its own.
-/

namespace LiveCompiler

open Ir

namespace ValueNumbering

/-- What a key computes. -/
def Key.Computes (c : Setting) (s : Store) : Key → Float → Prop
  | .const bits, x => x.toBits = bits
  | .param index, x => x = c.args.getD index.toNat 0.0
  | .arith op left right, x => x = op.apply (s.regs left) (s.regs right)
  | .less left right, x => x = lessThan (s.regs left) (s.regs right)

theorem Key.Computes.unique {c : Setting} {s : Store} {key : Key} {x y : Float}
    (hx : key.Computes c s x) (hy : key.Computes c s y) : x = y := by
  cases key with
  | const bits => exact Binary64.toBits_inj (Eq.trans hx (Eq.symm hy))
  | _ => exact Eq.trans hx (Eq.symm hy)

/-- The key of an instruction computes what the instruction does. -/
theorem computes_keyOf {c : Setting} {s : Store} {i : Instr} {key : Key} (h : keyOf i = some key) :
    key.Computes c s (i.value c s) := by
  cases i with
  | const dst value =>
    obtain rfl := Option.some.inj h
    rfl
  | param dst index =>
    obtain rfl := Option.some.inj h
    rfl
  | load dst slot => cases h
  | store slot src => cases h
  | arith op dst left right =>
    simp only [keyOf] at h
    split at h
    · rename_i hSwap
      obtain rfl := Option.some.inj h
      exact ArithOp.apply_comm (Bool.and_eq_true_iff.mp hSwap).1 _ _
    · obtain rfl := Option.some.inj h
      rfl
  | less dst left right =>
    obtain rfl := Option.some.inj h
    rfl
  | call dst callee args => cases h

/-- Only pure instructions have a key. -/
theorem isPure_of_keyOf {i : Instr} {f : Reg → Reg} {key : Key}
    (h : keyOf (i.renameUses f) = some key) : i.isPure = true := by
  cases i with
  | load dst slot => cases h
  | store slot src => cases h
  | call dst callee args => cases h
  | _ => rfl

section Cases

variable {i : Instr} {rest : List Instr} {known : Known} {s : Substitution} {changed : Bool}
  {key : Key} {dst earlier : Reg}

/-- An instruction without a key is kept, with its operands replaced. -/
theorem numberInstrs_of_none (hKey : keyOf (i.renameUses s.representative) = none) :
    numberInstrs (i :: rest) known s changed =
      (i.renameUses s.representative :: (numberInstrs rest known s changed).1,
        (numberInstrs rest known s changed).2) := by
  simp [numberInstrs, hKey]

/-- An instruction whose key is known is taken out. -/
theorem numberInstrs_of_known (hKey : keyOf (i.renameUses s.representative) = some key)
    (hDst : i.dst = some dst) (hLookup : known.lookup key = some earlier) :
    numberInstrs (i :: rest) known s changed =
      numberInstrs rest known (s.insert dst earlier) true := by
  simp [numberInstrs, hKey, hDst, hLookup]

/-- An instruction whose key is new is kept, and its register is known from there on. -/
theorem numberInstrs_of_new (hKey : keyOf (i.renameUses s.representative) = some key)
    (hDst : i.dst = some dst) (hLookup : known.lookup key = none) :
    numberInstrs (i :: rest) known s changed =
      (i.renameUses s.representative :: (numberInstrs rest ((key, dst) :: known) s changed).1,
        (numberInstrs rest ((key, dst) :: known) s changed).2) := by
  simp [numberInstrs, hKey, hDst, hLookup]

end Cases

section Walk

variable {callable : FuncId → Nat → Prop} {starts : Starts} {body : Body} {label : Label}
  {done : List Instr}

/-- A register holds what a key computes as long as it is known. -/
def Holds (starts : Starts) (body : Body) (key : Key) (r : Reg) : Prop :=
  ∀ c label done s, body.Visits starts c label done s → body.Known label done r →
    key.Computes c s (s.regs r)

/-- What is known at a point has been written before it and holds. -/
def Facts (starts : Starts) (body : Body) (label : Label) (done : List Instr) (known : Known) :
    Prop :=
  ∀ key r, (key, r) ∈ known → body.Known label done r ∧ Holds starts body key r

theorem Facts.snoc {known : Known} (h : Facts starts body label done known) (i : Instr) :
    Facts starts body label (done ++ [i]) known :=
  fun key r hMem => ⟨Body.known_snoc.mpr (.inl (h key r hMem).1), (h key r hMem).2⟩

/-- The register of an instruction holds what the key of its renamed form computes. -/
theorem holds_of_keyOf (hShaped : body.Shaped) {s : Substitution}
    (hSound : s.Sound body (body.Seen starts)) {i : Instr} {r : Reg} {key : Key}
    (hAt : body.WrittenAt label done i r) (hKey : keyOf (i.renameUses s.representative) = some key) :
    Holds starts body key r := by
  intro c other more store hVisit hr
  rw [(hSound.pure_value hShaped hAt (isPure_of_keyOf hKey) hVisit hr).1]
  exact computes_keyOf hKey

/-- A register whose key is known stands for no other value than the earlier register. -/
theorem stands_of_lookup (hShaped : body.Shaped) {r earlier : Reg} {key : Key}
    {i : Instr} (hAt : body.WrittenAt label done i r) (hHolds : Holds starts body key r)
    {known : Known} (hFacts : Facts starts body label done known)
    (hLookup : known.lookup key = some earlier) : body.Stands (body.Seen starts) r earlier := by
  obtain ⟨hEarlier, hHolds'⟩ := hFacts key earlier (mem_of_lookup hLookup)
  constructor
  · intro other more hPoint hr
    exact hAt.known_of_known hShaped hEarlier hPoint hr
  · rintro other more s hPoint ⟨c, hVisit⟩ hr
    exact (hHolds c other more s hVisit hr).unique
      (hHolds' c other more s hVisit (hAt.known_of_known hShaped hEarlier hPoint hr))

/-- What numbering the rest of a block comes to. -/
structure Numbered (starts : Starts) (body : Body) (label : Label) (done rest : List Instr)
    (s : Substitution) (out : List Instr × Known × Substitution × Bool) : Prop where
  sound : out.2.2.1.Sound body (body.Seen starts)
  facts : Facts starts body label (body.block label).instrs out.2.1
  thins : body.Thins starts out.2.2.1.Replaces label done rest out.1
  grows : ∀ r, s.Replaces r → out.2.2.1.Replaces r
  fresh : ∀ r, out.2.2.1.Replaces r → s.Replaces r ∨ r ∈ rest.filterMap Instr.dst

section Numbered

variable {rest : List Instr} {i j : Instr} {s : Substitution} {dst earlier : Reg}
  {out : List Instr × Known × Substitution × Bool}

/-- The instruction at a point is kept, in a form that does the same. -/
theorem Numbered.keep (h : Numbered starts body label (done ++ [i]) rest s out)
    (hSame : i.Replaces starts body label done j) (hUses : ∀ a ∈ j.uses, body.Known label done a) :
    Numbered starts body label done (i :: rest) s (j :: out.1, out.2) where
  sound := h.sound
  facts := h.facts
  thins := .keep hSame hUses h.thins
  grows := h.grows
  fresh r hr := (h.fresh r hr).imp_right fun hLater => mem_dsts_cons.mpr (.inr hLater)

/-- The instruction at a point is taken out, and an earlier register stands for its own. -/
theorem Numbered.drop (h : Numbered starts body label (done ++ [i]) rest (s.insert dst earlier) out)
    (hPure : i.isPure = true) (hDst : i.dst = some dst)
    (hReplaces : (s.insert dst earlier).Replaces dst) :
    Numbered starts body label done (i :: rest) s out where
  sound := h.sound
  facts := h.facts
  thins := by
    refine .drop (Instr.made_of_isPure hPure) (fun r hr => ?_) (Instr.stored_of_isPure hPure) h.thins
    obtain rfl : dst = r := Option.some.inj (hDst.symm.trans hr)
    exact h.grows dst hReplaces
  grows r hr := h.grows r (Substitution.Replaces.insert hr)
  fresh r hr := by
    rcases h.fresh r hr with hNew | hLater
    · rcases Substitution.replaces_insert hNew with rfl | hOld
      · exact .inr (mem_dsts_cons.mpr (.inl hDst))
      · exact .inl hOld
    · exact .inr (mem_dsts_cons.mpr (.inr hLater))

/-- A register that was known before another is written does not stand for itself after the
other has been replaced by it. -/
theorem replaces_insert_dst (hShaped : body.Shaped) (hSound : s.Sound body (body.Seen starts))
    (hAt : body.WrittenAt label done i dst) (hEarlier : body.Known label done earlier) :
    (s.insert dst earlier).Replaces dst := by
  unfold Substitution.Replaces
  rw [Substitution.entries_insert, if_neg, List.lookup_cons_self]
  · simp
  · -- What stands for the earlier register is known here, so it is not `dst`.
    intro hEq
    obtain ⟨rest, hInstrs⟩ := hAt.instrs
    have hKnown := (hSound.stands earlier).known label done
      (Body.Point.before hAt.reached hInstrs) hEarlier
    exact hShaped.notKnown hAt (hEq ▸ hKnown)

/-- One more fact about a register that is written at this point. -/
theorem Facts.cons {known : Known} {key : Key} (h : Facts starts body label done known)
    (hDst : i.dst = some dst) (hHolds : Holds starts body key dst) :
    Facts starts body label (done ++ [i]) ((key, dst) :: known) := by
  intro k r hIn
  rcases List.mem_cons.mp hIn with hHead | hTail
  · obtain ⟨rfl, rfl⟩ := Prod.mk.inj hHead
    exact ⟨Body.known_snoc.mpr (.inr hDst), hHolds⟩
  · exact h.snoc i k r hTail

end Numbered

theorem numbered (hShaped : body.Shaped)
    (hReached : body.Reached label) (rest : List Instr) :
    ∀ (done : List Instr) (known : Known) (s : Substitution) (changed : Bool),
      (body.block label).instrs = done ++ rest → s.Sound body (body.Seen starts) →
      Facts starts body label done known → (∀ r ∈ rest.filterMap Instr.dst, ¬ s.Replaces r) →
      Numbered starts body label done rest s (numberInstrs rest known s changed) := by
  induction rest with
  | nil =>
    intro done known s changed hInstrs hSound hFacts hFresh
    rw [List.append_nil] at hInstrs
    exact ⟨hSound, hInstrs ▸ hFacts, .nil done, fun _ h => h, fun _ h => .inl h⟩
  | cons i rest ih =>
    intro done known s changed hInstrs hSound hFacts hFresh
    have hInstrs' := hInstrs.trans (List.append_cons done i rest)
    have hSame : i.Replaces starts body label done (i.renameUses s.representative) :=
      .rename hSound.stands (hShaped.uses_known label hReached done i rest hInstrs)
    have hUses := hSound.uses_known hShaped hReached hInstrs
    have hFresh' : ∀ r ∈ rest.filterMap Instr.dst, ¬ s.Replaces r := fun r hr =>
      hFresh r (mem_dsts_cons.mpr (.inr hr))
    cases hKey : keyOf (i.renameUses s.representative) with
    | none =>
      rw [numberInstrs_of_none hKey]
      exact (ih _ known s changed hInstrs' hSound (hFacts.snoc i) hFresh').keep hSame hUses
    | some key =>
      have hPure := isPure_of_keyOf hKey
      obtain ⟨dst, hDst⟩ := Instr.exists_dst hPure
      have hAt : body.WrittenAt label done i dst := ⟨hReached, ⟨rest, hInstrs⟩, hDst⟩
      have hHolds := holds_of_keyOf hShaped hSound hAt hKey
      cases hLookup : known.lookup key with
      | some earlier =>
        have hEarlier := (hFacts key earlier (mem_of_lookup hLookup)).1
        have hInserted := hSound.insert
          (hFresh dst (mem_dsts_cons.mpr (.inl hDst)))
          (stands_of_lookup hShaped hAt hHolds hFacts hLookup)
        have hRest := ih _ known (s.insert dst earlier) true hInstrs' hInserted (hFacts.snoc i)
          fun r hr hNew => by
            rcases Substitution.replaces_insert hNew with rfl | hOld
            · exact hShaped.dst_notMem_rest hInstrs hDst hr
            · exact hFresh' r hr hOld
        rw [numberInstrs_of_known hKey hDst hLookup]
        exact hRest.drop hPure hDst (replaces_insert_dst hShaped hSound hAt hEarlier)
      | none =>
        rw [numberInstrs_of_new hKey hDst hLookup]
        exact (ih _ ((key, dst) :: known) s changed hInstrs' hSound (hFacts.cons hDst hHolds)
          hFresh').keep hSame hUses

/-- The state of the walk when some blocks have been visited. -/
structure Walked (starts : Starts) (body : Body) (visited : List Label) (w : Walk) : Prop where
  swept : Substitution.Swept starts body visited w.body w.replaced
  facts : ∀ label known, w.atEnd.lookup label = some known →
    Facts starts body label (body.block label).instrs known
  reached : ∀ label ∈ visited, body.Reached label

theorem Walked.visit (hShaped : body.Shaped)
    {visited : List Label} {w : Walk} (h : Walked starts body visited w) (hNew : label ∉ visited)
    (hReached : body.Reached label) {parent : Option Label}
    (hParent : ∀ u, parent = some u → body.graph.SDom body.entry u label) :
    Walked starts body (label :: visited) (numberBlock w (label, parent)) := by
  have hInherited :
      Facts starts body label [] ((parent.bind fun p => w.atEnd.lookup p).getD []) := by
    intro key r hMem
    cases parent with
    | none => simp at hMem
    | some u =>
      cases hLookup : w.atEnd.lookup u with
      | none => simp [hLookup] at hMem
      | some known =>
        simp only [Option.bind_some, hLookup, Option.getD_some] at hMem
        obtain ⟨hKnown, hHolds⟩ := h.facts u known hLookup key r hMem
        exact ⟨.inl (hKnown.available_of_sdom (List.prefix_refl _) (hParent u rfl)), hHolds⟩
  have hNumbered := numbered hShaped hReached (body.block label).instrs [] _ w.replaced
    w.changed (List.nil_append _).symm h.swept.sound hInherited (h.swept.not_replaces hShaped hNew)
  unfold numberBlock
  dsimp only
  rw [h.swept.unvisited label hNew]
  generalize numberInstrs (body.block label).instrs _ w.replaced w.changed = out at hNumbered ⊢
  constructor
  case swept =>
    exact h.swept.visit hShaped hReached hNumbered.sound hNumbered.thins hNumbered.grows hNumbered.fresh
  case facts =>
    intro other known hLookup
    rw [List.lookup_cons] at hLookup
    split at hLookup
    · rename_i hEq
      obtain rfl := beq_iff_eq.mp hEq
      obtain rfl := Option.some.inj hLookup
      exact hNumbered.facts
    · exact h.facts other known hLookup
  case reached =>
    intro other hOther
    rcases List.mem_cons.mp hOther with rfl | hOld
    · exact hReached
    · exact h.reached other hOld

/-- Value numbering is a rewriting. -/
theorem run_rewrites (starts : Starts) (hShaped : body.Shaped) :
    (∃ rename keep, body.Rewrites starts (run body).1 rename keep) ∧
      (run body).1.slots = body.slots := by
  have hRoot : body.entry < body.graph.size := by
    rw [Body.size_graph]
    exact hShaped.entry_lt
  have hStart : Walked starts body []
      { body := body, replaced := Substitution.empty, changed := false, atEnd := [] } :=
    ⟨.start starts body, by simp, by simp⟩
  obtain ⟨visited, hVisited, hWalked⟩ := Dominance.walk_induction hRoot numberBlock _
    (Walked starts body) (hStart.visit hShaped List.not_mem_nil (.entry body) fun _ h => by cases h)
    (fun visited w v u hWalked hNew hv hne hIdom hu => by
      refine hWalked.visit hShaped hNew (hShaped.mem_order_iff.mp hv) fun u' hEq => ?_
      obtain rfl := Option.some.inj hEq
      exact (Dominance.idom_spec hv hne hIdom).1)
  have hRewrites := hWalked.swept.rewrites hShaped
    (fun label hReached => (hVisited label).mpr (hShaped.mem_order_iff.mpr hReached)) hWalked.reached
  exact ⟨⟨_, _, hRewrites⟩, hWalked.swept.slots_apply⟩

/-- Value numbering keeps what a body yields. -/
theorem keeps (hShaped : body.Shaped) :
    body.Keeps starts (run body).1 ∧ (run body).1.slots = body.slots := by
  obtain ⟨⟨rename, keep, hRewrites⟩, hSlots⟩ := run_rewrites starts hShaped
  exact ⟨hRewrites.keeps hShaped, hSlots⟩

/-- Value numbering loses no way to a block. -/
theorem connected (hShaped : body.Shaped) (hConnected : body.Connected) :
    (run body).1.Connected := by
  obtain ⟨⟨rename, keep, hRewrites⟩, -⟩ := run_rewrites .blank hShaped
  exact hRewrites.connected hConnected

end Walk

end ValueNumbering

end LiveCompiler
