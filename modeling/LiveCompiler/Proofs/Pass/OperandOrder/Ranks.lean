import LiveCompiler.Proofs.Ir.SingleAssignment
import LiveCompiler.Proofs.Pass.OperandOrder

/-!
# Ranks of registers

A register has the ranks that the blocks of the search order give it (`mem_ranks_iff`).  If every
register is written in one place, constants have rank zero, and every other register that some
block of the order writes has a higher rank (`rank_eq_zero`, `rank_pos`).  Exchanging operands gives
no register another rank, so a second run has nothing to exchange (`ranks_run`, `snd_run_run`).
-/

namespace LiveCompiler

open Ir

namespace OperandOrder

variable {body : Body} {r : Reg} {rank : Nat}

/-- A block of the given rank gives a register a rank. -/
def Writes (b : Block) (blockRank : Nat) (r : Reg) (rank : Nat) : Prop :=
  (r ∈ b.params ∧ rank = blockRank) ∨
    ∃ i ∈ b.instrs, i.dst = some r ∧ rank = instrRank blockRank i

theorem mem_rankBlock_iff {blockRank : Nat} {ranks : Ranks} {b : Block} :
    (r, rank) ∈ rankBlock blockRank ranks b ↔ (r, rank) ∈ ranks ∨ Writes b blockRank r rank := by
  have hParams : ∀ (params : List Reg) (ranks : Ranks),
      (r, rank) ∈ params.foldl (fun ranks r => (r, blockRank) :: ranks) ranks ↔
        (r, rank) ∈ ranks ∨ (r ∈ params ∧ rank = blockRank) := by
    intro params
    induction params with
    | nil => simp
    | cons p params ih =>
      intro ranks
      rw [List.foldl_cons, ih]
      simp only [List.mem_cons, Prod.mk.injEq]
      tauto
  unfold rankBlock Writes
  dsimp only
  rw [← or_assoc, ← hParams]
  generalize b.params.foldl _ ranks = known
  induction b.instrs generalizing known with
  | nil => simp
  | cons i instrs ih =>
    rw [List.foldl_cons]
    apply (ih _).trans
    cases hDst : i.dst with
    | none => simp [hDst]
    | some dst =>
      simp only [List.mem_cons, Prod.mk.injEq, exists_eq_or_imp, hDst, Option.some.injEq]
      rw [or_assoc, eq_comm (a := r), or_left_comm]

/-- A register has the ranks that the blocks of the search order give it. -/
theorem mem_ranks_iff :
    (r, rank) ∈ ranks body ↔ ∃ place label, body.order[place]? = some label ∧
      Writes (body.block label) (body.arity + 2 + place) r rank := by
  have hFrom : ∀ (todo : List Label) (start : Nat) (known : Ranks),
      (r, rank) ∈ (todo.foldl (fun (state : Nat × Ranks) label =>
          (state.1 + 1, rankBlock state.1 state.2 (body.block label))) (start, known)).2 ↔
        (r, rank) ∈ known ∨ ∃ place label, todo[place]? = some label ∧
          Writes (body.block label) (start + place) r rank := by
    intro todo
    induction todo with
    | nil => simp
    | cons label todo ih =>
      intro start known
      rw [List.foldl_cons, ih, mem_rankBlock_iff, or_assoc]
      apply or_congr_right
      constructor
      · rintro (hHere | ⟨place, other, hOther, hWrites⟩)
        · exact ⟨0, label, rfl, hHere⟩
        · refine ⟨place + 1, other, hOther, ?_⟩
          rwa [show start + (place + 1) = start + 1 + place by omega]
      · rintro ⟨place, other, hOther, hWrites⟩
        cases place with
        | zero =>
          obtain rfl := Option.some.inj hOther
          exact .inl hWrites
        | succ place =>
          refine .inr ⟨place, other, hOther, ?_⟩
          rwa [show start + 1 + place = start + (place + 1) by omega]
  unfold ranks
  rw [hFrom]
  simp

/-- The rank of a register, zero if it has none. -/
abbrev rankOf (body : Body) (r : Reg) : Nat :=
  ((ranks body).lookup r).getD 0

/-- Constants come last. -/
theorem rank_eq_zero (hOnce : body.DefinesOnce) {x : Float} (h : body.HoldsConst r x) :
    rankOf body r = 0 := by
  obtain ⟨label, hConst⟩ := h
  unfold rankOf
  cases hRank : (ranks body).lookup r with
  | none => rfl
  | some rank =>
    obtain ⟨place, other, -, hWrites⟩ := mem_ranks_iff.mp (mem_of_lookup hRank)
    rcases hWrites with ⟨hParam, -⟩ | ⟨i, hi, hDst, hEq⟩
    · exact absurd hParam (hOnce.dst_notMem_params hConst rfl)
    · rw [Option.getD_some, hEq, hOnce.instr_eq hi hConst hDst rfl]
      rfl

/-- What is written and is no constant comes before all constants. -/
theorem rank_pos {home : Label} (hHome : home ∈ body.order) (hDef : r ∈ (body.block home).defs)
    (h : ∀ x, ¬ body.HoldsConst r x) : 0 < rankOf body r := by
  -- Zero is the rank of constants only: arguments start at one, blocks behind them.
  have hPositive : ∀ {rank}, (r, rank) ∈ ranks body → 0 < rank := by
    intro rank hMem
    obtain ⟨place, label, -, hWrites⟩ := mem_ranks_iff.mp hMem
    rcases hWrites with ⟨-, rfl⟩ | ⟨i, hi, hDst, rfl⟩
    · omega
    · cases i with
      | const dst value =>
        obtain rfl := Option.some.inj hDst
        exact absurd ⟨label, hi⟩ (h value)
      | param dst index =>
        show 0 < 1 + index.toNat
        omega
      | _ =>
        show 0 < body.arity + 2 + place
        omega
  obtain ⟨place, hPlace⟩ := List.mem_iff_getElem?.mp hHome
  have hSome : ∃ rank, (r, rank) ∈ ranks body := by
    rcases Body.mem_defs.mp hDef with hParam | hInstr
    · exact ⟨_, mem_ranks_iff.mpr ⟨place, home, hPlace, .inl ⟨hParam, rfl⟩⟩⟩
    · obtain ⟨i, hi, hDst⟩ := List.mem_filterMap.mp hInstr
      exact ⟨_, mem_ranks_iff.mpr ⟨place, home, hPlace, .inr ⟨i, hi, hDst, rfl⟩⟩⟩
  obtain ⟨rank, hMem⟩ := hSome
  unfold rankOf
  cases hRank : (ranks body).lookup r with
  | none =>
    have hNone := List.lookup_eq_none_iff.mp hRank (r, rank) hMem
    simp at hNone
  | some rank => exact hPositive (mem_of_lookup hRank)

/-- A register of rank zero is not put to the left of one with a higher rank. -/
theorem not_isBelow {left right : Reg} (hRight : rankOf body right = 0)
    (hLeft : 0 < rankOf body left) : isBelow (ranks body) left right = false := by
  show (decide (rankOf body left < rankOf body right) ||
    (rankOf body left == rankOf body right && decide (left < right))) = false
  rw [hRight, decide_eq_false (Nat.not_lt_zero _), beq_false_of_ne (Nat.ne_of_gt hLeft)]
  rfl

/-! ## What putting operands in order leaves alone -/

theorem block_run (label : Label) : (run body).1.block label =
    { body.block label with instrs := (body.block label).instrs.map (reorder (ranks body)) } :=
  Body.block_mapBlocks rfl

theorem graph_run : (run body).1.graph = body.graph := by
  apply Body.graph_congr
  · exact Body.length_mapBlocks _
  · intro label
    rw [block_run]

/-- Changing places neither makes nor takes away a constant. -/
theorem reorder_eq_const_iff {ranks : Ranks} {i : Instr} {x : Float} :
    reorder ranks i = .const r x ↔ i = .const r x := by
  unfold reorder
  split
  · cases i <;> simp [exchange]
  · rfl

theorem holdsConst_run {x : Float} :
    (run body).1.HoldsConst r x ↔ body.HoldsConst r x := by
  unfold Body.HoldsConst
  simp only [block_run, List.mem_map, reorder_eq_const_iff, exists_eq_right]

theorem isPure_reorder (ranks : Ranks) (i : Instr) : (reorder ranks i).isPure = i.isPure := by
  unfold reorder
  split
  · cases i <;> rfl
  · rfl

theorem mem_uses_run {a : Reg} : a ∈ (run body).1.uses ↔ a ∈ body.uses := by
  have hBlock : ∀ b : Block,
      a ∈ Block.uses { b with instrs := b.instrs.map (reorder (ranks body)) } ↔ a ∈ b.uses := by
    intro b
    simp only [Block.uses, List.mem_append, List.mem_flatMap, List.mem_map,
      exists_exists_and_eq_and, mem_uses_reorder]
  show a ∈ List.flatMap Block.uses (body.blocks.map fun b =>
      { b with instrs := b.instrs.map (reorder (ranks body)) }) ↔
    a ∈ List.flatMap Block.uses body.blocks
  rw [List.flatMap_map, List.mem_flatMap, List.mem_flatMap]
  simp only [hBlock]

/-! ## Putting operands in order twice -/

theorem instrRank_reorder (ranks : Ranks) (blockRank : Nat) (i : Instr) :
    instrRank blockRank (reorder ranks i) = instrRank blockRank i := by
  unfold reorder
  split
  · cases i <;> rfl
  · rfl

/-- The ranks do not depend on the order of operands. -/
theorem ranks_run (body : Body) : ranks (run body).1 = ranks body := by
  have hBlock : ∀ (blockRank : Nat) (known : Ranks) (label : Label),
      rankBlock blockRank known ((run body).1.block label) =
        rankBlock blockRank known (body.block label) := by
    intro blockRank known label
    rw [block_run]
    unfold rankBlock
    simp only [List.foldl_map, dst_reorder, instrRank_reorder]
  have hOrder : (run body).1.order = body.order := by
    unfold Body.order
    rw [graph_run]
    rfl
  unfold ranks
  simp only [hBlock, hOrder]
  rfl

/-- Operands that have been put in order are in order. -/
theorem isMisordered_reorder (ranks : Ranks) (i : Instr) :
    isMisordered ranks (reorder ranks i) = false := by
  unfold reorder
  split
  · rename_i hMisordered
    cases i with
    | arith op dst left right =>
      obtain ⟨-, hBelow⟩ := Bool.and_eq_true_iff.mp hMisordered
      have hNot : isBelow ranks right left = false := by
        unfold isBelow at hBelow ⊢
        simp only [Bool.or_eq_true, Bool.and_eq_true, decide_eq_true_eq, beq_iff_eq] at hBelow
        simp only [Bool.or_eq_false_iff, Bool.and_eq_false_iff, decide_eq_false_iff_not,
          beq_eq_false_iff_ne]
        rcases hBelow with hLower | ⟨hSame, hNumber⟩
        · exact ⟨Nat.lt_asymm hLower, .inl (Nat.ne_of_gt hLower)⟩
        · exact ⟨Nat.not_lt.mpr (Nat.le_of_eq hSame), .inr (Nat.lt_asymm hNumber)⟩
      show (op.isCommutative && isBelow ranks right left) = false
      rw [hNot, Bool.and_false]
    | _ => rfl
  · rename_i hOrdered
    exact Bool.eq_false_of_not_eq_true hOrdered

/-- There is nothing to exchange for a second time. -/
theorem snd_run_run (body : Body) : (run (run body).1).2 = false := by
  show ((run body).1.blocks.any fun b => b.instrs.any (isMisordered (ranks (run body).1))) = false
  rw [ranks_run, List.any_eq_false]
  intro b hb hAny
  obtain ⟨old, -, rfl⟩ := List.mem_map.mp hb
  obtain ⟨j, hj, hMisordered⟩ := List.any_eq_true.mp hAny
  obtain ⟨i, -, rfl⟩ := List.mem_map.mp hj
  exact absurd ((isMisordered_reorder _ i).symm.trans hMisordered) Bool.false_ne_true

end OperandOrder

end LiveCompiler
