import LiveCompiler.Pass.OperandOrder
import LiveCompiler.Proofs.Binary64.Identities
import LiveCompiler.Proofs.Pass.Substitution

/-!
# Putting operands in order keeps what a body yields

Operands are exchanged only where the operation does not depend on their order, whatever
the ranks of the registers are.
-/

namespace LiveCompiler

open Ir

namespace OperandOrder

/-- Put the operands of an instruction in order. -/
def reorder (ranks : Ranks) (i : Instr) : Instr :=
  if isMisordered ranks i then exchange i else i

variable {callable : FuncId → Nat → Prop} {starts : Starts} {body : Body} {label : Label}
  {done : List Instr}

@[simp] theorem dst_reorder (ranks : Ranks) (i : Instr) : (reorder ranks i).dst = i.dst := by
  unfold reorder
  split
  · cases i <;> rfl
  · rfl

theorem mem_uses_reorder {ranks : Ranks} {i : Instr} {a : Reg} :
    a ∈ (reorder ranks i).uses ↔ a ∈ i.uses := by
  unfold reorder
  split
  · cases i <;> simp [exchange, Instr.uses, or_comm]
  · exact Iff.rfl

theorem replaces_reorder (ranks : Ranks) (i : Instr) :
    i.Replaces starts body label done (reorder ranks i) := by
  have hSame : i.Replaces starts body label done i := .refl starts body label done i
  unfold reorder
  split
  · rename_i hMisordered
    cases i with
    | arith op dst left right =>
      have hComm : op.isCommutative = true := (Bool.and_eq_true_iff.mp hMisordered).1
      exact ⟨rfl, rfl, fun _ _ _ _ => trivial,
        fun _ _ _ => ArithOp.apply_comm hComm _ _, fun _ _ _ => rfl⟩
    | _ => exact hSame
  · exact hSame

/-- The rest of a block with its operands in order. -/
theorem rewritesInstrs_map (hShaped : body.Shaped) (hReached : body.Reached label)
    {ranks : Ranks} {dead : Slot → Prop} (rest : List Instr) :
    ∀ done : List Instr, (body.block label).instrs = done ++ rest →
      body.RewritesInstrs starts id (fun _ => true) dead label done rest
        (rest.map (reorder ranks)) := by
  induction rest with
  | nil => exact fun done _ => .nil done
  | cons i rest ih =>
    intro done hInstrs
    rw [List.map_cons, ← Instr.renameUses_id (reorder ranks i)]
    refine .keep (replaces_reorder _ i) (fun a ha => ⟨?_, rfl⟩)
      (ih (done ++ [i]) (by rw [hInstrs, List.append_assoc, List.singleton_append]))
    exact hShaped.uses_known label hReached done i rest hInstrs a (mem_uses_reorder.mp ha)

/-- Exchanging operands is a rewriting that neither replaces nor takes out anything. -/
theorem run_rewrites (starts : Starts) (hShaped : body.Shaped) :
    body.Rewrites starts (run body).1 id fun _ => true := by
  have hBlock : ∀ label, (run body).1.block label = { body.block label with
      instrs := (body.block label).instrs.map (reorder (ranks body)) } :=
    fun label => Body.block_mapBlocks rfl
  have hKeepArgs : ∀ label, body.Reached label →
      (body.block label).terminator.mapEdges (body.keepArgs fun _ => true) =
        (body.block label).terminator := fun label hReached =>
    Terminator.mapEdges_of_forall fun e he =>
      Body.keepArgs_of_forall (hShaped.edge_fits label hReached e he).2 fun _ _ => rfl
  constructor
  case entry => rfl
  case length => exact Body.length_mapBlocks _
  case arity => rfl
  case regCount => exact Nat.le_refl _
  case slotCount => exact Nat.le_refl _
  case stands => exact fun r => .refl r
  case exits => exact fun _ _ _ _ => rfl
  case defs =>
    intro label
    rw [hBlock]
    have hDsts : ((body.block label).instrs.map (reorder (ranks body))).filterMap Instr.dst =
        (body.block label).instrs.filterMap Instr.dst := by
      rw [List.filterMap_map]
      exact List.filterMap_congr fun i _ => dst_reorder _ i
    unfold Block.defs
    dsimp only
    rw [hDsts]
  case params =>
    intro label _
    rw [hBlock]
    exact (List.filter_eq_self.mpr fun _ _ => rfl).symm
  case terminator =>
    intro label hReached
    rw [hBlock, hKeepArgs label hReached, Terminator.renameUses_id]
  case instrs =>
    intro label hReached
    rw [hBlock]
    exact rewritesInstrs_map hShaped hReached _ [] (List.nil_append _).symm

/-- Exchanging operands keeps what a body yields. -/
theorem keeps (hShaped : body.Shaped) :
    body.Keeps starts (run body).1 ∧ (run body).1.slots = body.slots :=
  ⟨(run_rewrites starts hShaped).keeps hShaped, rfl⟩

/-- Exchanging operands loses no way to a block. -/
theorem connected (hShaped : body.Shaped) (hConnected : body.Connected) :
    (run body).1.Connected :=
  (run_rewrites .blank hShaped).connected hConnected

end OperandOrder

end LiveCompiler
