import LiveCompiler.Proofs.Pass.FlowCleanup.Branches
import LiveCompiler.Proofs.Pass.FlowCleanup.Dropping
import LiveCompiler.Proofs.Pass.FlowCleanup.Joining

/-!
# Cleaning up the control flow keeps what a body yields

Each step of a round keeps what a body yields, so any number of rounds does.  In the end every
block is reached.
-/

namespace LiveCompiler

open Ir

namespace FlowCleanup

variable {starts : Starts} {body : Body}

theorem slots_settleBranches : (settleBranches body).1.slots = body.slots := rfl

theorem fst_round (body : Body) :
    (round body).1 = (joinBlocks (forwardParams (settleBranches body).1).1).1 := rfl

theorem fst_run (body : Body) :
    (run body).1 = (dropUnreachable (rounds (weight body + 1) body).1).1 := by
  rw [run]

/-- A round keeps what a body yields. -/
theorem keeps_round (hShaped : body.Shaped) :
    body.Keeps starts (round body).1 ∧ (round body).1.slots = body.slots := by
  have hSettled : body.Keeps starts _ := keeps_settleBranches hShaped
  obtain ⟨hForwarded, hSlots⟩ := @Forwarding.keeps _ (settleBranches body).1 hSettled.shaped
  obtain ⟨hJoined, hSlots'⟩ := keeps_joinBlocks hForwarded.shaped
  rw [fst_round]
  exact ⟨(hSettled.trans hForwarded).trans hJoined,
    hSlots'.trans (hSlots.trans slots_settleBranches)⟩

theorem keeps_rounds (count : Nat) : ∀ {body : Body}, body.Shaped →
    body.Keeps starts (rounds count body).1 ∧ (rounds count body).1.slots = body.slots := by
  induction count with
  | zero => exact fun hShaped => ⟨.refl hShaped, rfl⟩
  | succ count ih =>
    intro body hShaped
    obtain ⟨hRound, hSlots⟩ := keeps_round hShaped
    obtain ⟨hRest, hSlots'⟩ := ih hRound.shaped
    unfold rounds
    dsimp only
    split
    · exact ⟨hRound.trans hRest, hSlots'.trans hSlots⟩
    · exact ⟨hRound, hSlots⟩

/-- Cleaning up keeps what a body yields and its slots, and all blocks are reached then. -/
theorem keeps (hShaped : body.Shaped) :
    body.Keeps starts (run body).1 ∧ (run body).1.slots = body.slots ∧ (run body).1.Connected := by
  obtain ⟨hSettled, hSlots⟩ := keeps_rounds (weight body + 1) hShaped
  obtain ⟨hDropped, hSlots', hAll⟩ := keeps_dropUnreachable hSettled.shaped
  rw [fst_run]
  exact ⟨hSettled.trans hDropped, hSlots'.trans hSlots, hAll⟩

end FlowCleanup

end LiveCompiler
