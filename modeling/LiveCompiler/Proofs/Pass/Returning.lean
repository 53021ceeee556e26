import LiveCompiler.Proofs.Ir.Checking
import LiveCompiler.Proofs.Pass.FlowCleanup
import LiveCompiler.Proofs.Pass.FlowCleanup.Termination
import LiveCompiler.Proofs.Pass.Folding
import LiveCompiler.Proofs.Pass.Ownership
import LiveCompiler.Proofs.Pass.Promotion
import LiveCompiler.Proofs.Pass.ValueNumbering

/-!
# What functions return before and after a pass

A pass is right if the function returns the same value after the same calls as before, whatever
its arguments and whatever the calls give, and whether or not it comes from a lowered procedure.
Promotion takes an unwritten slot for zero; the other passes are right whatever the slots hold at
the start.
-/

namespace LiveCompiler

open Ir

/-! ## Promotion of slots -/

namespace Promotion

variable {body : Body}

/-- Promotion keeps what a function returns after which calls, if no edge leads back to its
entry. -/
theorem run_returns_iff (hShaped : body.Shaped)
    (hEntry : ∀ label, body.Reached label →
      body.entry ∉ (body.block label).terminator.successors)
    (answers : Answers) (args : List Float) (x : Float) (calls : List Call) :
    (run body).1.Returns answers args x calls ↔ body.Returns answers args x calls :=
  (keeps ⟨hShaped, hEntry⟩).returns_iff hShaped answers args x calls

/-- A loop over slots of all kinds, with a block that nothing leads to. -/
def countdown : Body where
  name := "countdown"
  arity := 1
  regCount := 15
  entry := 0
  slots := [.exclusive, .shared, .unknown, .exclusive]
  blocks := [
    { params := []
      instrs := [.param 0 0, .store 0 0, .store 1 0, .const 1 0.0]
      terminator := .jump ⟨1, [1]⟩ },
    { params := [2]
      instrs := [.load 3 0]
      terminator := .branch 3 ⟨2, []⟩ ⟨3, []⟩ },
    { params := []
      instrs := [.load 4 0, .const 5 1.0, .arith .sub 6 4 5, .store 0 6, .load 7 1,
        .arith .add 8 7 2, .call 9 0 [8], .store 1 9]
      terminator := .jump ⟨1, [9]⟩ },
    { params := []
      instrs := [.load 10 1, .load 11 3, .arith .add 12 10 11, .store 2 12, .load 13 2]
      terminator := .ret 13 },
    { params := []
      instrs := [.const 14 7.0, .store 3 14]
      terminator := .jump ⟨1, [14]⟩ }]

theorem run_returns_iff_countdown : countdown.Shaped ∧
    (∀ label, countdown.Reached label →
      countdown.entry ∉ (countdown.block label).terminator.successors) ∧
    (run countdown).1.Returns (fun earlier call => call.args.sum + earlier.length.toFloat) [2.0]
      5.0 [⟨0, [2.0]⟩, ⟨0, [4.0]⟩] := by
  have hShaped : countdown.Shaped :=
    Body.shaped_of_checks [[], [0, 1], [0, 1, 2, 3], [0, 1, 2, 3], [0, 1]] (by decide +kernel)
  have hAll : ∀ label < countdown.blocks.length,
      countdown.entry ∉ (countdown.block label).terminator.successors := by decide +kernel
  have hEntry : ∀ label, countdown.Reached label →
      countdown.entry ∉ (countdown.block label).terminator.successors :=
    fun label hReached => hAll label (hShaped.lt_of_reached hReached)
  refine ⟨hShaped, hEntry, (run_returns_iff hShaped hEntry _ _ _ _).mpr ?_⟩
  exact Frame.returns_of_play 60 (by decide +kernel)

/-- A body whose entry is a jump target.  What the first round stores is loaded in the second. -/
def entryLoop : Body where
  name := "f"
  arity := 0
  regCount := 3
  entry := 0
  slots := [.exclusive, .shared]
  blocks := [
    { params := []
      instrs := [.load 0 0, .const 1 1.0, .store 0 1, .load 2 1, .store 1 1]
      terminator := .branch 2 ⟨1, []⟩ ⟨0, []⟩ },
    { params := []
      instrs := []
      terminator := .ret 0 }]

/-- The entry has no frontier of its own, so it gets no parameter and its load gives zero. -/
theorem not_run_returns_iff_entryLoop : entryLoop.Shaped ∧ SlotOwnership.InTable entryLoop ∧
    entryLoop.Returns (fun _ _ => 0.0) [] 1.0 [] ∧
    ¬ (run entryLoop).1.Returns (fun _ _ => 0.0) [] 1.0 [] := by
  have hTable : ∀ b ∈ entryLoop.blocks, ∀ i ∈ b.instrs, ∀ slot ∈ SlotOwnership.touched i,
      slot < entryLoop.slots.length := by decide +kernel
  have hZero : (run entryLoop).1.Returns (fun _ _ => 0.0) [] 0.0 [] :=
    Frame.returns_of_play 20 (by decide +kernel)
  exact ⟨Body.shaped_of_checks [[], [0, 1, 2]] (by decide +kernel), hTable,
    Frame.returns_of_play 20 (by decide +kernel),
    fun hOne => absurd (hOne.unique hZero).1 (by decide +kernel)⟩

end Promotion

/-! ## Cleanup of the control flow -/

namespace FlowCleanup

variable {body : Body}

/-- The loops of the cleanup come to an end without their bounds, and what a function returns after
which calls is kept, whatever its slots hold at the start. -/
theorem gives_and_returns_iff (hShaped : body.Shaped) :
    (∀ out, Gives body out ↔ out = run body) ∧
      ∀ (answers : Answers) (args contents : List Float) (x : Float) (calls : List Call),
        (run body).1.ReturnsHolding answers args contents x calls ↔
          body.ReturnsHolding answers args contents x calls :=
  ⟨fun _ => gives_iff, fun answers args contents =>
    (@keeps .any body hShaped).1.returnsHolding_iff hShaped contents trivial answers args⟩

/-- Rounds over a counter whose entry is entered again, by a branch on a constant.  Two parameters
change places, one gets one single value, one block follows another, and nothing leads to the last
block. -/
def tangle : Body where
  name := "tangle"
  arity := 1
  regCount := 15
  entry := 0
  slots := [.shared]
  blocks := [
    { params := []
      instrs := [.param 0 0, .load 1 0, .const 2 1.0, .arith .add 3 1 2, .store 0 3, .less 4 3 0]
      terminator := .branch 4 ⟨1, [3]⟩ ⟨2, [3, 0]⟩ },
    { params := [5]
      instrs := [.call 6 0 [5]]
      terminator := .branch 2 ⟨0, []⟩ ⟨3, [6]⟩ },
    { params := [7, 8]
      instrs := [.less 9 8 7]
      terminator := .branch 9 ⟨2, [8, 7]⟩ ⟨3, [8]⟩ },
    { params := [10]
      instrs := [.arith .add 11 10 3]
      terminator := .jump ⟨4, [11]⟩ },
    { params := [12]
      instrs := [.call 13 0 [12]]
      terminator := .ret 13 },
    { params := []
      instrs := [.const 14 7.0]
      terminator := .jump ⟨1, [5]⟩ }]

theorem gives_and_returns_iff_tangle : tangle.Shaped ∧ Gives tangle (run tangle) ∧
    (run tangle).1.blocks.length = 4 ∧
    (run tangle).1.ReturnsHolding (fun earlier call => call.args.sum + earlier.length.toFloat)
      [2.5] [-0.25] 7.5 [⟨0, [0.75]⟩, ⟨0, [1.75]⟩, ⟨0, [5.5]⟩] := by
  have hShaped : tangle.Shaped :=
    Body.shaped_of_checks [[], [0, 1, 2, 3, 4], [0, 1, 2, 3, 4], [0, 1, 2, 3, 4],
      [0, 1, 2, 3, 4], [0, 1, 2, 3, 4, 5]] (by decide +kernel)
  obtain ⟨hGives, hReturns⟩ := gives_and_returns_iff hShaped
  refine ⟨hShaped, (hGives _).mpr rfl, by decide +kernel, (hReturns _ _ _ _ _).mpr ?_⟩
  exact Frame.returns_of_play 60 (by decide +kernel)

end FlowCleanup

/-! ## Value numbering -/

namespace ValueNumbering

variable {body : Body}

/-- Value numbering keeps what a function returns after which calls, whatever its slots hold at the
start. -/
theorem numbering_returns_iff (hShaped : body.Shaped) (answers : Answers)
    (args contents : List Float) (x : Float) (calls : List Call) :
    (run body).1.ReturnsHolding answers args contents x calls ↔
      body.ReturnsHolding answers args contents x calls :=
  (@keeps .any body hShaped).1.returnsHolding_iff hShaped contents trivial answers args x calls

/-- A loop that computes again what is known, after the slot it comes from was written. -/
def rereads : Body where
  name := "rereads"
  arity := 1
  regCount := 16
  entry := 0
  slots := [.shared]
  blocks := [
    { params := []
      instrs := [.param 0 0, .load 1 0, .arith .add 2 0 1, .arith .add 3 0 1]
      terminator := .jump ⟨1, [3]⟩ },
    { params := [4]
      instrs := [.param 5 0, .arith .add 6 5 1, .arith .mul 7 4 6, .call 8 0 [7], .less 9 8 6]
      terminator := .branch 9 ⟨2, []⟩ ⟨3, []⟩ },
    { params := []
      instrs := [.arith .add 10 4 5, .arith .add 11 4 0, .arith .add 12 0 1, .store 0 12]
      terminator := .jump ⟨1, [11]⟩ },
    { params := []
      instrs := [.arith .mul 13 4 2, .load 14 0, .arith .add 15 13 14]
      terminator := .ret 15 }]

theorem numbering_returns_iff_rereads : rereads.Shaped ∧
    (run rereads).1.instrCount + 6 = rereads.instrCount ∧
    (run rereads).1.ReturnsHolding (fun earlier _ => 4.0 * earlier.length.toFloat) [1.5] [2.0]
      21.0 [⟨0, [12.25]⟩, ⟨0, [17.5]⟩] := by
  have hShaped : rereads.Shaped :=
    Body.shaped_of_checks [[], [0, 1, 2, 3], [0, 1, 2, 3, 4, 5, 6, 7, 8, 9],
      [0, 1, 2, 3, 4, 5, 6, 7, 8, 9]] (by decide +kernel)
  refine ⟨hShaped, by decide +kernel, (numbering_returns_iff hShaped _ _ _ _ _).mpr ?_⟩
  exact Frame.returns_of_play 60 (by decide +kernel)

end ValueNumbering

/-! ## Folding -/

namespace Folding

variable {body : Body}

/-- Folding keeps what a function returns after which calls, whatever its slots hold at the
start. -/
theorem folding_returns_iff (hShaped : body.Shaped) (answers : Answers)
    (args contents : List Float) (x : Float) (calls : List Call) :
    (run body).1.ReturnsHolding answers args contents x calls ↔
      body.ReturnsHolding answers args contents x calls :=
  (@keeps .any body hShaped).1.returnsHolding_iff hShaped contents trivial answers args x calls

/-- A loop over constants, operations that change nothing and results that nothing reads. -/
def idle : Body where
  name := "idle"
  arity := 1
  regCount := 16
  entry := 0
  slots := [.shared]
  blocks := [
    { params := []
      instrs := [.param 0 0, .load 1 0, .const 2 1.0, .const 3 0.0, .const 4 (-0.0),
        .arith .mul 5 0 2, .arith .sub 6 5 3, .arith .add 7 6 4, .arith .add 8 2 2,
        .arith .mul 9 8 8]
      terminator := .jump ⟨1, [7]⟩ },
    { params := [10]
      instrs := [.call 11 0 [10], .arith .sub 12 10 2, .less 13 12 3]
      terminator := .branch 13 ⟨2, []⟩ ⟨1, [12]⟩ },
    { params := []
      instrs := [.arith .mul 14 8 1, .arith .add 15 14 10]
      terminator := .ret 15 }]

theorem folding_returns_iff_idle : idle.Shaped ∧
    (run idle).1.instrCount + 5 = idle.instrCount ∧
    (run idle).1.ReturnsHolding (fun earlier call => call.args.sum + earlier.length.toFloat) [2.0]
      [3.5] 7.0 [⟨0, [2.0]⟩, ⟨0, [1.0]⟩, ⟨0, [0.0]⟩] := by
  have hShaped : idle.Shaped :=
    Body.shaped_of_checks [[], [0, 1, 2, 3, 4, 5, 6, 7, 8, 9],
      [0, 1, 2, 3, 4, 5, 6, 7, 8, 9, 10, 11, 12, 13]] (by decide +kernel)
  refine ⟨hShaped, by decide +kernel, (folding_returns_iff hShaped _ _ _ _ _).mpr ?_⟩
  exact Frame.returns_of_play 60 (by decide +kernel)

end Folding

end LiveCompiler
