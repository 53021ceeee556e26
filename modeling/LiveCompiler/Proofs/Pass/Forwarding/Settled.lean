import LiveCompiler.Proofs.Ir.Checking
import LiveCompiler.Proofs.Pass.FlowCleanup.Still

/-!
# Where forwarding comes to rest

Parameters are dropped one at a time, and after each of them the search for another one starts from
the first block.  This comes to an end however many there are (`forwardParams_settles`).  At the end
no parameter gets one single value, the body is as well-formed as before and it returns what it
returned before.

A shaped body says nothing of edges from blocks that the entry does not lead to.  These edges lose
the value for a dropped parameter as well, so if they fit before they fit afterwards
(`edgesFit_drop`).
-/

namespace LiveCompiler

open Ir

namespace Ir

/-- Every edge passes one value to each parameter of a block, also an edge from a block that the
entry does not lead to. -/
def Body.EdgesFit (body : Body) : Prop :=
  ∀ e ∈ body.edges,
    e.target < body.blocks.length ∧ e.args.length = (body.block e.target).params.length

end Ir

namespace Forwarding

open FlowCleanup (forwardStep repeats_forwarding)

variable {body : Body}

/-! ## One step -/

/-- What a step does: there is nothing to drop, or it drops what is found. -/
theorem forwardStep_cases {after : Body} {changed : Bool}
    (h : forwardStep body = (after, changed)) :
    (find? body = none ∧ after = body ∧ changed = false) ∨
      ∃ forward, find? body = some forward ∧ after = drop body forward ∧ changed = true := by
  unfold forwardStep at h
  split at h
  · rename_i hNone
    obtain ⟨rfl, rfl⟩ := Prod.mk.inj h
    exact .inl ⟨hNone, rfl, rfl⟩
  · rename_i forward hFind
    obtain ⟨rfl, rfl⟩ := Prod.mk.inj h
    exact .inr ⟨forward, hFind, rfl, rfl⟩

theorem target_dropArg (forward : Forward) (e : Edge) :
    (dropArg forward e).target = e.target := by
  unfold dropArg
  split <;> rfl

theorem args_dropArg (forward : Forward) (e : Edge) : (dropArg forward e).args =
    if e.target = forward.label then e.args.eraseIdx forward.index else e.args := by
  unfold dropArg
  split <;> rfl

/-- A parameter is dropped together with the value for it on every edge into its block. -/
theorem edgesFit_drop (h : body.EdgesFit) (forward : Forward) : (drop body forward).EdgesFit := by
  intro e he
  obtain ⟨label, hEdge⟩ := Body.mem_edges_iff.mp he
  rw [block_drop, Block.terminator_renameUses, Terminator.edges_renameUses,
    Terminator.edges_mapEdges, List.map_map] at hEdge
  obtain ⟨passed, hPassed, rfl⟩ := List.mem_map.mp hEdge
  obtain ⟨hLt, hLength⟩ := h passed (Body.mem_edges_iff.mpr ⟨label, hPassed⟩)
  simp only [Function.comp_apply, Edge.renameUses, List.length_map, length_drop, block_drop,
    Block.params_renameUses, target_dropArg, args_dropArg]
  refine ⟨hLt, ?_⟩
  by_cases hHere : passed.target = forward.label
  · rw [if_pos hHere, if_pos hHere, List.length_eraseIdx, List.length_eraseIdx, hLength]
  · rw [if_neg hHere, if_neg hHere, hLength]

theorem edgesFit_forwardStep {after : Body} {changed : Bool}
    (hStep : forwardStep body = (after, changed)) (h : body.EdgesFit) : after.EdgesFit := by
  obtain ⟨-, rfl, -⟩ | ⟨forward, -, rfl, -⟩ := forwardStep_cases hStep
  · exact h
  · exact edgesFit_drop h forward

/-! ## All steps -/

theorem repeats_iff {out : Body × Bool} :
    Repeats (fun body out => forwardStep body = out) body out ↔ out = forwardParams body := by
  have hGives := repeats_forwarding body.params.length (Nat.le_refl _)
  exact ⟨fun h => h.unique_of_eq hGives, fun h => h ▸ hGives⟩

/-- Nothing is left to drop. -/
theorem find?_forwardParams (body : Body) : find? (forwardParams body).1 = none := by
  obtain ⟨last, hLast⟩ := (repeats_iff.mpr (Eq.refl (forwardParams body))).exists_last
  obtain ⟨hNone, hEq, -⟩ | ⟨_, -, -, hChanged⟩ := forwardStep_cases hLast
  · rw [hEq]
    exact hNone
  · cases hChanged

theorem edgesFit_forwardParams (h : body.EdgesFit) : (forwardParams body).1.EdgesFit :=
  (repeats_iff.mpr rfl).invariant (fun _ _ _ => edgesFit_forwardStep) h

/-- Forwarding comes to an end without its bound.  The body stays shaped, and the edges of all its
blocks still fit if they did.  What it returns after which calls is kept, whatever its slots hold at
the start.  No parameter that is left gets one single value. -/
theorem forwardParams_settles (hShaped : body.Shaped) :
    (∀ out, Repeats (fun body out => forwardStep body = out) body out ↔
      out = forwardParams body) ∧
    ((forwardParams body).1.Shaped ∧ (body.EdgesFit → (forwardParams body).1.EdgesFit)) ∧
    (∀ (answers : Answers) (args contents : List Float) (x : Float) (calls : List Call),
      (forwardParams body).1.ReturnsHolding answers args contents x calls ↔
        body.ReturnsHolding answers args contents x calls) ∧
    ∀ label index param value, ¬ Trivial (forwardParams body).1 label index param value := by
  have hKeeps : body.Keeps .any (forwardParams body).1 := (keeps hShaped).1
  exact ⟨fun _ => repeats_iff, ⟨hKeeps.shaped, edgesFit_forwardParams⟩,
    fun answers args contents => hKeeps.returnsHolding_iff hShaped contents trivial answers args,
    find?_eq_none_iff.mp (find?_forwardParams body)⟩

/-- A loop that passes a parameter to itself and to the one beside it.  The block behind the loop
gets one of the two, and an edge from a block that nothing leads to counts into the loop. -/
def relay : Body where
  name := "relay"
  arity := 1
  regCount := 11
  entry := 0
  slots := [.shared]
  blocks := [
    { params := []
      instrs := [.param 0 0, .load 1 0]
      terminator := .jump ⟨1, [0, 1, 0]⟩ },
    { params := [2, 3, 4]
      instrs := [.call 5 0 [3], .arith .add 6 3 1, .less 7 6 4]
      terminator := .branch 7 ⟨1, [2, 6, 2]⟩ ⟨2, [4]⟩ },
    { params := [8]
      instrs := [.arith .add 9 8 5]
      terminator := .ret 9 },
    { params := []
      instrs := [.const 10 7.0]
      terminator := .jump ⟨1, [2, 10, 2]⟩ }]

/-- Only the counter of the loop keeps its parameter. -/
theorem forwardParams_settles_relay : relay.Shaped ∧ relay.EdgesFit ∧
    (forwardParams relay).1.params = [3] ∧ (forwardParams relay).1.EdgesFit ∧
    (forwardParams relay).1.ReturnsHolding
      (fun earlier call => call.args.sum + earlier.length.toFloat) [3.0] [1.0] 6.0
      [⟨0, [1.0]⟩, ⟨0, [2.0]⟩] := by
  have hShaped : relay.Shaped :=
    Body.shaped_of_checks [[], [0, 1], [0, 1, 2, 3, 4, 5, 6, 7], [0, 1, 2]] (by decide +kernel)
  have hFit : relay.EdgesFit := by
    unfold Body.EdgesFit
    decide +kernel
  obtain ⟨-, ⟨-, hEdges⟩, hReturns, -⟩ := forwardParams_settles hShaped
  refine ⟨hShaped, hFit, by decide +kernel, hEdges hFit, (hReturns _ _ _ _ _).mpr ?_⟩
  exact Frame.returns_of_play 60 (by decide +kernel)

end Forwarding

end LiveCompiler
