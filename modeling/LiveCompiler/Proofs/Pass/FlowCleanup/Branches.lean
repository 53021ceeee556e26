import LiveCompiler.Pass.FlowCleanup
import LiveCompiler.Proofs.Ir.Blocks
import LiveCompiler.Proofs.Ir.Rewriting

/-!
# Settling branches keeps what a body yields

A branch is settled if both edges are the same, or if its condition is written by a
constant.  The condition is known at the branch and written in one place, so it does hold
that constant there, and the jump takes the edge that the branch would take.

Paths only become fewer, so what was known stays known.
-/

namespace LiveCompiler

open Ir

namespace FlowCleanup

variable {callable : FuncId → Nat → Prop} {starts : Starts} {body : Body}

/-- The edge that is known to be taken is an edge of the terminator. -/
theorem mem_edges_of_knownEdge? {constants : List (Reg × Float)} {t : Terminator} {e : Edge}
    (h : knownEdge? constants t = some e) : e ∈ t.edges := by
  cases t with
  | branch condition onTrue onFalse =>
    simp only [knownEdge?] at h
    split at h
    · obtain rfl := Option.some.inj h
      exact List.mem_cons_self
    · obtain ⟨value, -, hEdge⟩ := Option.map_eq_some_iff.mp h
      rw [← hEdge]
      split <;> simp [Terminator.edges]
  | _ => cases h

/-- Every register that is listed as constant is written by a constant. -/
theorem exists_const_of_lookup {r : Reg} {x : Float} (h : (constants body).lookup r = some x) :
    ∃ label, Instr.const r x ∈ (body.block label).instrs := by
  obtain ⟨front, back, hSplit, -⟩ := List.lookup_eq_some_iff.mp h
  have hMem : (r, x) ∈ constants body := by simp [hSplit]
  obtain ⟨b, hb, hIn⟩ := List.mem_flatMap.mp (List.mem_reverse.mp hMem)
  obtain ⟨i, hi, hSome⟩ := List.mem_filterMap.mp hIn
  obtain ⟨label, hLt, rfl⟩ := List.mem_iff_getElem.mp hb
  refine ⟨label, ?_⟩
  rw [Body.block_of_lt hLt]
  cases i with
  | const dst value =>
    obtain ⟨rfl, rfl⟩ := Prod.mk.inj (Option.some.inj hSome)
    exact hi
  | _ => cases hSome

/-- A settled block. -/
def settle (constants : List (Reg × Float)) (b : Block) : Block :=
  match knownEdge? constants b.terminator with
  | some edge => { b with terminator := .jump edge }
  | none => b

theorem block_settleBranches (label : Label) :
    (settleBranches body).1.block label = settle (constants body) (body.block label) :=
  Body.block_mapBlocks rfl

@[simp] theorem params_settle (constants : List (Reg × Float)) (b : Block) :
    (settle constants b).params = b.params := by
  unfold settle
  split <;> rfl

@[simp] theorem instrs_settle (constants : List (Reg × Float)) (b : Block) :
    (settle constants b).instrs = b.instrs := by
  unfold settle
  split <;> rfl

@[simp] theorem defs_settle (constants : List (Reg × Float)) (b : Block) :
    (settle constants b).defs = b.defs := by
  simp [Block.defs]

/-- A settled terminator has no other edges and reads no other registers. -/
theorem edges_settle (constants : List (Reg × Float)) (b : Block) :
    (∀ e ∈ (settle constants b).terminator.edges, e ∈ b.terminator.edges) ∧
      ∀ r ∈ (settle constants b).terminator.uses, r ∈ b.terminator.uses := by
  unfold settle
  split
  · rename_i e hKnown
    have he := mem_edges_of_knownEdge? hKnown
    constructor
    · intro e' he'
      obtain rfl := List.mem_singleton.mp he'
      exact he
    · intro r hr
      have hArg : r ∈ e.args := by
        simpa [Terminator.uses, Terminator.operands, Terminator.edges] using hr
      exact List.mem_append_right _ (List.mem_flatMap.mpr ⟨e, he, hArg⟩)
  · exact ⟨fun _ h => h, fun _ h => h⟩

/-- Settling takes away paths. -/
theorem leadsTo_of_settleBranches {via : Label → Prop} {label : Label}
    (h : (settleBranches body).1.graph.LeadsTo body.entry via label) :
    body.graph.LeadsTo body.entry via label := by
  refine h.mono (fun _ hp => hp) fun p q _ edge => ?_
  rw [Body.succ_graph, block_settleBranches] at edge
  rw [Body.succ_graph]
  obtain ⟨e, he, rfl⟩ := List.mem_map.mp edge
  exact List.mem_map_of_mem ((edges_settle _ _).1 e he)

theorem known_settleBranches {label : Label} {done : List Instr} {r : Reg}
    (h : body.Known label done r) : (settleBranches body).1.Known label done r := by
  rcases h with ⟨d, hd, hDom⟩ | hParam | hDone
  · refine .inl ⟨d, ?_, fun hPath => hDom (leadsTo_of_settleBranches hPath)⟩
    rwa [block_settleBranches, defs_settle]
  · refine .inr (.inl ?_)
    rwa [block_settleBranches, params_settle]
  · exact .inr (.inr hDone)

theorem shaped_settleBranches (hShaped : body.Shaped) :
    (settleBranches body).1.Shaped where
  entry_lt := by
    show body.entry < (body.mapBlocks _).blocks.length
    rw [Body.length_mapBlocks]
    exact hShaped.entry_lt
  entry_params := by
    rw [block_settleBranches, params_settle]
    exact hShaped.entry_params
  defs_nodup label := by
    rw [block_settleBranches, defs_settle]
    exact hShaped.defs_nodup label
  defs_unique label other r hr hr' := by
    rw [block_settleBranches, defs_settle] at hr hr'
    exact hShaped.defs_unique label other r hr hr'
  defs_lt label r hr := by
    rw [block_settleBranches, defs_settle] at hr
    exact hShaped.defs_lt label r hr
  uses_known label hReached done i rest hInstrs r hr := by
    rw [block_settleBranches, instrs_settle] at hInstrs
    exact known_settleBranches
      (hShaped.uses_known label (leadsTo_of_settleBranches hReached) done i rest hInstrs r hr)
  exit_known label hReached r hr := by
    rw [block_settleBranches] at hr
    rw [block_settleBranches, instrs_settle]
    exact known_settleBranches
      (hShaped.exit_known label (leadsTo_of_settleBranches hReached) r ((edges_settle _ _).2 r hr))
  edge_fits label hReached e he := by
    rw [block_settleBranches] at he
    obtain ⟨hTarget, hLength⟩ :=
      hShaped.edge_fits label (leadsTo_of_settleBranches hReached) e ((edges_settle _ _).1 e he)
    rw [block_settleBranches, params_settle]
    refine ⟨?_, hLength⟩
    show _ < (body.mapBlocks _).blocks.length
    rwa [Body.length_mapBlocks]

theorem rooted_settleBranches (hRooted : body.Rooted) : (settleBranches body).1.Rooted where
  toShaped := shaped_settleBranches hRooted.toShaped
  entry_first label hReached hMem := by
    rw [block_settleBranches] at hMem
    obtain ⟨e, he, hTarget⟩ := List.mem_map.mp hMem
    refine hRooted.entry_first label (leadsTo_of_settleBranches hReached) ?_
    exact List.mem_map.mpr ⟨e, (edges_settle _ _).1 e he, hTarget⟩

theorem wellFormed_settleBranches (hWf : body.WellFormed callable) :
    (settleBranches body).1.WellFormed callable where
  toRooted := rooted_settleBranches hWf.toRooted
  ends label hReached := by
    rw [block_settleBranches]
    unfold settle
    split
    · exact nofun
    · exact hWf.ends label (leadsTo_of_settleBranches hReached)
  legal label hReached i hi := by
    rw [block_settleBranches, instrs_settle] at hi
    exact hWf.legal label (leadsTo_of_settleBranches hReached) i hi

/-- A settled block goes where the block would go. -/
theorem exit_settle (hShaped : body.Shaped) {c : Setting} {label : Label} {s : Store}
    (hVisit : body.Visits starts c label (body.block label).instrs s) :
    (settle (constants body) (body.block label)).terminator.exit s.regs =
      (body.block label).terminator.exit s.regs := by
  have hReached := hVisit.point.reached
  have hExit := hShaped.exit_known label hReached
  unfold settle
  split
  · rename_i e hKnown
    revert hKnown hExit
    cases (body.block label).terminator with
    | branch condition onTrue onFalse =>
      intro hExit hKnown
      simp only [knownEdge?] at hKnown
      split at hKnown
      · rename_i hEq
        obtain rfl := Option.some.inj hKnown
        simp [Terminator.exit, hEq]
      · obtain ⟨x, hLookup, hEdge⟩ := Option.map_eq_some_iff.mp hKnown
        have hCondition : body.Known label (body.block label).instrs condition :=
          hExit condition (by simp [Terminator.uses, Terminator.operands])
        obtain ⟨home, hConst⟩ := exists_const_of_lookup hLookup
        have hDst : condition ∈ (body.block home).defs :=
          Body.mem_defs.mpr (.inr (List.mem_filterMap.mpr ⟨_, hConst, rfl⟩))
        obtain ⟨d, hd, hDef⟩ := hCondition.exists_def hVisit.point
        obtain rfl := hShaped.defs_unique d home condition hDef hDst
        obtain ⟨before, hAt⟩ := Body.exists_writtenAt hd hConst (r := condition) rfl
        have hValue : s.regs condition = x := hVisit.pure_value hShaped hAt rfl hCondition
        simp only [Terminator.exit, hValue, ← hEdge]
        split <;> rfl
    | _ =>
      intro _ hKnown
      cases hKnown
  · rfl

/-- Settling branches keeps what a body yields. -/
theorem keeps_settleBranches (hShaped : body.Shaped) :
    body.Keeps starts (settleBranches body).1 := by
  refine ⟨shaped_settleBranches hShaped, rooted_settleBranches, fun _ => wellFormed_settleBranches,
    rfl, fun contents hStart c => ?_⟩
  refine Body.yieldsHolding_iff_of_step (fun label s other s' => other = label ∧ s' = s ∧
    body.Visits starts c label [] s) ?_ ⟨rfl, rfl, .start hStart⟩
  rintro _ _ label s ⟨rfl, rfl, hVisit⟩
  have hEnd := hVisit.run (List.nil_append _).symm
  unfold Body.outcomeFrom Body.outcome
  rw [block_settleBranches, instrs_settle, exit_settle hShaped hEnd]
  cases hExit : (body.block label).terminator.exit (s.run c (body.block label).instrs).regs with
  | returned x => exact .returned _ _
  | goto target values =>
    refine .entered ⟨rfl, ?_, hEnd.edge hExit⟩
    rw [block_settleBranches, params_settle]
  | stuck => exact .stuck

end FlowCleanup

end LiveCompiler
