import LiveCompiler.Proofs.Ir.Ssa

/-!
# Replacing registers in a well-formed body

Most passes do the same thing: they choose for every register another one that stands for
it, take out what has become useless, and leave the flow as it is.  `Body.Rewrites` says
this of two bodies: an instruction is kept, in a form with the same value, or taken out
together with its register, and a parameter is taken out with the values passed to it.  A
store may be taken out if nothing loads its slot any more.

Such a body keeps its shape (`Rewrites.shaped`, `Rewrites.wellFormed`) and yields the same
(`Rewrites.yields_iff`).  The two run in step: they always agree on the registers that are
known and kept, and on the slots that are still loaded.

What is said of runs is said for slots that start with allowed contents (`Starts`): most passes keep
what a body yields whatever its slots hold, but promotion takes an unwritten slot for zero.
-/

namespace LiveCompiler

namespace Ir

/-! ## Running in step -/

/-- What running a block to its end comes to. -/
inductive Outcome where
  | returned (value : Float) (calls : List Call)
  | entered (target : Label) (store : Store)
  | stuck

/-- Run the rest of a block. -/
def Body.outcome (c : Setting) (body : Body) (instrs : List Instr) (t : Terminator) (s : Store) :
    Outcome :=
  match t.exit (s.run c instrs).regs with
  | .returned x => .returned x (s.run c instrs).calls
  | .goto target values =>
    .entered target ((s.run c instrs).bind (body.block target).params values)
  | .stuck => .stuck

/-- Two outcomes are the same as far as a relation between places tells. -/
inductive Outcome.Match (rel : Label → Store → Label → Store → Prop) : Outcome → Outcome → Prop
  | returned (x : Float) (calls : List Call) : Match rel (.returned x calls) (.returned x calls)
  | entered {label other : Label} {s s' : Store} (h : rel label s other s') :
      Match rel (.entered label s) (.entered other s')
  | stuck : Match rel .stuck .stuck

namespace Body

theorem exec_succ_eq (c : Setting) (body : Body) (count : Nat) (instrs : List Instr)
    (t : Terminator) (s : Store) :
    body.exec c (count + 1) instrs t s =
      match body.outcome c instrs t s with
      | .returned x calls => some (x, calls)
      | .entered target s => body.execFrom c count target s
      | .stuck => none := by
  rw [exec_succ, outcome]
  cases t.exit (s.run c instrs).regs <;> rfl

/-- What running a block from its start comes to. -/
def outcomeFrom (c : Setting) (body : Body) (label : Label) (s : Store) : Outcome :=
  body.outcome c (body.block label).instrs (body.block label).terminator s

theorem execFrom_succ (c : Setting) (body : Body) (count : Nat) (label : Label) (s : Store) :
    body.execFrom c (count + 1) label s =
      match body.outcomeFrom c label s with
      | .returned x calls => some (x, calls)
      | .entered target s => body.execFrom c count target s
      | .stuck => none :=
  exec_succ_eq c body count _ _ s

theorem mem_successors_of_entered {c : Setting} {body : Body} {label target : Label}
    {s s' : Store} (h : body.outcomeFrom c label s = .entered target s') :
    target ∈ (body.block label).terminator.successors := by
  unfold outcomeFrom outcome at h
  split at h
  · cases h
  · rename_i values hExit
    obtain ⟨e, he, hTarget, -⟩ := Terminator.exists_edge hExit
    obtain ⟨rfl, -⟩ := Outcome.entered.inj h
    rw [← hTarget]
    exact List.mem_map_of_mem he
  · cases h

/-- A block that comes to what another one comes to gives the same result, if going on from
there does. -/
theorem exists_execFrom_of_outcomeFrom {c : Setting} {body after : Body} {count : Nat}
    {label other : Label} {s s' : Store} {result : Float × List Call}
    (hSame : after.outcomeFrom c other s' = body.outcomeFrom c label s)
    (hExec : body.execFrom c (count + 1) label s = some result)
    (hNext : ∀ target t, target ∈ (body.block label).terminator.successors →
      target ∈ (after.block other).terminator.successors →
      body.execFrom c count target t = some result →
      ∃ more, after.execFrom c more target t = some result) :
    ∃ more, after.execFrom c more other s' = some result := by
  rw [execFrom_succ] at hExec
  cases hOutcome : body.outcomeFrom c label s with
  | returned x calls =>
    rw [hOutcome] at hSame hExec
    refine ⟨1, ?_⟩
    rwa [execFrom_succ, hSame]
  | entered target t =>
    rw [hOutcome] at hSame hExec
    obtain ⟨more, hMore⟩ := hNext target t (mem_successors_of_entered hOutcome)
      (mem_successors_of_entered hSame) hExec
    refine ⟨more + 1, ?_⟩
    rwa [execFrom_succ, hSame]
  | stuck =>
    rw [hOutcome] at hExec
    cases hExec

/-- Bodies whose blocks come to matching outcomes run in step. -/
theorem execFrom_eq {c : Setting} {body after : Body} {rel : Label → Store → Label → Store → Prop}
    (hStep : ∀ label s other s', rel label s other s' →
      Outcome.Match rel (body.outcomeFrom c label s) (after.outcomeFrom c other s'))
    (count : Nat) {label other : Label} {s s' : Store} (h : rel label s other s') :
    body.execFrom c count label s = after.execFrom c count other s' := by
  induction count generalizing label other s s' with
  | zero => rfl
  | succ count ih =>
    have hMatch := hStep label s other s' h
    rw [execFrom_succ, execFrom_succ]
    generalize body.outcomeFrom c label s = first at hMatch ⊢
    generalize after.outcomeFrom c other s' = second at hMatch ⊢
    cases hMatch with
    | returned => rfl
    | entered hNext => exact ih hNext
    | stuck => rfl

theorem yieldsHolding_iff_of_step {c : Setting} {contents contents' : Slot → Float}
    {body after : Body} (rel : Label → Store → Label → Store → Prop)
    (hStep : ∀ label s other s', rel label s other s' →
      Outcome.Match rel (body.outcomeFrom c label s) (after.outcomeFrom c other s'))
    (hStart : rel body.entry (Store.holding contents) after.entry (Store.holding contents'))
    (x : Float) (calls : List Call) :
    body.YieldsHolding c contents x calls ↔ after.YieldsHolding c contents' x calls := by
  unfold YieldsHolding
  refine exists_congr fun count => ?_
  rw [execFrom_eq hStep count hStart]

end Body

/-! ## What passes keep -/

/-- A body can take the place of another: it is well-formed and yields the same. -/
structure Body.Improves (callable : FuncId → Nat → Prop) (body after : Body) : Prop where
  wellFormed : after.WellFormed callable
  arity : after.arity = body.arity
  yields : ∀ c x calls, body.Yields c x calls ↔ after.Yields c x calls

/-- A body is shaped, has what another one has, and yields the same whichever of the allowed
contents its slots start with. -/
structure Body.Keeps (starts : Starts) (body after : Body) : Prop where
  shaped : after.Shaped
  rooted : body.Rooted → after.Rooted
  wellFormed : ∀ callable, body.WellFormed callable → after.WellFormed callable
  arity : after.arity = body.arity
  yields : ∀ contents, starts contents → ∀ c x calls,
    body.YieldsHolding c contents x calls ↔ after.YieldsHolding c contents x calls

namespace Body

variable {callable : FuncId → Nat → Prop} {starts : Starts} {body middle after : Body}

theorem Improves.refl (hWf : body.WellFormed callable) : Improves callable body body :=
  ⟨hWf, rfl, fun _ _ _ => Iff.rfl⟩

theorem Keeps.refl (hShaped : body.Shaped) : body.Keeps starts body :=
  ⟨hShaped, id, fun _ => id, rfl, fun _ _ _ _ _ => Iff.rfl⟩

theorem Keeps.trans (h : body.Keeps starts middle) (h' : middle.Keeps starts after) :
    body.Keeps starts after where
  shaped := h'.shaped
  rooted hRooted := h'.rooted (h.rooted hRooted)
  wellFormed callable hWf := h'.wellFormed callable (h.wellFormed callable hWf)
  arity := h'.arity.trans h.arity
  yields contents hStart c x calls :=
    (h.yields contents hStart c x calls).trans (h'.yields contents hStart c x calls)

theorem Keeps.improves (h : body.Keeps .blank after) (hWf : body.WellFormed callable) :
    Improves callable body after :=
  ⟨h.wellFormed callable hWf, h.arity, h.yields _ rfl⟩

end Body

/-- What is kept is what a function returns after which calls, whatever its slots may hold. -/
theorem Body.Keeps.returnsHolding_iff {starts : Starts} {body after : Body}
    (h : body.Keeps starts after) (hShaped : body.Shaped) (contents : List Float)
    (hStart : starts fun slot => contents.getD slot 0.0) (answers : Answers) (args : List Float)
    (x : Float) (calls : List Call) :
    after.ReturnsHolding answers args contents x calls ↔
      body.ReturnsHolding answers args contents x calls := by
  rw [Body.returnsHolding_iff_yieldsHolding h.shaped.regsBounded,
    Body.returnsHolding_iff_yieldsHolding hShaped.regsBounded]
  exact (h.yields _ hStart _ x calls).symm

/-- What is kept is what a function returns after which calls. -/
theorem Body.Keeps.returns_iff {body after : Body} (h : body.Keeps .blank after)
    (hShaped : body.Shaped) (answers : Answers) (args : List Float) (x : Float)
    (calls : List Call) :
    after.Returns answers args x calls ↔ body.Returns answers args x calls :=
  h.returnsHolding_iff hShaped [] rfl answers args x calls

/-! ## Rewriting -/

/-- The values that an edge passes to the parameters that are kept. -/
def Body.keepArgs (body : Body) (keep : Reg → Bool) (e : Edge) : Edge where
  target := e.target
  args := (((body.block e.target).params.zip e.args).filter fun passed => keep passed.1).map
    Prod.snd

/-- A run of a body, in whatever setting, comes to a point with a store. -/
def Body.Seen (starts : Starts) (body : Body) (label : Label) (done : List Instr) (s : Store) :
    Prop :=
  ∃ c, body.Visits starts c label done s

/-- Some block that the entry leads to loads a slot. -/
def Body.Loads (body : Body) (slot : Slot) : Prop :=
  ∃ label, body.Reached label ∧ ∃ i ∈ (body.block label).instrs, i.loaded = some slot

/-- An instruction does what another one does at a point. -/
structure Instr.Replaces (starts : Starts) (body : Body) (label : Label) (done : List Instr)
    (i j : Instr) : Prop where
  dst_eq : j.dst = i.dst
  stored_eq : j.stored = i.stored
  legal : ∀ callable arity slots, i.Legal callable arity slots → j.Legal callable arity slots
  value_eq : ∀ c s, body.Visits starts c label done s → j.value c s = i.value c s
  made_eq : ∀ c s, body.Visits starts c label done s → j.made s.regs = i.made s.regs

theorem Instr.Replaces.refl (starts : Starts) (body : Body) (label : Label) (done : List Instr)
    (i : Instr) : i.Replaces starts body label done i :=
  ⟨rfl, rfl, fun _ _ _ h => h, fun _ _ _ => rfl, fun _ _ _ => rfl⟩

/-- How the instructions of a block may be changed, from a point on, if stores to dead slots may
go. -/
inductive Body.RewritesInstrs (starts : Starts) (body : Body) (rename : Reg → Reg)
    (keep : Reg → Bool)
    (dead : Slot → Prop) (label : Label) : List Instr → List Instr → List Instr → Prop
  | nil (done : List Instr) : RewritesInstrs starts body rename keep dead label done [] []
  | keep {done rest rest' : List Instr} {i j : Instr} (same : i.Replaces starts body label done j)
      (uses : ∀ a ∈ j.uses, body.Known label done a ∧ keep (rename a) = true)
      (tail : RewritesInstrs starts body rename keep dead label (done ++ [i]) rest rest') :
      RewritesInstrs starts body rename keep dead label done (i :: rest)
        (j.renameUses rename :: rest')
  | drop {done rest rest' : List Instr} {i : Instr} (silent : ∀ regs, i.made regs = [])
      (useless : ∀ r, i.dst = some r → keep r = false)
      (unread : ∀ slot, i.stored = some slot → dead slot)
      (tail : RewritesInstrs starts body rename keep dead label (done ++ [i]) rest rest') :
      RewritesInstrs starts body rename keep dead label done (i :: rest) rest'

/-- A body comes from another by replacing registers and taking out what is not kept. -/
structure Body.Rewrites (starts : Starts) (body after : Body) (rename : Reg → Reg)
    (keep : Reg → Bool) : Prop where
  entry : after.entry = body.entry
  length : after.blocks.length = body.blocks.length
  arity : after.arity = body.arity
  regCount : body.regCount ≤ after.regCount
  slotCount : body.slots.length ≤ after.slots.length
  defs : ∀ label, (after.block label).defs.Sublist (body.block label).defs
  params : ∀ label, body.Reached label →
    (after.block label).params = (body.block label).params.filter keep
  instrs : ∀ label, body.Reached label →
    body.RewritesInstrs starts rename keep (fun slot => ¬ after.Loads slot) label []
      (body.block label).instrs (after.block label).instrs
  terminator : ∀ label, body.Reached label → (after.block label).terminator =
    ((body.block label).terminator.mapEdges (body.keepArgs keep)).renameUses rename
  exits : ∀ label, body.Reached label →
    ∀ a ∈ ((body.block label).terminator.mapEdges (body.keepArgs keep)).uses,
      keep (rename a) = true
  stands : ∀ r, body.Stands (body.Seen starts) r (rename r)

namespace Instr

@[simp] theorem stored_renameUses (f : Reg → Reg) (i : Instr) :
    (i.renameUses f).stored = i.stored := by
  cases i <;> rfl

@[simp] theorem loaded_renameUses (f : Reg → Reg) (i : Instr) :
    (i.renameUses f).loaded = i.loaded := by
  cases i <;> rfl

theorem legal_renameUses (f : Reg → Reg) (i : Instr) (callable : FuncId → Nat → Prop)
    (arity slots : Nat) :
    (i.renameUses f).Legal callable arity slots ↔ i.Legal callable arity slots := by
  cases i <;> simp [renameUses, Legal]

theorem made_renameUses {f : Reg → Reg} {i : Instr} {regs regs' : Reg → Float}
    (h : ∀ a ∈ i.uses, regs' (f a) = regs a) : (i.renameUses f).made regs' = i.made regs := by
  cases i with
  | call dst callee args =>
    have hArgs : args.map (regs' ∘ f) = args.map regs := List.map_congr_left h
    simp only [renameUses, made, List.map_map, hArgs]
  | _ => rfl

/-- Reading other registers with the same values gives the same value. -/
theorem value_renameUses {c : Setting} {f : Reg → Reg} {i : Instr} {s s' : Store}
    (hSlots : ∀ slot, i.loaded = some slot → s'.slots slot = s.slots slot)
    (hCalls : s'.calls = s.calls) (h : ∀ a ∈ i.uses, s'.regs (f a) = s.regs a) :
    (i.renameUses f).value c s' = i.value c s := by
  cases i with
  | const dst value => rfl
  | param dst index => rfl
  | load dst slot => exact hSlots slot rfl
  | store slot src => exact h src (by simp [uses])
  | arith op dst left right =>
    simp only [renameUses, value, h left (by simp [uses]), h right (by simp [uses])]
  | less dst left right =>
    simp only [renameUses, value, h left (by simp [uses]), h right (by simp [uses])]
  | call dst callee args =>
    have hArgs : args.map (s'.regs ∘ f) = args.map s.regs := List.map_congr_left h
    simp only [renameUses, value, List.map_map, hCalls, hArgs]

end Instr

section Lists

variable {α β : Type}

theorem zip_filter_map_snd (keep : α → Bool) :
    ∀ (keys : List α) (values : List β), values.length = keys.length →
      (keys.filter keep).zip (((keys.zip values).filter fun p => keep p.1).map Prod.snd) =
        (keys.zip values).filter fun p => keep p.1
  | [], _, _ => rfl
  | key :: keys, value :: values, hLength => by
    have ih := zip_filter_map_snd keep keys values (Nat.succ.inj hLength)
    by_cases hKeep : keep key = true <;> simp [hKeep, ih]

theorem length_filter_map_snd (keep : α → Bool) :
    ∀ (keys : List α) (values : List β), values.length = keys.length →
      (((keys.zip values).filter fun p => keep p.1).map Prod.snd).length =
        (keys.filter keep).length
  | [], _, _ => rfl
  | key :: keys, value :: values, hLength => by
    have ih := length_filter_map_snd keep keys values (Nat.succ.inj hLength)
    by_cases hKeep : keep key = true <;> simp_all

theorem exists_zip_of_mem {keys : List α} {values : List β}
    (hLength : values.length = keys.length) {key : α} (h : key ∈ keys) :
    ∃ value, (key, value) ∈ keys.zip values := by
  obtain ⟨n, hn, rfl⟩ := List.mem_iff_getElem.mp h
  have hn' : n < (keys.zip values).length := by simp [hLength, hn]
  exact ⟨values[n], List.mem_iff_getElem.mpr ⟨n, hn', by simp⟩⟩

end Lists

namespace Body

variable {callable : FuncId → Nat → Prop} {starts : Starts} {body after : Body} {rename : Reg → Reg}
  {keep : Reg → Bool} {dead : Slot → Prop} {label : Label} {done : List Instr} {r : Reg}

/-- Where a kept instruction comes from, and what comes before it. -/
theorem RewritesInstrs.split {instrs instrs' front : List Instr} {i : Instr} {rest : List Instr}
    (h : body.RewritesInstrs starts rename keep dead label done instrs instrs')
    (hSplit : instrs' = front ++ i :: rest) :
    ∃ before j k tail, instrs = before ++ j :: tail ∧ i = k.renameUses rename ∧
      j.Replaces starts body label (done ++ before) k ∧
      (∀ a ∈ k.uses, body.Known label (done ++ before) a ∧ keep (rename a) = true) ∧
      body.RewritesInstrs starts rename keep dead label done before front := by
  induction h generalizing front with
  | nil done => simp at hSplit
  | @keep done tail tail' j k same uses _ ih =>
    cases front with
    | nil =>
      obtain ⟨rfl, rfl⟩ := List.cons.inj hSplit
      exact ⟨[], j, k, tail, rfl, rfl, by simpa using same, by simpa using uses, .nil done⟩
    | cons first front =>
      obtain ⟨rfl, hTail⟩ := List.cons.inj hSplit
      obtain ⟨before, j', k', tail', rfl, hEq, hSame, hUses, hFront⟩ := ih hTail
      rw [List.append_assoc] at hSame hUses
      exact ⟨j :: before, j', k', tail', rfl, hEq, hSame, hUses, .keep same uses hFront⟩
  | @drop done tail tail' j silent useless unread _ ih =>
    obtain ⟨before, j', k', tail', rfl, hEq, hSame, hUses, hFront⟩ := ih hSplit
    rw [List.append_assoc] at hSame hUses
    exact ⟨j :: before, j', k', tail', rfl, hEq, hSame, hUses, .drop silent useless unread hFront⟩

/-- A register that is kept is still written. -/
theorem RewritesInstrs.mem_dsts {instrs instrs' : List Instr}
    (h : body.RewritesInstrs starts rename keep dead label done instrs instrs')
    (hr : r ∈ instrs.filterMap Instr.dst) (hKeep : keep r = true) :
    r ∈ instrs'.filterMap Instr.dst := by
  induction h with
  | nil done => exact hr
  | @keep done tail tail' j k same uses _ ih =>
    rw [mem_dsts_cons, Instr.dst_renameUses, same.dst_eq]
    exact (mem_dsts_cons.mp hr).imp_right ih
  | @drop done tail tail' j silent useless unread _ ih =>
    rcases mem_dsts_cons.mp hr with hDst | hLater
    · rw [useless r hDst] at hKeep
      exact absurd hKeep Bool.false_ne_true
    · exact ih hLater

namespace Rewrites

/-! ### The shape is kept -/

theorem successors (h : body.Rewrites starts after rename keep) (hReached : body.Reached label) :
    (after.block label).terminator.successors = (body.block label).terminator.successors := by
  rw [h.terminator label hReached, Terminator.successors_renameUses]
  cases (body.block label).terminator <;> rfl

theorem leadsTo_iff (h : body.Rewrites starts after rename keep) {via : Label → Prop} :
    after.graph.LeadsTo after.entry via label ↔ body.graph.LeadsTo body.entry via label := by
  rw [h.entry]
  refine Digraph.LeadsTo.congr fun p hp => ?_
  rw [succ_graph, succ_graph, h.successors hp]

theorem reached_iff (h : body.Rewrites starts after rename keep) :
    after.Reached label ↔ body.Reached label :=
  h.leadsTo_iff

theorem connected (h : body.Rewrites starts after rename keep) (hConnected : body.Connected) :
    after.Connected := by
  intro label hLt
  rw [h.length] at hLt
  exact h.reached_iff.mpr (hConnected label hLt)

theorem mem_defs (h : body.Rewrites starts after rename keep) (hReached : body.Reached label)
    (hr : r ∈ (body.block label).defs) (hKeep : keep r = true) : r ∈ (after.block label).defs := by
  refine Body.mem_defs.mpr ((Body.mem_defs.mp hr).imp (fun hParam => ?_) fun hDst => ?_)
  · rw [h.params label hReached]
    exact List.mem_filter.mpr ⟨hParam, hKeep⟩
  · exact (h.instrs label hReached).mem_dsts hDst hKeep

/-- What is known and kept is known after the change. -/
theorem known (h : body.Rewrites starts after rename keep) {done done' : List Instr}
    (hPoint : body.Point label done)
    (hDsts : ∀ r ∈ done.filterMap Instr.dst, keep r = true → r ∈ done'.filterMap Instr.dst)
    (hr : body.Known label done r) (hKeep : keep r = true) : after.Known label done' r := by
  rcases hr with ⟨d, hd, hDom⟩ | hParam | hDone
  · refine .inl ⟨d, h.mem_defs (hDom.reaches hPoint.reached) hd hKeep, ?_⟩
    exact fun hPath => hDom (h.leadsTo_iff.mp hPath)
  · refine .inr (.inl ?_)
    rw [h.params label hPoint.reached]
    exact List.mem_filter.mpr ⟨hParam, hKeep⟩
  · exact .inr (.inr (hDsts r hDone hKeep))

theorem mem_exit_uses {t : Terminator} {a : Reg}
    (ha : a ∈ (t.mapEdges (body.keepArgs keep)).uses) : a ∈ t.uses := by
  have hArgs : ∀ e : Edge, ∀ a ∈ (body.keepArgs keep e).args, a ∈ e.args := by
    intro e a ha
    obtain ⟨passed, hPassed, rfl⟩ := List.mem_map.mp ha
    exact (List.of_mem_zip (List.mem_filter.mp hPassed).1).2
  cases t with
  | ret value => exact ha
  | jump e =>
    simp only [Terminator.uses, Terminator.mapEdges, Terminator.operands, Terminator.edges,
      List.flatMap_cons, List.flatMap_nil, List.append_nil, List.nil_append] at ha ⊢
    exact hArgs e a ha
  | branch condition onTrue onFalse =>
    simp only [Terminator.uses, Terminator.mapEdges, Terminator.operands, Terminator.edges,
      List.flatMap_cons, List.flatMap_nil, List.append_nil, List.mem_append] at ha ⊢
    exact ha.imp_right fun ha => ha.imp (hArgs onTrue a) (hArgs onFalse a)
  | unreachable => exact ha

theorem mem_edges (h : body.Rewrites starts after rename keep) (hReached : body.Reached label)
    {e : Edge} (he : e ∈ (after.block label).terminator.edges) :
    ∃ e' ∈ (body.block label).terminator.edges, e = (body.keepArgs keep e').renameUses rename := by
  rw [h.terminator label hReached, Terminator.edges_renameUses, Terminator.edges_mapEdges,
    List.map_map] at he
  obtain ⟨e', he', hEq⟩ := List.mem_map.mp he
  exact ⟨e', he', hEq.symm⟩

/-- A rewritten body is shaped. -/
theorem shaped (hShaped : body.Shaped) (h : body.Rewrites starts after rename keep) :
    after.Shaped where
  entry_lt := by
    rw [h.entry, h.length]
    exact hShaped.entry_lt
  entry_params := by
    rw [h.entry, h.params _ (Reached.entry body), hShaped.entry_params, List.filter_nil]
  defs_nodup label := (h.defs label).nodup (hShaped.defs_nodup label)
  defs_unique label other r hr hr' :=
    hShaped.defs_unique label other r ((h.defs label).subset hr) ((h.defs other).subset hr')
  defs_lt label r hr :=
    Nat.lt_of_lt_of_le (hShaped.defs_lt label r ((h.defs label).subset hr)) h.regCount
  uses_known label hReached done i rest hInstrs r hr := by
    have hReached := h.reached_iff.mp hReached
    obtain ⟨before, j, k, tail, hBefore, rfl, -, hUses, hFront⟩ :=
      (h.instrs label hReached).split hInstrs
    rw [Instr.uses_renameUses] at hr
    obtain ⟨a, ha, rfl⟩ := List.mem_map.mp hr
    obtain ⟨hKnown, hKeep⟩ := hUses a ha
    rw [List.nil_append] at hKnown
    have hPoint := Point.before hReached hBefore
    exact h.known hPoint (fun q hq hKeep => hFront.mem_dsts hq hKeep)
      ((h.stands a).known label before hPoint hKnown) hKeep
  exit_known label hReached r hr := by
    have hReached := h.reached_iff.mp hReached
    rw [h.terminator label hReached, Terminator.uses_renameUses] at hr
    obtain ⟨a, ha, rfl⟩ := List.mem_map.mp hr
    have hKnown := hShaped.exit_known label hReached a (mem_exit_uses ha)
    have hPoint := Point.all hReached
    exact h.known hPoint (fun q hq hKeep => (h.instrs label hReached).mem_dsts hq hKeep)
      ((h.stands a).known label _ hPoint hKnown) (h.exits label hReached a ha)
  edge_fits label hReached e he := by
    have hReached := h.reached_iff.mp hReached
    obtain ⟨e', he', rfl⟩ := h.mem_edges hReached he
    obtain ⟨hTarget, hLength⟩ := hShaped.edge_fits label hReached e' he'
    refine ⟨h.length ▸ hTarget, ?_⟩
    show (((((body.block e'.target).params.zip e'.args).filter fun passed => keep passed.1).map
      Prod.snd).map rename).length = (after.block e'.target).params.length
    rw [h.params _ (hReached.successor (List.mem_map_of_mem he')), List.length_map]
    exact length_filter_map_snd keep _ _ hLength

/-- A rewritten body leads back to its entry no more than before. -/
theorem rooted (hRooted : body.Rooted) (h : body.Rewrites starts after rename keep) :
    after.Rooted where
  toShaped := h.shaped hRooted.toShaped
  entry_first label hReached := by
    have hReached := h.reached_iff.mp hReached
    rw [h.entry, h.successors hReached]
    exact hRooted.entry_first label hReached

/-- A rewritten body is well-formed. -/
theorem wellFormed (hWf : body.WellFormed callable) (h : body.Rewrites starts after rename keep) :
    after.WellFormed callable where
  toRooted := h.rooted hWf.toRooted
  ends label hReached := by
    have hReached := h.reached_iff.mp hReached
    have hEnd := hWf.ends label hReached
    rw [h.terminator label hReached]
    cases hTerminator : (body.block label).terminator with
    | unreachable => exact absurd hTerminator hEnd
    | _ => simp [Terminator.mapEdges, Terminator.renameUses]
  legal label hReached i hi := by
    have hReached := h.reached_iff.mp hReached
    obtain ⟨front, rest, hInstrs⟩ := List.append_of_mem hi
    obtain ⟨before, j, k, tail, hBefore, rfl, hSame, -, -⟩ :=
      (h.instrs label hReached).split hInstrs
    have hLegal := hWf.legal label hReached j (by simp [hBefore])
    rw [Instr.legal_renameUses, h.arity]
    exact (hSame.legal callable _ _ hLegal).mono h.slotCount

/-! ### The results are kept -/

/-- Two stores at a point have made the same calls and agree on what is known and kept and on what
is still loaded. -/
structure Agree (body after : Body) (keep : Reg → Bool) (label : Label) (done : List Instr)
    (s s' : Store) : Prop where
  calls : s'.calls = s.calls
  regs : ∀ r, body.Known label done r → keep r = true → s'.regs r = s.regs r
  slots : ∀ slot, after.Loads slot → s'.slots slot = s.slots slot

variable {c : Setting} {s s' : Store}

/-- What takes the place of a register holds its value in the other store. -/
theorem regs_rename (h : body.Rewrites starts after rename keep) {a : Reg}
    (hVisit : body.Visits starts c label done s) (hAgree : Agree body after keep label done s s')
    (ha : body.Known label done a) (hKeep : keep (rename a) = true) :
    s'.regs (rename a) = s.regs a := by
  have hStands := h.stands a
  rw [hAgree.regs _ (hStands.known label done hVisit.point ha) hKeep]
  exact (hStands.equal label done s hVisit.point ⟨c, hVisit⟩ ha).symm

/-- The instructions of a block are run in step. -/
theorem agree_run (h : body.Rewrites starts after rename keep)
    {rest rest' : List Instr} (hInstrs : (body.block label).instrs = done ++ rest)
    (hRewrites : body.RewritesInstrs starts rename keep (fun slot => ¬ after.Loads slot) label done
      rest rest')
    (hLoads : ∀ i ∈ rest', ∀ slot, i.loaded = some slot → after.Loads slot)
    (hVisit : body.Visits starts c label done s) (hAgree : Agree body after keep label done s s') :
    body.Visits starts c label (body.block label).instrs (s.run c rest) ∧
      Agree body after keep label (body.block label).instrs (s.run c rest) (s'.run c rest') := by
  induction hRewrites generalizing s s' with
  | nil done =>
    rw [List.append_nil] at hInstrs
    rw [hInstrs]
    exact ⟨hVisit, hAgree⟩
  | @keep done rest rest' i j same uses _ ih =>
    refine ih (by rw [hInstrs, List.append_assoc, List.singleton_append])
      (fun k hk => hLoads k (List.mem_cons_of_mem _ hk)) (hVisit.instr hInstrs) ?_
    have hUses : ∀ a ∈ j.uses, s'.regs (rename a) = s.regs a := fun a ha =>
      h.regs_rename hVisit hAgree (uses a ha).1 (uses a ha).2
    have hSlots : ∀ slot, j.loaded = some slot → s'.slots slot = s.slots slot := fun slot hSlot =>
      hAgree.slots slot (hLoads _ List.mem_cons_self slot (by rwa [Instr.loaded_renameUses]))
    have hValue : (j.renameUses rename).value c s' = i.value c s := by
      rw [Instr.value_renameUses hSlots hAgree.calls hUses, same.value_eq c s hVisit]
    constructor
    · show s'.calls ++ (j.renameUses rename).made s'.regs = s.calls ++ i.made s.regs
      rw [hAgree.calls, Instr.made_renameUses hUses, same.made_eq c s hVisit]
    · intro r hr hKeep
      show (if (j.renameUses rename).dst = some r then (j.renameUses rename).value c s'
        else s'.regs r) = if i.dst = some r then i.value c s else s.regs r
      rw [Instr.dst_renameUses, same.dst_eq, hValue]
      split
      · rfl
      · rename_i hne
        exact hAgree.regs r ((known_snoc.mp hr).resolve_right hne) hKeep
    · intro slot hLoaded
      show (if (j.renameUses rename).stored = some slot then (j.renameUses rename).value c s'
        else s'.slots slot) = if i.stored = some slot then i.value c s else s.slots slot
      rw [Instr.stored_renameUses, same.stored_eq, hValue, hAgree.slots slot hLoaded]
  | @drop done rest rest' i silent useless unread _ ih =>
    refine ih (by rw [hInstrs, List.append_assoc, List.singleton_append]) hLoads
      (hVisit.instr hInstrs) ⟨?_, fun r hr hKeep => ?_, fun slot hLoaded => ?_⟩
    · show s'.calls = s.calls ++ i.made s.regs
      rw [silent, List.append_nil, hAgree.calls]
    · have hne : i.dst ≠ some r := by
        intro hDst
        rw [useless r hDst] at hKeep
        exact absurd hKeep Bool.false_ne_true
      rw [Instr.regs_effect_of_ne hne]
      exact hAgree.regs r ((known_snoc.mp hr).resolve_right hne) hKeep
    · show s'.slots slot = if i.stored = some slot then i.value c s else s.slots slot
      rw [if_neg fun hStored => unread slot hStored hLoaded]
      exact hAgree.slots slot hLoaded

/-- The parameters of a block are bound in step. -/
theorem agree_bind (hShaped : body.Shaped) (h : body.Rewrites starts after rename keep)
    (hReached : body.Reached label) {e : Edge} (he : e ∈ (body.block label).terminator.edges)
    (hAgree : Agree body after keep label (body.block label).instrs s s')
    (hArgs : (body.keepArgs keep e).args.map (fun a => s'.regs (rename a)) =
      (body.keepArgs keep e).args.map s.regs) :
    Agree body after keep e.target []
      (s.bind (body.block e.target).params (e.args.map s.regs))
      (s'.bind (after.block e.target).params
        (((body.keepArgs keep e).renameUses rename).args.map s'.regs)) := by
  have hTarget := List.mem_map_of_mem (f := Edge.target) he
  have hReached' : body.Reached e.target := hReached.successor hTarget
  have hLength := (hShaped.edge_fits label hReached e he).2
  have hNodup := hShaped.definesOnce.params_nodup e.target
  refine ⟨hAgree.calls, fun r hr hKeep => ?_, hAgree.slots⟩
  rw [h.params e.target hReached']
  show bindAll s'.regs _ (((body.keepArgs keep e).args.map rename).map s'.regs) r =
    bindAll s.regs _ _ r
  have hMap : ((body.keepArgs keep e).args.map rename).map s'.regs =
      (body.keepArgs keep e).args.map s.regs := by
    rw [List.map_map]
    exact hArgs
  rw [hMap]
  by_cases hParam : r ∈ (body.block e.target).params
  · obtain ⟨a, ha⟩ := exists_zip_of_mem hLength hParam
    have hKept : (r, a) ∈ ((body.block e.target).params.filter keep).zip
        (body.keepArgs keep e).args := by
      show (r, a) ∈ ((body.block e.target).params.filter keep).zip _
      unfold keepArgs
      rw [zip_filter_map_snd keep _ _ hLength]
      exact List.mem_filter.mpr ⟨ha, hKeep⟩
    have hValue : ∀ {params args : List Reg}, (r, a) ∈ params.zip args →
        (r, s.regs a) ∈ params.zip (args.map s.regs) := by
      intro params args hIn
      rw [List.zip_map_right]
      exact List.mem_map.mpr ⟨(r, a), hIn, rfl⟩
    rw [bindAll_of_mem hNodup (hValue ha), bindAll_of_mem (hNodup.filter _) (hValue hKept)]
  · rw [bindAll_of_notMem hParam, bindAll_of_notMem fun hIn => hParam (List.mem_filter.mp hIn).1]
    -- A register that the edge does not bind comes from before it.
    rcases hr with hAvailable | hIn | hNone
    · exact hAgree.regs r (hAvailable.known_of_edge hTarget) hKeep
    · exact absurd hIn hParam
    · simp at hNone

/-- A block and its rewritten form come to outcomes that match. -/
theorem outcome_match (hShaped : body.Shaped) (h : body.Rewrites starts after rename keep)
    (hVisit : body.Visits starts c label [] s) (hAgree : Agree body after keep label [] s s') :
    Outcome.Match (fun label s other s' => other = label ∧ body.Visits starts c label [] s ∧
      Agree body after keep label [] s s') (body.outcomeFrom c label s)
      (after.outcomeFrom c label s') := by
  have hReached := hVisit.point.reached
  obtain ⟨hEnd, hAgree⟩ := h.agree_run (List.nil_append _).symm (h.instrs label hReached)
    (fun i hi slot hSlot => ⟨label, h.reached_iff.mpr hReached, i, hi, hSlot⟩) hVisit hAgree
  unfold outcomeFrom outcome
  generalize s.run c (body.block label).instrs = t at hEnd hAgree
  generalize s'.run c (after.block label).instrs = t' at hAgree
  have hUses : ∀ a ∈ ((body.block label).terminator.mapEdges (body.keepArgs keep)).uses,
      t'.regs (rename a) = t.regs a := fun a ha =>
    h.regs_rename hEnd hAgree (hShaped.exit_known label hReached a (mem_exit_uses ha))
      (h.exits label hReached a ha)
  -- Taking an edge, said once for jumps and for both arms of branches.
  have hEdge : ∀ e ∈ (body.block label).terminator.edges,
      (∀ a ∈ (body.keepArgs keep e).args, t'.regs (rename a) = t.regs a) →
      (body.block label).terminator.exit t.regs = .goto e.target (e.args.map t.regs) →
      Outcome.Match (fun label s other s' => other = label ∧ body.Visits starts c label [] s ∧
        Agree body after keep label [] s s')
        (.entered e.target (t.bind (body.block e.target).params (e.args.map t.regs)))
        (.entered e.target (t'.bind (after.block e.target).params
          (((body.keepArgs keep e).renameUses rename).args.map t'.regs))) := by
    intro e he hArgs hExit
    refine .entered ⟨rfl, hEnd.edge hExit, ?_⟩
    exact h.agree_bind hShaped hReached he hAgree (List.map_congr_left hArgs)
  rw [h.terminator label hReached]
  cases hTerminator : (body.block label).terminator with
  | ret value =>
    rw [hTerminator] at hUses
    have hValue := hUses value
      (by simp [Terminator.mapEdges, Terminator.uses, Terminator.operands])
    simp only [Terminator.mapEdges, Terminator.renameUses, Terminator.exit, hValue, hAgree.calls]
    exact .returned _ _
  | jump e =>
    rw [hTerminator] at hUses hEdge
    refine hEdge e (by simp [Terminator.edges]) (fun a ha => hUses a ?_) rfl
    simpa [Terminator.mapEdges, Terminator.uses, Terminator.operands, Terminator.edges] using ha
  | branch condition onTrue onFalse =>
    rw [hTerminator] at hUses hEdge
    have hCondition := hUses condition
      (by simp [Terminator.mapEdges, Terminator.uses, Terminator.operands])
    simp only [Terminator.mapEdges, Terminator.renameUses, Terminator.exit, hCondition]
    by_cases hTrue : countsAsTrue (t.regs condition) = true
    · rw [if_pos hTrue, if_pos hTrue]
      refine hEdge onTrue (by simp [Terminator.edges]) (fun a ha => hUses a ?_) (if_pos hTrue)
      simp [Terminator.mapEdges, Terminator.uses, Terminator.edges, ha]
    · rw [if_neg hTrue, if_neg hTrue]
      refine hEdge onFalse (by simp [Terminator.edges]) (fun a ha => hUses a ?_) (if_neg hTrue)
      simp [Terminator.mapEdges, Terminator.uses, Terminator.edges, ha]
  | unreachable => exact .stuck

/-- A rewritten body yields the same. -/
theorem yields_iff (hShaped : body.Shaped) (h : body.Rewrites starts after rename keep)
    (contents : Slot → Float) (hStart : starts contents) (c : Setting) (x : Float)
    (calls : List Call) :
    body.YieldsHolding c contents x calls ↔ after.YieldsHolding c contents x calls := by
  refine yieldsHolding_iff_of_step (fun label s other s' => other = label ∧
    body.Visits starts c label [] s ∧ Agree body after keep label [] s s') ?_
    ⟨h.entry, .start hStart, rfl, fun _ _ _ => rfl, fun _ _ => rfl⟩ x calls
  rintro label s _ s' ⟨rfl, hVisit, hAgree⟩
  exact h.outcome_match hShaped hVisit hAgree

theorem keeps (hShaped : body.Shaped) (h : body.Rewrites starts after rename keep) :
    body.Keeps starts after where
  shaped := h.shaped hShaped
  rooted hRooted := h.rooted hRooted
  wellFormed _ hWf := h.wellFormed hWf
  arity := h.arity
  yields := h.yields_iff hShaped

end Rewrites

end Body

end Ir

end LiveCompiler
