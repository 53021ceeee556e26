import LiveCompiler.Proofs.Pass.FlowCleanup.Termination

/-!
# Where the rounds come to rest

The rounds stop at a body that another round leaves as it is (`still_rounds`).  In such a body no
branch has a known way, no parameter gets one single value, and no jump is the only way into another
block (`Still`).

The steps count differently.  A parameter is compared on the edges from all blocks
(`Forwarding.mem_incoming`), the edges into a block are counted from the reached ones alone.
-/

namespace LiveCompiler

open Ir

namespace Forwarding

variable {body : Body}

/-- A parameter of a block that is not the entry gets one single value, itself left out, on the
edges into the block. -/
structure Trivial (body : Body) (label : Label) (index : Nat) (param value : Reg) : Prop where
  ne_entry : label ≠ body.entry
  at_index : (body.block label).params[index]? = some param
  ne : value ≠ param
  passed : ∃ e ∈ body.edges, e.target = label ∧ e.args[index]? = some value
  only : ∀ e ∈ body.edges, e.target = label → ∀ r, e.args[index]? = some r → r = param ∨ r = value

theorem mem_incoming {label : Label} {index : Nat} {param r : Reg} :
    r ∈ incoming body label index param ↔
      r ≠ param ∧ ∃ e ∈ body.edges, e.target = label ∧ e.args[index]? = some r := by
  unfold incoming
  rw [List.mem_filterMap]
  constructor
  · rintro ⟨e, he, hSome⟩
    split at hSome
    · rename_i hTarget
      obtain ⟨hAt, hne⟩ := Option.filter_eq_some_iff.mp hSome
      exact ⟨bne_iff_ne.mp hne, e, he, hTarget, hAt⟩
    · cases hSome
  · rintro ⟨hne, e, he, hTarget, hAt⟩
    refine ⟨e, he, ?_⟩
    rw [if_pos hTarget, Option.filter_eq_some_iff]
    exact ⟨hAt, bne_iff_ne.mpr hne⟩

theorem single?_eq_some_iff {values : List Reg} {value : Reg} :
    single? values = some value ↔ value ∈ values ∧ ∀ other ∈ values, other = value := by
  refine ⟨single?_spec, fun ⟨hMem, hAll⟩ => ?_⟩
  cases values with
  | nil => cases hMem
  | cons first rest =>
    have hFirst := hAll first List.mem_cons_self
    have hRest : rest.all (· == first) = true := List.all_eq_true.mpr fun other hOther => by
      rw [hAll other (List.mem_cons_of_mem _ hOther), hFirst, beq_self_eq_true]
    rw [single?, if_pos hRest, hFirst]

/-- The search is for parameters that get one single value. -/
theorem found_iff_trivial {label : Label} {index : Nat} {param value : Reg} :
    Found body ⟨label, index, param, value⟩ ↔ Trivial body label index param value := by
  constructor
  · rintro ⟨hEntry, hAt, hSingle⟩
    obtain ⟨hMem, hAll⟩ := single?_eq_some_iff.mp hSingle
    obtain ⟨hne, hPassed⟩ := mem_incoming.mp hMem
    refine ⟨hEntry, hAt, hne, hPassed, fun e he hTarget r hr => ?_⟩
    by_cases hEq : r = param
    · exact .inl hEq
    · exact .inr (hAll r (mem_incoming.mpr ⟨hEq, e, he, hTarget, hr⟩))
  · intro h
    refine ⟨h.ne_entry, h.at_index, single?_eq_some_iff.mpr
      ⟨mem_incoming.mpr ⟨h.ne, h.passed⟩, fun r hr => ?_⟩⟩
    obtain ⟨hne, e, he, hTarget, hAt⟩ := mem_incoming.mp hr
    exact (h.only e he hTarget r hAt).resolve_left hne

theorem single?_of_findParam?_none {label : Label} (rest : List Reg) : ∀ {index : Nat},
    findParam? body label index rest = none → ∀ n param, rest[n]? = some param →
      single? (incoming body label (index + n) param) = none := by
  induction rest with
  | nil => simp
  | cons first rest ih =>
    intro index h n param hAt
    unfold findParam? at h
    split at h
    · cases h
    · rename_i hFirst
      cases n with
      | zero => exact Option.some.inj hAt ▸ hFirst
      | succ n =>
        have hRest := ih h n param hAt
        rwa [Nat.add_right_comm] at hRest

theorem findParam?_of_findFrom?_none (rest : List Block) : ∀ {label : Label},
    findFrom? body label rest = none → ∀ n b, rest[n]? = some b → label + n ≠ body.entry →
      findParam? body (label + n) 0 b.params = none := by
  induction rest with
  | nil => simp
  | cons first rest ih =>
    intro label h n b hAt hne
    have hLater : findFrom? body (label + 1) rest = none := by
      unfold findFrom? at h
      split at h
      · exact h
      · split at h
        · cases h
        · exact h
    cases n with
    | zero =>
      have hHere : label ≠ body.entry := hne
      unfold findFrom? at h
      rw [if_neg hHere] at h
      split at h
      · cases h
      · rename_i hNone
        exact Option.some.inj hAt ▸ hNone
    | succ n =>
      have hRest := ih hLater n b hAt (by rwa [Nat.add_right_comm])
      rwa [Nat.add_right_comm] at hRest

/-- Nothing is found if and only if no parameter gets one single value. -/
theorem find?_eq_none_iff : find? body = none ↔
    ∀ label index param value, ¬ Trivial body label index param value := by
  constructor
  · intro hNone label index param value hTrivial
    have hFound := found_iff_trivial.mpr hTrivial
    have hLt : label < body.blocks.length :=
      Body.lt_of_mem_defs (Body.mem_defs.mpr (.inl (List.mem_of_getElem? hTrivial.at_index)))
    have hParams := findParam?_of_findFrom?_none body.blocks hNone label (body.block label)
      (by rw [Body.block_of_lt hLt, List.getElem?_eq_getElem hLt])
      (by rw [Nat.zero_add]; exact hTrivial.ne_entry)
    have hSingle := single?_of_findParam?_none _ hParams index param hTrivial.at_index
    rw [Nat.zero_add, Nat.zero_add, hFound.single] at hSingle
    cases hSingle
  · intro hAll
    by_contra hSome
    obtain ⟨forward, hFind⟩ := Option.ne_none_iff_exists'.mp hSome
    exact hAll _ _ _ _ (found_iff_trivial.mp (found_of_findFrom? body.blocks 0 rfl hFind))

end Forwarding

namespace FlowCleanup

variable {body : Body}

/-- A body that another round leaves as it is. -/
structure Still (body : Body) : Prop where
  branches : ∀ label, knownEdge? (constants body) (body.block label).terminator = none
  params : Forwarding.find? body = none
  jumps : ∀ label ∈ body.order,
    onlyJump? ⟨body, enteringEdges body body.order, false⟩ label = none

/-! ## The steps that change nothing -/

theorem settleBranches_eq (hNone : ∀ label,
    knownEdge? (constants body) (body.block label).terminator = none) :
    settleBranches body = (body, false) := by
  refine Prod.ext ?_ ?_
  · refine Body.ext_block rfl rfl rfl rfl rfl (by simp [settleBranches]) fun label => ?_
    rw [block_settleBranches, settle, hNone label]
  · refine List.any_eq_false.mpr fun b hb => ?_
    obtain ⟨label, hLt, rfl⟩ := List.mem_iff_getElem.mp hb
    have hHere := hNone label
    rw [Body.block_of_lt hLt] at hHere
    simp [hHere]

theorem knownEdge?_of_snd_settleBranches (hStill : (settleBranches body).2 = false)
    (label : Label) : knownEdge? (constants body) (body.block label).terminator = none := by
  by_cases hLt : label < body.blocks.length
  · have hHere := List.any_eq_false.mp hStill _ (Body.block_mem hLt)
    simpa using hHere
  · rw [Body.block_of_le (Nat.le_of_not_lt hLt)]
    rfl

theorem forwardParams_eq (hNone : Forwarding.find? body = none) :
    forwardParams body = (body, false) := by
  unfold forwardParams
  cases body.params.length with
  | zero => rfl
  | succ count => rw [Forwarding.rounds, hNone]

theorem find?_of_snd_forwardParams (hStill : (forwardParams body).2 = false) :
    Forwarding.find? body = none := by
  by_contra hSome
  obtain ⟨forward, hFind⟩ := Option.ne_none_iff_exists'.mp hSome
  obtain ⟨count, hCount⟩ : ∃ count, body.params.length = count + 1 :=
    ⟨_, (lengths_drop hFind).1.symm⟩
  rw [forwardParams, hCount, Forwarding.rounds, hFind] at hStill
  cases hStill

theorem joinFrom_eq {s : Joining} {label : Label} (hNone : onlyJump? s label = none)
    (count : Nat) : joinFrom label count s = s := by
  cases count with
  | zero => rfl
  | succ count => rw [joinFrom, hNone]

theorem changed_joinFrom (label : Label) (count : Nat) : ∀ {s : Joining}, s.changed = true →
    (joinFrom label count s).changed = true := by
  induction count with
  | zero => exact fun h => h
  | succ count ih =>
    intro s h
    unfold joinFrom
    split
    · exact ih rfl
    · exact h

theorem changed_foldl (labels : List Label) (count : Nat) : ∀ {s : Joining}, s.changed = true →
    (labels.foldl (fun s label => joinFrom label count s) s).changed = true := by
  induction labels with
  | nil => exact fun h => h
  | cons label rest ih => exact fun h => ih (changed_joinFrom label count h)

theorem foldl_joinFrom_eq (labels : List Label) (count : Nat) {s : Joining}
    (hNone : ∀ label ∈ labels, onlyJump? s label = none) :
    labels.foldl (fun s label => joinFrom label count s) s = s := by
  induction labels with
  | nil => rfl
  | cons label rest ih =>
    rw [List.foldl_cons, joinFrom_eq (hNone label List.mem_cons_self)]
    exact ih fun l hl => hNone l (List.mem_cons_of_mem _ hl)

/-- A join that is made shows in the end. -/
theorem onlyJump?_of_foldl (labels : List Label) (count : Nat) {s : Joining}
    (hStill : (labels.foldl (fun s label => joinFrom label (count + 1) s) s).changed = false) :
    ∀ label ∈ labels, onlyJump? s label = none := by
  induction labels with
  | nil => simp
  | cons label rest ih =>
    have hFirst : onlyJump? s label = none := by
      by_contra hSome
      obtain ⟨edge, hOnly⟩ := Option.ne_none_iff_exists'.mp hSome
      have hChanged : (joinFrom label (count + 1) s).changed = true := by
        rw [joinFrom, hOnly]
        exact changed_joinFrom label count rfl
      rw [List.foldl_cons, changed_foldl rest (count + 1) hChanged] at hStill
      cases hStill
    rw [List.foldl_cons, joinFrom_eq hFirst] at hStill
    intro l hl
    rcases List.mem_cons.mp hl with rfl | hRest
    · exact hFirst
    · exact ih hStill l hRest

theorem joinBlocks_eq (hNone : ∀ label ∈ body.order,
    onlyJump? ⟨body, enteringEdges body body.order, false⟩ label = none) :
    joinBlocks body = (body, false) := by
  unfold joinBlocks
  dsimp only
  rw [foldl_joinFrom_eq _ _ hNone]

theorem onlyJump?_of_snd_joinBlocks (hStill : (joinBlocks body).2 = false) : ∀ label ∈ body.order,
    onlyJump? ⟨body, enteringEdges body body.order, false⟩ label = none := by
  intro label hLabel
  have hLt := Digraph.lt_size_of_mem_order hLabel
  rw [Body.size_graph] at hLt
  obtain ⟨count, hCount⟩ := Nat.exists_eq_succ_of_ne_zero (Nat.ne_zero_of_lt hLt)
  unfold joinBlocks at hStill
  rw [hCount] at hStill
  exact onlyJump?_of_foldl body.order count hStill label hLabel

/-! ## Rounds that change nothing -/

theorem Still.round_eq (h : Still body) : round body = (body, false) := by
  unfold round
  rw [settleBranches_eq h.branches]
  dsimp only
  rw [forwardParams_eq h.params]
  dsimp only
  rw [joinBlocks_eq h.jumps]
  rfl

theorem still_of_snd_round (hStill : (round body).2 = false) : Still body := by
  rw [snd_round, Bool.or_eq_false_iff, Bool.or_eq_false_iff] at hStill
  obtain ⟨⟨hBranches, hParams⟩, hJumps⟩ := hStill
  have hNone := knownEdge?_of_snd_settleBranches hBranches
  rw [settleBranches_eq hNone] at hParams hJumps
  have hFind := find?_of_snd_forwardParams hParams
  rw [forwardParams_eq hFind] at hJumps
  exact ⟨hNone, hFind, onlyJump?_of_snd_joinBlocks hJumps⟩

/-- Enough rounds come to a body that another round leaves as it is. -/
theorem still_rounds (count : Nat) : ∀ {body : Body}, weight body < count →
    Still (rounds count body).1 := by
  induction count with
  | zero => exact fun h => absurd h (Nat.not_lt_zero _)
  | succ count ih =>
    intro body hCount
    have hWeight := (roundGives_round body).2
    unfold rounds
    dsimp only
    split
    · rename_i hChanged
      rw [hChanged, Bool.toNat_true] at hWeight
      exact ih (by omega)
    · rename_i hChanged
      have hStill := still_of_snd_round (Bool.eq_false_of_not_eq_true hChanged)
      rw [hStill.round_eq]
      exact hStill

theorem Still.rounds_eq (h : Still body) (count : Nat) : rounds count body = (body, false) := by
  cases count with
  | zero => rfl
  | succ count =>
    rw [rounds, h.round_eq]
    rfl

theorem still_of_snd_rounds {count : Nat} (hStill : (rounds (count + 1) body).2 = false) :
    Still body := by
  unfold rounds at hStill
  dsimp only at hStill
  split at hStill
  · cases hStill
  · rename_i hChanged
    exact still_of_snd_round (Bool.eq_false_of_not_eq_true hChanged)

/-! ## The entry stays -/

theorem entry_forwarding (count : Nat) : ∀ body : Body,
    (Forwarding.rounds count body).1.entry = body.entry := by
  induction count with
  | zero => exact fun _ => rfl
  | succ count ih =>
    intro body
    unfold Forwarding.rounds
    split
    · rfl
    · exact ih _

theorem entry_join (s : Joining) (label : Label) (edge : Edge) :
    (join s label edge).body.entry = s.body.entry := by
  unfold join
  dsimp only
  split <;> rfl

theorem entry_joinFrom (label : Label) (count : Nat) : ∀ s : Joining,
    (joinFrom label count s).body.entry = s.body.entry := by
  induction count with
  | zero => exact fun _ => rfl
  | succ count ih =>
    intro s
    unfold joinFrom
    split
    · rw [ih, entry_join]
    · rfl

theorem entry_joinBlocks (body : Body) : (joinBlocks body).1.entry = body.entry := by
  have hAll : ∀ (labels : List Label) (s : Joining),
      (labels.foldl (fun s label => joinFrom label body.blocks.length s) s).body.entry =
        s.body.entry := by
    intro labels
    induction labels with
    | nil => exact fun _ => rfl
    | cons label rest ih => exact fun s => (ih _).trans (entry_joinFrom label _ s)
  exact hAll body.order _

theorem entry_rounds (count : Nat) : ∀ body : Body,
    (rounds count body).1.entry = body.entry := by
  have hRound : ∀ body : Body, (round body).1.entry = body.entry := fun body =>
    (entry_joinBlocks _).trans (entry_forwarding _ _)
  induction count with
  | zero => exact fun _ => rfl
  | succ count ih =>
    intro body
    unfold rounds
    dsimp only
    split
    · exact (ih _).trans (hRound body)
    · exact hRound body

end FlowCleanup

end LiveCompiler
