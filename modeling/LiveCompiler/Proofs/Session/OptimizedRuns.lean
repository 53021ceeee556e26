import LiveCompiler.Proofs.Session.Improvement
import LiveCompiler.Proofs.Session.Readings

/-!
# Runs with and without the pipeline

Over the same input a session that runs the pipeline and one that does not read the same units.
As long as no unit of the plain session misses a symbol, no evaluation is cut off, and the links are
current in the end, both sessions write the same and count the same (`run_alike_of_runsClear`).

Without these conditions they need not.  The pipeline drops calls that cannot be reached, and the
backend looks for symbols and chooses links where calls are left.  So the session that runs the
pipeline may miss no symbol where the other one does (`undefinedInput`), and it may choose a link
later, after the name has been defined again.
-/

namespace LiveCompiler

namespace TopLevel

variable {t better : TopLevel}

/-- The same state with another limit of steps. -/
def withLimit (t : TopLevel) (limit : Nat) : TopLevel :=
  { t with session := t.session.withLimit limit }

/-- Two states that go on side by side: the sessions belong together, and as much has been written
and counted on both sides. -/
structure Alike (t better : TopLevel) : Prop where
  session : t.session.Improves better.session
  quiet : t.session.Quiet
  better_quiet : better.session.Quiet
  lexer_eq : better.lexer = t.lexer
  transcript_eq : better.transcript = t.transcript
  summary_eq : better.summary = t.summary

theorem Alike.write (h : t.Alike better) (w : Written) : (t.write w).Alike (better.write w) :=
  { h with transcript_eq := congrArg (· ++ [w]) h.transcript_eq }

theorem Alike.writeHost (h : t.Alike better) (bytes : List UInt8) :
    (t.writeHost bytes).Alike (better.writeHost bytes) := by
  unfold TopLevel.writeHost
  split
  · exact h
  · exact h.write _

theorem Alike.countUnit (h : t.Alike better) : t.countUnit.Alike better.countUnit :=
  { h with summary_eq := by simp only [TopLevel.countUnit, h.summary_eq] }

theorem Alike.countEvaluation (h : t.Alike better) :
    t.countEvaluation.Alike better.countEvaluation :=
  { h with summary_eq := by simp only [TopLevel.countEvaluation, h.summary_eq] }

theorem Alike.report (h : t.Alike better) (message : String) :
    (t.report message).Alike (better.report message) :=
  { h.write (.diag ("error: " ++ message ++ "\n")) with
    summary_eq := by simp only [TopLevel.report, TopLevel.write, h.summary_eq] }

theorem Alike.conclude (h : t.Alike better) (result : Except UnitError Outcome) :
    (t.conclude result).Alike (better.conclude result) := by
  unfold TopLevel.conclude
  split
  · exact (h.write _).countUnit.countEvaluation
  · exact h.countUnit
  · exact h.report _

/-- A unit that misses no symbol and is not cut off is taken alike on both sides. -/
theorem Alike.handle (h : t.Alike better) {u : SourceUnit} (hPlain : u.Plain)
    (hRan : (t.session.handle u).Ran)
    (hCurrent : (t.session.handle u).session.backend.Current (t.session.handle u).session.image) :
    ∃ bound, ∀ limit, bound ≤ limit → (t.handle u).Alike ((better.withLimit limit).handle u) := by
  obtain ⟨bound, hHandle⟩ := h.session.handle hPlain hRan hCurrent
  refine ⟨bound, fun limit hLimit => ?_⟩
  obtain ⟨hResult, hOutput, hSession⟩ := hHandle limit hLimit
  have hQuiet : (better.withLimit limit).session.Quiet :=
    ⟨h.better_quiet.dumpIr, h.better_quiet.queued⟩
  have hStates : Alike { t with session := (t.session.handle u).session }
      { better.withLimit limit with session := ((better.withLimit limit).session.handle u).session } :=
    ⟨hSession, h.quiet.handle u, hQuiet.handle u, h.lexer_eq, h.transcript_eq, h.summary_eq⟩
  have hWritten := (hStates.writeHost (t.session.handle u).output).conclude
    (t.session.handle u).result
  rw [handle_of_quiet h.quiet, handle_of_quiet hQuiet,
    show (better.withLimit limit).session = better.session.withLimit limit from rfl, hResult,
    hOutput]
  exact hWritten

/-- The limit of steps makes no difference for what the session is after a reading. -/
theorem session_take_withLimit (t : TopLevel) (limit : Nat) (reading : Reading) :
    ((t.withLimit limit).take reading).session = (t.take reading).session.withLimit limit := by
  cases reading with
  | error e => rfl
  | ok u =>
    have hTaken : ∀ s : Session,
        (s.withLimit limit).takeListings.2 = s.takeListings.2.withLimit limit := by
      intro s
      unfold Session.takeListings Session.withLimit
      split <;> rfl
    have hHandle := t.session.session_handle_withLimit limit u
    simp only [take, session_handle]
    rw [show (t.withLimit limit).session = t.session.withLimit limit from rfl, hHandle, hTaken]

theorem Alike.withLimit (h : t.Alike better) (limit : Nat) : t.Alike (better.withLimit limit) where
  session := h.session.withLimit limit
  quiet := h.quiet
  better_quiet := ⟨h.better_quiet.dumpIr, h.better_quiet.queued⟩
  lexer_eq := h.lexer_eq
  transcript_eq := h.transcript_eq
  summary_eq := h.summary_eq

/-- A reading that is taken alike under two limits leads to states that differ in the limit only. -/
theorem take_withLimit {limit more : Nat} {reading : Reading} {other : TopLevel}
    (h : other.Alike ((t.withLimit limit).take reading))
    (hMore : other.Alike ((t.withLimit more).take reading)) :
    (t.withLimit more).take reading = ((t.withLimit limit).take reading).withLimit more := by
  have hSession : ((t.withLimit more).take reading).session =
      ((t.withLimit limit).take reading).session.withLimit more := by
    rw [session_take_withLimit, session_take_withLimit]
    rfl
  have hLexer := hMore.lexer_eq.trans h.lexer_eq.symm
  have hTranscript := hMore.transcript_eq.trans h.transcript_eq.symm
  have hSummary := hMore.summary_eq.trans h.summary_eq.symm
  generalize (t.withLimit more).take reading = later at *
  obtain ⟨lexer, session, transcript, summary⟩ := later
  rw [withLimit, ← hSession, ← hLexer, ← hTranscript, ← hSummary]

/-- Readings that the plain session runs through clearly are taken alike on both sides. -/
theorem Alike.foldl_take (readings : List Reading) : ∀ {t better : TopLevel}, t.Alike better →
    (∀ u ∈ readings.filterMap Except.toOption, u.Plain) →
    t.session.RunsClear (readings.filterMap Except.toOption) →
    ∃ bound, ∀ limit, bound ≤ limit →
      (readings.foldl take t).Alike (readings.foldl take (better.withLimit limit)) := by
  induction readings with
  | nil => exact fun h _ _ => ⟨0, fun limit _ => h.withLimit limit⟩
  | cons reading rest ih =>
    intro t better h hPlain hClear
    cases reading with
    | error e => exact ih (h.report e.message) hPlain hClear
    | ok u =>
      obtain ⟨hRan, hRest⟩ := hClear
      have hUnit : u.Plain := hPlain u List.mem_cons_self
      have hOthers : ∀ v ∈ rest.filterMap Except.toOption, v.Plain := fun v hv =>
        hPlain v (List.mem_cons_of_mem u hv)
      obtain ⟨first, hFirst⟩ := h.handle hUnit hRan
        (hRest.current (h.session.sound.handle hUnit) hOthers)
      have hSession : (t.handle u).session = (t.session.handle u).session := by
        rw [session_handle, (h.quiet.handle u).takeListings]
      have hAfter := hFirst first (Nat.le_refl first)
      obtain ⟨bound, hMore⟩ := ih hAfter hOthers (hSession ▸ hRest)
      -- Every unit has a bound of its own; above the largest one the limit makes no difference for
      -- any of them.
      refine ⟨max first bound, fun limit hLimit => ?_⟩
      have hOwn := hFirst limit (Nat.le_trans (Nat.le_max_left _ _) hLimit)
      have hSame : (better.withLimit limit).take (.ok u) =
          ((better.withLimit first).take (.ok u)).withLimit limit := take_withLimit hAfter hOwn
      rw [List.foldl_cons, List.foldl_cons, hSame]
      exact hMore limit (Nat.le_trans (Nat.le_max_right _ _) hLimit)

end TopLevel

/-- A session that runs the pipeline writes and counts the same over an input as one that does not,
if the latter misses no symbol, cuts no evaluation off, and has no link that is out of date in the
end.  The limit of steps need not be the same: the pipeline only has to be given enough. -/
theorem run_alike_of_runsClear (config : Config) (input : Input) (hQuiet : config.dumpIr = false)
    (hClear : (Session.start { config with optimize := false }).RunsClear
      ((Lexer.ofInput input).units config.precedence)) :
    ∃ bound, ∀ limit, bound ≤ limit →
      let plain := (TopLevel.start (.start { config with optimize := false }) input).run
      let optimized := (TopLevel.start
        (.start { config with optimize := true, stepLimit := limit }) input).run
      optimized.transcript = plain.transcript ∧ optimized.summary = plain.summary ∧
        optimized.lexer = plain.lexer := by
  have hStart : (TopLevel.start (.start { config with optimize := false }) input).Alike
      (TopLevel.start (.start { config with optimize := true }) input) :=
    ⟨Session.improves_start config, ⟨hQuiet, rfl⟩, ⟨hQuiet, rfl⟩, rfl, rfl, rfl⟩
  obtain ⟨bound, hRuns⟩ := hStart.foldl_take ((Lexer.ofInput input).readAll config.precedence).1
    (fun _ => Lexer.plain_of_mem_units) hClear
  refine ⟨bound, fun limit hLimit => ?_⟩
  have hEnd := hRuns limit hLimit
  dsimp only
  rw [TopLevel.run_eq_foldl, TopLevel.run_eq_foldl]
  exact ⟨hEnd.transcript_eq, hEnd.summary_eq, rfl⟩

/-- A definition with a call in a branch that is never taken, of a function that is declared before
it and defined behind it. -/
def forwardInput : Input :=
  .ofLines ["extern foo(x); def g(x) if 0 then foo(x) else x;\n", "def foo(x) x + 1; g(1); foo(2);\n"]
    none

theorem run_alike_forwardInput :
    Config.standard.dumpIr = false ∧
    (Session.start { Config.standard with optimize := false }).RunsClear
      ((Lexer.ofInput forwardInput).units Config.standard.precedence) ∧
    ∃ bound, ∀ limit, bound ≤ limit →
      let plain := (TopLevel.start (.start { Config.standard with optimize := false })
        forwardInput).run
      let optimized := (TopLevel.start
        (.start { Config.standard with optimize := true, stepLimit := limit }) forwardInput).run
      optimized.transcript = plain.transcript ∧ optimized.summary = plain.summary ∧
        optimized.lexer = plain.lexer := by
  have hClear : (Session.start { Config.standard with optimize := false }).RunsClear
      ((Lexer.ofInput forwardInput).units Config.standard.precedence) := by decide +kernel
  exact ⟨rfl, hClear, run_alike_of_runsClear Config.standard forwardInput rfl hClear⟩

/-- An expression that calls, in a branch that is never taken, a function that is declared only. -/
def undefinedInput : Input :=
  .ofLines ["extern foo(); if 0 then foo() else 1;\n"] none

/-- The pipeline drops the call, and with it the error. -/
theorem summary_undefinedInput_ne :
    (TopLevel.start (.start { Config.standard with optimize := true }) undefinedInput).run.summary ≠
      (TopLevel.start (.start { Config.standard with optimize := false })
        undefinedInput).run.summary := by
  decide +kernel

end LiveCompiler
