import ClassLang.Proofs.Session
import ClassLang.Proofs.StageOrder

/-! What a limit on errors changes about a session: it ends earlier, between two stages, and is up
to there the session without a limit. -/

namespace ClassLang

namespace DiagnosticBuffer
variable {buffer : DiagnosticBuffer}

theorem report_extends (diagnostic : Diagnostic) :
    buffer.diagnostics <+: (buffer.report diagnostic).diagnostics := by
  unfold report
  dsimp only
  split
  · split
    · exact List.prefix_refl _
    · exact List.prefix_append _ _
  · exact List.prefix_append _ _

theorem reportAll_extends (reports : List Diagnostic) :
    buffer.diagnostics <+: (buffer.reportAll reports).diagnostics := by
  induction reports generalizing buffer with
  | nil => exact List.prefix_refl _
  | cons first rest ih => exact (report_extends first).trans ih

end DiagnosticBuffer

/-- Running a stage on members reports to the workspace, not to the buffer of the unit. -/
theorem StageM.runMembers_diagnostics {stage : Stage} {ids : List Nat} {work final : Workspace}
    (ran : (ids.forM (runMember stage)).run work = .ok ((), final)) :
    final.unit.diagnostics = work.unit.diagnostics := by
  have keeps :
      (Keeping fun after : Workspace => after.unit.diagnostics = work.unit.diagnostics).Meets
      (ids.forM (runMember stage)) :=
    .forM fun id start same _ after answered =>
      ⟨(runMember_spares answered).unit.diagnostics.trans same, trivial⟩
  exact (keeps work rfl () final ran).1

/-- A stage adds reports to the buffer of the unit. -/
theorem Program.runStage_reports {program final : Program} {stage : Stage}
    {unit after : CompilationUnit} (ran : program.runStage stage unit = .ok (final, after)) :
    ∃ reports, after.diagnostics = unit.diagnostics.reportAll reports := by
  obtain ⟨work, acted, rfl, rfl⟩ := runStage_eq_ok ran
  exact ⟨work.reports, congrArg (·.reportAll work.reports) (StageM.runMembers_diagnostics acted)⟩

/-- The later unit keeps the diagnostics of the earlier one in front, and counts no fewer errors. -/
structure CompilationUnit.Extends (before after : CompilationUnit) : Prop where
  diagnostics : before.diagnostics.diagnostics <+: after.diagnostics.diagnostics
  errors : before.diagnostics.errorCount ≤ after.diagnostics.errorCount

theorem CompilationUnit.Extends.refl (unit : CompilationUnit) : unit.Extends unit :=
  ⟨List.prefix_refl _, Nat.le_refl _⟩

theorem CompilationUnit.Extends.trans {first second third : CompilationUnit}
    (earlier : first.Extends second) (later : second.Extends third) : first.Extends third :=
  ⟨earlier.diagnostics.trans later.diagnostics, earlier.errors.trans later.errors⟩

open CompilationUnit

/-- Every unit extends the one at its place. -/
abbrev ExtendAll : List CompilationUnit → List CompilationUnit → Prop := List.Forall₂ Extends

theorem ExtendAll.refl (units : List CompilationUnit) : ExtendAll units units :=
  List.forall₂_same.mpr fun unit _ => .refl unit

theorem ExtendAll.trans {first second third : List CompilationUnit}
    (earlier : ExtendAll first second) (later : ExtendAll second third) :
    ExtendAll first third := by
  induction earlier generalizing third with
  | nil => exact later
  | cons head _ ih =>
    cases later with
    | cons next rest => exact .cons (head.trans next) (ih rest)

theorem unitErrors_le {before after : List CompilationUnit} (extended : ExtendAll before after) :
    unitErrors before ≤ unitErrors after := by
  induction extended with
  | nil => exact Nat.le_refl _
  | cons first _ ih =>
    simp only [unitErrors_cons]
    exact Nat.add_le_add first.errors ih

namespace PhaseState
variable {state next final : PhaseState} {stage : Stage} {stages started : List Stage} {limit : Nat}

/-- The state under another limit. -/
def withLimit (state : PhaseState) (limit : Nat) : PhaseState :=
  { state with budget := { state.budget with limit } }

@[simp] theorem withLimit_withLimit {other : Nat} :
    (state.withLimit other).withLimit limit = state.withLimit limit := rfl

@[simp] theorem withLimit_self : state.withLimit state.budget.limit = state := rfl

@[simp] theorem withLimit_zero_free : (state.withLimit 0).budget.limitReached = false := by
  simp [withLimit, ErrorBudget.limitReached]

/-! A unit is worked on in the same way whatever the limit. -/

theorem runUnit_withLimit (unit : CompilationUnit) :
    runUnit stage (state.withLimit limit) unit = (runUnit stage state unit).map
      (·.withLimit limit) := by
  unfold runUnit
  split
  · rfl
  · change state.program.runStage stage unit >>= _ = _
    cases state.program.runStage stage unit <;> rfl

theorem runUnits_withLimit (units : List CompilationUnit) :
    units.foldlM (runUnit stage) (state.withLimit limit) =
      (units.foldlM (runUnit stage) state).map (·.withLimit limit) := by
  induction units generalizing state with
  | nil => rfl
  | cons unit rest ih =>
    rw [List.foldlM_cons, List.foldlM_cons, runUnit_withLimit]
    cases runUnit stage state unit with
    | error fault => rfl
    | ok next => exact ih

theorem runPhase_withLimit (free : state.budget.limitReached = false)
    (also : (state.withLimit limit).budget.limitReached = false) :
    (state.withLimit limit).runPhase stage = (state.runPhase stage).map (·.withLimit limit) := by
  unfold runPhase
  rw [if_neg (by simp [also]), if_neg (by simp [free])]
  exact @runUnits_withLimit { state with units := [] } stage limit state.units

theorem runPhase_unlimited (free : state.budget.limitReached = false)
    (ran : state.runPhase stage = .ok next) :
    (state.withLimit 0).runPhase stage = .ok (next.withLimit 0) := by
  rw [runPhase_withLimit free withLimit_zero_free, ran]
  rfl

theorem runPhase_limit (free : state.budget.limitReached = false)
    (ran : state.runPhase stage = .ok next) :
    next.budget.limit = state.budget.limit := by
  have same := @runPhase_withLimit state stage state.budget.limit free free
  rw [withLimit_self, ran] at same
  have kept : next = next.withLimit state.budget.limit := Except.ok.inj same
  rw [kept]
  rfl

/-! Phases add diagnostics. -/

theorem runUnit_extends {unit : CompilationUnit} (ran : runUnit stage state unit = .ok next) :
    ∃ done, next.units = state.units ++ [done] ∧ unit.Extends done := by
  unfold runUnit at ran
  split at ran
  · cases ran
    exact ⟨unit, rfl, .refl unit⟩
  · obtain ⟨⟨program, done⟩, staged, rest⟩ := Except.bind_eq_ok ran
    cases rest
    obtain ⟨reports, same⟩ := Program.runStage_reports staged
    refine ⟨done, rfl, ?_, ?_⟩
    · rw [same]
      exact DiagnosticBuffer.reportAll_extends reports
    · rw [same]
      exact DiagnosticBuffer.errorCount_reportAll_le reports

theorem runUnits_extends {units : List CompilationUnit}
    (ran : units.foldlM (runUnit stage) state = .ok final) :
    ∃ done, final.units = state.units ++ done ∧ ExtendAll units done := by
  induction units generalizing state with
  | nil =>
    cases ran
    exact ⟨[], by simp, .nil⟩
  | cons unit rest ih =>
    rw [List.foldlM_cons] at ran
    obtain ⟨next, first, ran⟩ := Except.bind_eq_ok ran
    obtain ⟨done, units, extended⟩ := runUnit_extends first
    obtain ⟨later, more, extendedAll⟩ := ih ran
    exact ⟨done :: later, by rw [more, units]; simp, .cons extended extendedAll⟩

theorem runPhase_extends (ran : state.runPhase stage = .ok next) :
    ExtendAll state.units next.units := by
  unfold runPhase at ran
  split at ran
  · cases ran
    exact ExtendAll.refl _
  · obtain ⟨done, same, extended⟩ := runUnits_extends ran
    rw [same]
    exact extended

theorem runPhases_extends (ran : stages.foldlM runPhase state = .ok final) :
    ExtendAll state.units final.units := by
  induction stages generalizing state with
  | nil =>
    cases ran
    exact ExtendAll.refl _
  | cons stage rest ih =>
    rw [List.foldlM_cons] at ran
    obtain ⟨next, first, ran⟩ := Except.bind_eq_ok ran
    exact (runPhase_extends first).trans (ih ran)

/-- The state after the first phases. -/
def afterPhases (state : PhaseState) (count : Nat) : Except Abort PhaseState :=
  (Stage.all.take count).foldlM runPhase state

theorem afterPhases_extends {early late : Nat} (le : early ≤ late)
    (ran : state.afterPhases early = .ok next) (later : state.afterPhases late = .ok final) :
    ExtendAll next.units final.units := by
  have split : Stage.all.take late = Stage.all.take early ++ (Stage.all.take late).drop early := by
    conv_lhs =>
      rw [← List.take_append_drop early (Stage.all.take late), List.take_take, Nat.min_eq_left le]
  unfold afterPhases at ran later
  rw [split, List.foldlM_append, ran] at later
  exact runPhases_extends later

/-! The stages that a limit lets start. -/

namespace Schedule

/-- What was started runs without a limit as well, to the same end. -/
theorem unlimited (schedule : state.Schedule stages started final) :
    started <+: stages ∧ started.foldlM runPhase (state.withLimit 0) = .ok (final.withLimit 0) := by
  induction schedule with
  | done state => exact ⟨List.prefix_refl _, rfl⟩
  | stop stages full => exact ⟨List.nil_prefix, rfl⟩
  | start free ran rest ih =>
    refine ⟨List.prefix_cons_inj _ |>.mpr ih.1, ?_⟩
    rw [List.foldlM_cons, runPhase_unlimited free ran]
    exact ih.2

theorem limit_eq (schedule : state.Schedule stages started final) :
    final.budget.limit = state.budget.limit := by
  induction schedule with
  | done | stop => rfl
  | start free ran _ ih => exact ih.trans (runPhase_limit free ran)

/-- Before every stage that was started the limit was not reached. -/
theorem free_before (schedule : state.Schedule stages started final) {count : Nat}
    (below : count < started.length)
    (ran : (stages.take count).foldlM runPhase (state.withLimit 0) = .ok next) :
    (next.withLimit state.budget.limit).budget.limitReached = false := by
  induction schedule generalizing count with
  | done => cases below
  | stop => cases below
  | @start state between _ stage _ _ free started rest ih =>
    cases count with
    | zero =>
      cases ran
      exact free
    | succ count =>
      rw [List.take_succ_cons, List.foldlM_cons, runPhase_unlimited free started] at ran
      have later := ih (Nat.lt_of_succ_lt_succ below) ran
      rwa [runPhase_limit free started] at later

end Schedule

theorem Chained.take {progress : Progress} {stages : List Stage} (chained : Chained progress stages)
    (count : Nat) : Chained progress (stages.take count) := by
  induction stages generalizing progress count with
  | nil => simpa using chained
  | cons stage rest ih =>
    cases count with
    | zero => trivial
    | succ count => exact ⟨chained.1, ih chained.2 count⟩

/-- After so many phases a unit has made as much progress. -/
theorem rank_phases : ∀ count ≤ Stage.all.length,
    (((Stage.all.take count).map Stage.target).getLastD .unresolved).rank = count := by
  decide

/-- Without a limit, all units are brought as far as the phases go. -/
theorem afterPhases_holds {rank : ParamRef → Nat} {config : BufferConfig}
    {sources : List SourceUnit} (holds : state.Holds True rank config sources .unresolved)
    (unlimited : state.budget.limit = 0) (count : Nat) :
    ∃ reached, state.afterPhases count = .ok reached ∧
      reached.Holds True rank config sources
        (((Stage.all.take count).map Stage.target).getLastD .unresolved) := by
  have chained : Chained .unresolved Stage.all := ⟨rfl, rfl, rfl, rfl, trivial⟩
  have answers := runPhases_holds (chained.take count) holds
  obtain ⟨reached, ran⟩ := answers.ends trivial
  obtain ⟨started, _, stand, limit, complete⟩ := answers.ensures reached ran
  have all : started = Stage.all.take count := by
    refine complete.resolve_right fun full => ?_
    simp [ErrorBudget.limitReached, limit, unlimited] at full
  exact ⟨reached, ran, all ▸ stand⟩

end PhaseState

namespace Session
open PhaseState

/-- A session that was run has run all phases, as far as they were started. -/
theorem run_phases {session done : Session} (ran : session.run = .ok done) :
    session.opened.afterPhases Stage.all.length = .ok done.closed := by
  obtain ⟨final, phases, rest⟩ := Except.bind_eq_ok ran
  cases rest
  exact phases

/-- A limit on errors only cuts off whole phases. The session with the limit runs the first phases
of the session without it, and ends with what that session has then; a phase runs exactly if fewer
errors than the limit were reported before it, as far as the counter of errors reaches; all units
and members are equally far; and the diagnostics of every unit are continued by those of the session
without a limit. -/
theorem errorLimit_truncates (config : SessionConfig) (positive : 0 < config.errorLimit)
    (sources : List SourceUnit) (wellFormed : ∀ source ∈ sources, source.WellFormed) :
    ∃ (limited unlimited : Session) (ran : Nat) (after : Nat → PhaseState),
      compile { config, sources } = .ok (.ok limited) ∧
      compile { config := { config with errorLimit := 0 }, sources } = .ok (.ok unlimited) ∧
      (∀ count, (opened { config := { config with errorLimit := 0 }, sources }).afterPhases count =
        .ok (after count)) ∧
      unlimited.units = (after Stage.all.length).units ∧
      (opened { config, sources }).Schedule Stage.all (Stage.all.take ran) limited.closed ∧
      ran ≤ Stage.all.length ∧ limited.units = (after ran).units ∧
      limited.program = (after ran).program ∧
      (∀ count < Stage.all.length,
        (count < ran ↔ ∀ earlier ≤ count,
          unitErrors (after earlier).units % counterRange < config.errorLimit) ∧
        (unitErrors (after count).units < counterRange →
          (count < ran ↔ unitErrors (after count).units < config.errorLimit))) ∧
      (∃ progress : Progress, progress.rank = ran ∧ ∀ unit ∈ limited.units,
        unit.progress = progress ∧ ∀ member ∈ unit.members.toList, member.progress = progress) ∧
      List.Forall₂ (fun unit full => unit.diagnostics.diagnostics <+: full.diagnostics.diagnostics)
        limited.units unlimited.units := by
  let free : Session := { config := { config with errorLimit := 0 }, sources }
  have same : (opened { config, sources }).withLimit 0 = opened free := rfl
  obtain ⟨rank, openedFree⟩ := @opened_holds True sources free.config fun _ => wellFormed
  have phases := afterPhases_holds openedFree rfl
  choose after ranAfter holdsAfter using phases
  obtain ⟨unlimited, ranUnlimited⟩ :=
    (@run_holds True sources free.config fun _ => wellFormed).ends trivial
  have finished : after Stage.all.length = unlimited.closed :=
    Except.ok.inj ((ranAfter Stage.all.length).symm.trans (run_phases ranUnlimited))
  -- What the session with the limit starts is the first phases of the one without.
  have answers := @run_holds True sources config fun _ => wellFormed
  obtain ⟨limited, ranLimited⟩ := answers.ends trivial
  obtain ⟨_, _, started, schedule, _, complete⟩ := answers.ensures limited ranLimited
  obtain ⟨initial, replayed⟩ := schedule.unlimited
  have firstPhases : started = Stage.all.take started.length := List.prefix_iff_eq_take.mp initial
  rw [same, firstPhases] at replayed
  have reached : after started.length = limited.closed.withLimit 0 :=
    Except.ok.inj ((ranAfter started.length).symm.trans replayed)
  have bounded : started.length ≤ Stage.all.length := initial.length_le
  have limit : limited.closed.budget.limit = config.errorLimit := schedule.limit_eq
  have spent (count : Nat) :
      (after count).budget.spent = unitErrors (after count).units % counterRange :=
    (holdsAfter count).spent
  have below (count : Nat) (ran : count < started.length) :
      unitErrors (after count).units % counterRange < config.errorLimit := by
    have open_ := schedule.free_before ran (ranAfter count)
    simp only [ErrorBudget.limitReached, withLimit, decide_eq_false_iff_not, spent] at open_
    exact Nat.lt_of_not_le fun full => open_ ⟨positive, full⟩
  have stopped (unfinished : started.length < Stage.all.length) :
      config.errorLimit ≤ unitErrors (after started.length).units % counterRange := by
    have full : limited.closed.budget.limitReached = true :=
      complete.resolve_left fun all => absurd (congrArg List.length all) (Nat.ne_of_lt unfinished)
    simp only [ErrorBudget.limitReached, decide_eq_true_eq, limit] at full
    rw [← spent, reached]
    exact full.2
  have grows {early late : Nat} (le : early ≤ late) :
      ExtendAll (after early).units (after late).units :=
    afterPhases_extends le (ranAfter early) (ranAfter late)
  refine ⟨limited, unlimited, started.length, after, congrArg Except.ok ranLimited,
    congrArg Except.ok ranUnlimited, ranAfter, ?_, firstPhases ▸ schedule, bounded, ?_,
      ?_, ?_, ?_, ?_⟩
  · rw [finished]
    rfl
  · rw [reached]
    rfl
  · rw [reached]
    rfl
  · intro count inside
    have counted : count < started.length ↔ ∀ earlier ≤ count,
        unitErrors (after earlier).units % counterRange < config.errorLimit := by
      refine ⟨fun ran earlier le => below earlier (Nat.lt_of_le_of_lt le ran), fun fewer => ?_⟩
      by_contra late
      have spent := stopped (Nat.lt_of_le_of_lt (Nat.le_of_not_lt late) inside)
      exact absurd (fewer started.length (Nat.le_of_not_lt late)) (Nat.not_lt_of_le spent)
    refine ⟨counted, fun fits => counted.trans ⟨fun fewer => ?_, fun fewer earlier le => ?_⟩⟩
    · exact Nat.mod_eq_of_lt fits ▸ fewer count (Nat.le_refl count)
    · have less := unitErrors_le (grows le)
      rw [Nat.mod_eq_of_lt (Nat.lt_of_le_of_lt less fits)]
      exact Nat.lt_of_le_of_lt less fewer
  · refine ⟨_, rank_phases started.length bounded, fun unit member => ?_⟩
    have stand := (holdsAfter started.length).units
    rw [reached] at stand
    obtain ⟨_, _, stood, progress⟩ := stand.exists_source member
    exact ⟨progress, fun entry present => (stood.member_progress entry present).trans progress⟩
  · have extended := grows bounded
    rw [finished, reached] at extended
    exact extended.imp fun _ _ => Extends.diagnostics

/-- The stray unit under a limit of one error. -/
theorem errorLimit_truncates_stray :
    let config : SessionConfig := { errorLimit := 1 }
    ∃ limited unlimited ran,
      compile { config, sources := [strayUnit] } = .ok (.ok limited) ∧
      compile { config := { config with errorLimit := 0 }, sources := [strayUnit] } =
        .ok (.ok unlimited) ∧
      ran ≤ Stage.all.length ∧
      List.Forall₂ (fun unit full => unit.diagnostics.diagnostics <+: full.diagnostics.diagnostics)
        limited.units unlimited.units := by
  obtain ⟨limited, unlimited, ran, _, compiled, also, _, _, _, bounded, _, _, _, _, extended⟩ :=
    errorLimit_truncates { errorLimit := 1 } Nat.one_pos [strayUnit]
      (by simpa using strayUnit_wellFormed)
  exact ⟨limited, unlimited, ran, compiled, also, bounded, extended⟩

end Session
end ClassLang
