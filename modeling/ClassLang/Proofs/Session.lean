import ClassLang.Proofs.Layout
import ClassLang.Proofs.Unit
import ClassLang.Session

/-! Compiling a session: declared units stand at the start, every stage that is started brings all
of them to its target, and errors are counted along the way. -/

namespace ClassLang
open CompilationUnit

variable {total : Prop} {rank later : ParamRef → Nat} {config : BufferConfig} {program : Program}
  {source : SourceUnit}
  {sources : List SourceUnit} {unit : CompilationUnit}

/-! Declared units. -/

/-- Errors counted in the buffers of units. -/
def unitErrors (units : List CompilationUnit) : Nat := (units.map (·.diagnostics.errorCount)).sum

@[simp] theorem unitErrors_nil : unitErrors [] = 0 := rfl

@[simp] theorem unitErrors_append (first second : List CompilationUnit) :
    unitErrors (first ++ second) = unitErrors first + unitErrors second := by
  simp [unitErrors]

@[simp] theorem unitErrors_cons (unit : CompilationUnit) (units : List CompilationUnit) :
    unitErrors (unit :: units) = unit.diagnostics.errorCount + unitErrors units := by
  simp [unitErrors]

theorem length_layoutAll (decls : List ClassDecl) (position : Position) :
    (layoutAll position decls).members.length =
      (decls.map fun decl => 1 + decl.fields.length + decl.methods.length).sum := by
  induction decls generalizing position with
  | nil => rfl
  | cons decl rest ih =>
    simp [layoutAll, Layout.append, ih, ClassDecl.layout, ClassDecl.partialLayout, ClassDecl.inner]
    omega

/-- Ranks count only for parameters that are declared. -/
theorem CompilationUnit.Stands.rerank (stands : unit.Stands total rank config program source)
    (open_ : unit.progress ≠ .constantsFolded)
    (same : ∀ param, program.pool.Declares param → later param = rank param) :
    unit.Stands total later config program source :=
  { stands with
    descends := fun sure waiting id member found param present =>
      (stands.descends sure waiting id member found param present).congr
        (fun other declared => same other declared)
        (fun entry inScope => (stands.laid open_).scope_declared found entry inScope)
        ((stands.laid open_).params id member found param present) }

/-- No parameter has bounds yet. -/
def TypePool.Bare (pool : TypePool) : Prop := ∀ param ∈ pool.params, param.bounds = []

theorem TypePool.Bare.ranked {pool : TypePool} (bare : pool.Bare) (valid : pool.Valid) :
    pool.Ranked rank := by
  intro param bound asked other under
  unfold TypePool.upperBound TypePool.param at asked
  split at asked
  · rename_i declared found
    cases asked
    have reached : pool.Under (declared.bounds.headD .any) other := under
    rw [bare declared (Array.mem_of_getElem? found)] at reached
    exact absurd reached (valid.not_under_primitive rfl)
  · cases asked

/-- The units stand at one progress. -/
def StandAll (total : Prop) (rank : ParamRef → Nat) (config : BufferConfig) (program : Program)
    (progress : Progress) : List SourceUnit → List CompilationUnit → Prop :=
  List.Forall₂ fun source unit => unit.Stands total rank config program source ∧
    unit.progress = progress

theorem StandAll.exists_source {progress : Progress} {units : List CompilationUnit}
    (stand : StandAll total rank config program progress sources units) (member : unit ∈ units) :
    ∃ source ∈ sources, unit.Stands total rank config program source ∧
    unit.progress = progress := by
  induction stand with
  | nil => cases member
  | @cons source _ _ _ facts _ ih =>
    rcases List.mem_cons.mp member with rfl | later
    · exact ⟨source, List.mem_cons_self, facts⟩
    · obtain ⟨other, listed, stood⟩ := ih later
      exact ⟨other, List.mem_cons_of_mem _ listed, stood⟩

/-- A stage leaves the units standing that it has still to work on, and those it has worked on. -/
theorem StandAll.grow {stage : Stage} {progress : Progress} {units : List CompilationUnit}
    {next : Program} (stand : StandAll total rank config program progress sources units)
    (continues : program.Continues (stage ≠ .resolveTypes) next)
    (stood : progress = stage.required ∨ progress = stage.target) :
    StandAll total rank config next progress sources units :=
  stand.imp fun _ _ ⟨stands, reached⟩ =>
    ⟨stands.grow continues fun late =>
      CompilationUnit.later_of_checked stood (reached ▸ late), reached⟩

theorem CompilationUnit.Stands.member_progress
    (stands : unit.Stands total rank config program source) : ∀ member ∈ unit.members.toList,
    member.progress = unit.progress := by
  intro member present
  obtain ⟨id, found⟩ := List.mem_iff_getElem?.mp present
  rw [MemberArena.toList, Array.getElem?_toList] at found
  exact stands.members id member found

/-- The shared parts and the units while they are declared. -/
structure Declares (total : Prop) (rank : ParamRef → Nat) (config : BufferConfig)
    (sources : List SourceUnit) (state : List CompilationUnit × Program) : Prop where
  sound : state.2.Sound
  bare : state.2.pool.Bare
  plain : state.2.pool.types = TypePool.types {}
  clean : unitErrors state.1 = 0
  units : StandAll total rank config state.2 .unresolved sources state.1

/-- A unit as it is declared stands. -/
theorem SourceUnit.declared_stands {position : Position} (first : position.member = 0)
    (params : (position.after (layoutAll position source.classes)).param ≤ program.pool.params.size)
    (symbols : (position.after (layoutAll position source.classes)).symbol = program.symbols.size)
    (wellFormed : total → source.WellFormed)
    (descends : total → ∀ decl there, Placed position source.classes decl there →
      ∀ member ∈ (decl.layout there).members, ∀ param ∈ member.typeParams,
        TypeScope.Descends (decl.outerScope there member ++ .ofParams member.typeParams) rank param)
    (config : BufferConfig) :
    { source.declared position with diagnostics := { config } }.Stands total rank config program
      source where
  count := by
    have size : (source.declared position).members.size =
        (layoutAll position source.classes).members.length := by
      simp [SourceUnit.declared, MemberArena.size]
    exact size.trans (length_layoutAll source.classes position)
  members id member found := (declared_member found).1
  arena sure := (wellFormed sure).arena
  inside sure id member found body written :=
    (wellFormed sure).bodies body ((declared_member found).2 body written)
  config := rfl
  faithful := DiagnosticBuffer.faithful_empty config
  counts := DiagnosticBuffer.counts_empty config
  laid _ := by
    have laid := declared_laid first params
    rw [symbols] at laid
    exact { laid with }
  recorded _ := by
    have recorded : (source.declared position).Recorded program.pool program.symbols.size :=
      declared_recorded _
    exact { recorded with }
  typed impossible := absurd rfl impossible
  mentions impossible := absurd rfl impossible
  descends sure _ id member found param present := by
    obtain ⟨decl, there, placed, laid, scope⟩ := declared_scope first found
    have descending := descends sure decl there placed member laid param present
    rw [← scope] at descending
    exact descending
  written _ := ⟨rfl, fun body written => declared_body written⟩
  subjects index group found := by simp [SourceUnit.declared, IdMap.get?] at found
  grouped impossible := absurd impossible (show ¬ (2 ≤ 0) by decide)
  covered impossible := absurd impossible (show ¬ (3 ≤ 0) by decide)

/-- One more unit is declared. -/
theorem Declares.add {state : List CompilationUnit × Program}
    (declares : Declares total rank config sources state) (wellFormed : total → source.WellFormed)
    (id : Nat) : ∃ later, Declares total later config (sources ++ [source])
      (state.1 ++ [{ (state.2.declareUnit id source).1 with diagnostics := { config } }],
        (state.2.declareUnit id source).2) := by
  obtain ⟨units, program⟩ := state
  have fresh : ∀ record ∈ program.symbols.classes, record.symbol < program.symbols.size :=
    fun record member => (declares.sound.symbols.records record member).symbol
  have fits := layoutAll_fits source.classes (program.position id)
  obtain ⟨within, sound⟩ := declares.sound.add fits
  obtain ⟨later, same, descends⟩ : ∃ later : ParamRef → Nat,
      (∀ param, param.raw < (program.position id).param → later param = rank param) ∧
      (total → ∀ decl there, Placed (program.position id) source.classes decl there →
        ∀ member ∈ (decl.layout there).members, ∀ param ∈ member.typeParams, TypeScope.Descends
          (decl.outerScope there member ++ .ofParams member.typeParams) later param) := by
    by_cases sure : total
    · obtain ⟨later, same, descends⟩ :=
        exists_rank_layout rank (program.position id) (wellFormed sure).grounded
      exact ⟨later, same, fun _ => descends⟩
    · exact ⟨rank, fun _ _ => rfl, fun impossible => absurd impossible sure⟩
  have continues : program.Continues False
      (program.add (layoutAll (program.position id) source.classes)) :=
    ⟨within, by simp [Program.add, SymbolTable.size], False.elim⟩
  rw [Program.declareUnit_eq fresh]
  refine ⟨later, sound, ?_, declares.plain, ?_, ?_⟩
  · intro param member
    rcases Array.mem_append.mp member with old | new
    · exact declares.bare param old
    · exact fits.params param (by simpa using new)
  · simp [declares.clean]
  · refine List.rel_append (declares.units.imp fun earlier unit facts => ?_) (.cons ⟨?_, rfl⟩ .nil)
    · have waiting : unit.progress ≠ .constantsFolded := by simp [facts.2]
      refine ⟨(facts.1.rerank waiting same).grow continues fun impossible => ?_, facts.2⟩
      rw [facts.2] at impossible
      exact absurd impossible (by decide)
    · exact SourceUnit.declared_stands rfl
        (by simp [Program.add, Position.after, Program.position])
        (by simp [Program.add, Position.after, Program.position, SymbolTable.size]) wellFormed
        descends config

theorem declares_all {entries : List (SourceUnit × Nat)} {state : List CompilationUnit × Program}
    (declares : Declares total rank config sources state)
    (wellFormed : total → ∀ entry ∈ entries, entry.1.WellFormed) :
    ∃ later, Declares total later config (sources ++ entries.map (·.1))
      (entries.foldl (fun (units, program) (source, index) =>
        let (unit, program) := program.declareUnit index source
        let unit := { unit with diagnostics := { config } }
        (units ++ [unit], program)) state) := by
  induction entries generalizing sources state rank with
  | nil => exact ⟨rank, by simpa using declares⟩
  | cons entry rest ih =>
    obtain ⟨middle, declared⟩ :=
      declares.add (fun sure => wellFormed sure entry List.mem_cons_self) entry.2
    obtain ⟨later, others⟩ := ih declared fun sure other member => wellFormed sure other
      (List.mem_cons_of_mem _ member)
    refine ⟨later, ?_⟩
    rw [List.append_assoc] at others
    exact others

/-! Phases. -/

theorem DiagnosticBuffer.errorCount_report_le {buffer : DiagnosticBuffer}
    (diagnostic : Diagnostic) : buffer.errorCount ≤ (buffer.report diagnostic).errorCount := by
  unfold DiagnosticBuffer.report
  dsimp only
  split
  · split
    · exact Nat.le_refl _
    · exact Nat.le_add_right _ _
  · exact errorCount_push_le

theorem DiagnosticBuffer.errorCount_reportAll_le {buffer : DiagnosticBuffer}
    (reports : List Diagnostic) : buffer.errorCount ≤ (buffer.reportAll reports).errorCount := by
  induction reports generalizing buffer with
  | nil => exact Nat.le_refl _
  | cons first rest ih => exact Nat.le_trans (errorCount_report_le first) ih

namespace PhaseState

/-- All units stand at one progress, and the errors in their buffers are counted. -/
structure Holds (total : Prop) (rank : ParamRef → Nat) (config : BufferConfig)
    (sources : List SourceUnit) (progress : Progress) (state : PhaseState) : Prop where
  sound : state.program.Sound
  ranked : total → state.program.pool.Ranked rank
  units : StandAll total rank config state.program progress sources state.units
  spent : state.budget.spent = unitErrors state.units % counterRange

variable {state : PhaseState} {stage : Stage} {earlier : List SourceUnit} {progress : Progress}

/-- A stage is run on one unit after the other, and the shared parts go on. -/
inductive Turns (stage : Stage) : Program → List CompilationUnit → List CompilationUnit →
    Program → Prop where
  | done (program : Program) : Turns stage program [] [] program
  | next {first middle last : Program} {unit finished : CompilationUnit}
      {waiting others : List CompilationUnit}
      (ran : first.runStage stage unit = .ok (middle, finished))
      (continues : first.Continues (stage ≠ .resolveTypes) middle)
      (rest : Turns stage middle waiting others last) :
      Turns stage first (unit :: waiting) (finished :: others) last

theorem Turns.continues {stage : Stage} {first last : Program}
    {waiting finished : List CompilationUnit} (turns : Turns stage first waiting finished last) :
    first.Continues (stage ≠ .resolveTypes) last := by
  induction turns with
  | done program => exact .refl program
  | next _ continues _ ih => exact continues.trans ih

/-- The units that a stage has still to work on, behind those it has worked on. -/
theorem runUnits_holds {waiting : List CompilationUnit} (sound : state.program.Sound)
    (ranked : total → state.program.pool.Ranked rank)
    (done : StandAll total rank config state.program stage.target earlier state.units)
    (ready : StandAll total rank config state.program stage.required sources waiting)
    (spent : state.budget.spent = (unitErrors state.units + unitErrors waiting) % counterRange) :
    Answers total (waiting.foldlM (runUnit stage) state) fun final =>
      final.Holds total rank config (earlier ++ sources) stage.target ∧
        final.budget.limit = state.budget.limit ∧ ∃ finished,
          final.units = state.units ++ finished ∧
          Turns stage state.program waiting finished final.program := by
  induction waiting generalizing state earlier sources with
  | nil =>
    cases ready
    exact Answers.ok ⟨⟨sound, ranked, by simpa using done, by simpa using spent⟩, rfl,
      [], by simp, .done _⟩
  | cons unit rest ih =>
    cases ready with
    | @cons source _ others _ first later =>
      rw [List.foldlM_cons]
      have staged : Answers total (runUnit stage state unit) fun next =>
          next.program.Sound ∧ (total → next.program.pool.Ranked rank) ∧
          state.program.Continues (stage ≠ .resolveTypes) next.program ∧
            ∃ finished : CompilationUnit,
            state.program.runStage stage unit = .ok (next.program, finished) ∧
            finished.Stands total rank config next.program source ∧
            finished.progress = stage.target ∧
            next.units = state.units ++ [finished] ∧ next.budget.limit = state.budget.limit ∧
            next.budget.spent = (unitErrors next.units + unitErrors rest) % counterRange := by
        unfold runUnit
        rw [if_neg (not_not.mpr first.2)]
        refine Answers.bind ((Program.runStage_stages sound ranked first.1 first.2).known.mono ?_)
        rintro ⟨program, finished⟩ ⟨ran, stages⟩
        refine Answers.ok ⟨stages.sound, stages.ranked, stages.continues, finished, ran,
          stages.stands, stages.progress, rfl, rfl, ?_⟩
        obtain ⟨reports, same⟩ := stages.reported
        have grown : unit.diagnostics.errorCount ≤ finished.diagnostics.errorCount := by
          rw [same]
          exact DiagnosticBuffer.errorCount_reportAll_le reports
        simp only [ErrorBudget.charge, spent, unitErrors_append, unitErrors_cons, Nat.mod_add_mod]
        congr 1
        simp [unitErrors]
        omega
      refine Answers.bind (staged.mono ?_)
      rintro next ⟨soundNext, rankedNext, continues, finished, ran, stands, reached, units,
        limit, charged⟩
      have doneNext : StandAll total rank config next.program stage.target (earlier ++ [source])
          next.units := by
        rw [units]
        exact List.rel_append (StandAll.grow done continues (.inr rfl))
          (.cons ⟨stands, reached⟩ .nil)
      refine (ih soundNext rankedNext doneNext (StandAll.grow later continues (.inl rfl))
        charged).mono ?_
      rintro final ⟨holds, same, others, units', turns⟩
      rw [List.append_assoc] at holds
      refine ⟨holds, same.trans limit, finished :: others, ?_, .next ran continues turns⟩
      rw [units', units, List.append_assoc, List.singleton_append]

/-- A stage that is started brings all units to its target. -/
theorem runPhase_holds (holds : state.Holds total rank config sources stage.required)
    (started : state.budget.limitReached = false) :
    Answers total (state.runPhase stage) fun final =>
      final.Holds total rank config sources stage.target ∧ final.budget.limit = state.budget.limit ∧
        Turns stage state.program state.units final.units final.program := by
  unfold runPhase
  rw [if_neg (by simp [started])]
  refine (@runUnits_holds total rank config sources { state with units := [] } stage
    [] state.units holds.sound holds.ranked .nil holds.units (by simpa using holds.spent)).mono ?_
  rintro final ⟨reached, limit, finished, units, turns⟩
  rw [List.nil_append] at units
  exact ⟨reached, limit, units ▸ turns⟩

/-- The stages that are started, one after the other, until the error limit is reached. -/
inductive Schedule : PhaseState → List Stage → List Stage → PhaseState → Prop where
  | done (state : PhaseState) : Schedule state [] [] state
  | stop {state : PhaseState} (stages : List Stage) (full : state.budget.limitReached = true) :
      Schedule state stages [] state
  | start {state next final : PhaseState} {stage : Stage} {stages started : List Stage}
      (free : state.budget.limitReached = false) (ran : state.runPhase stage = .ok next)
      (rest : Schedule next stages started final) :
      Schedule state (stage :: stages) (stage :: started) final

/-- Every stage of the list takes up where the one before it ends. -/
def Chained : Progress → List Stage → Prop
  | _, [] => True
  | progress, stage :: stages => stage.required = progress ∧ Chained stage.target stages

theorem runPhases_full (stages : List Stage) (full : state.budget.limitReached = true) :
    stages.foldlM runPhase state = .ok state := by
  induction stages with
  | nil => rfl
  | cons stage rest ih =>
    rw [List.foldlM_cons, runPhase, if_pos full]
    exact ih

theorem runPhases_holds {stages : List Stage} (chained : Chained progress stages)
    (holds : state.Holds total rank config sources progress) :
    Answers total (stages.foldlM runPhase state) fun final => ∃ started,
      state.Schedule stages started final ∧
      final.Holds total rank config sources ((started.map Stage.target).getLastD progress) ∧
      final.budget.limit = state.budget.limit ∧
      (started = stages ∨ final.budget.limitReached = true) := by
  induction stages generalizing state progress with
  | nil => exact Answers.ok ⟨[], .done state, holds, rfl, .inl rfl⟩
  | cons stage rest ih =>
    cases full : state.budget.limitReached with
    | true =>
      rw [runPhases_full _ full]
      exact Answers.ok ⟨[], .stop _ full, holds, rfl, .inr full⟩
    | false =>
      obtain ⟨rfl, chainedRest⟩ := chained
      rw [List.foldlM_cons]
      refine Answers.bind ?_
      have ran := runPhase_holds holds full
      refine ⟨fun next answered => ?_, ran.ends⟩
      obtain ⟨holdsNext, limit, _⟩ := ran.ensures next answered
      refine (ih chainedRest holdsNext).mono ?_
      rintro final ⟨started, schedule, holdsFinal, same, complete⟩
      rw [← List.getLastD_cons, ← List.map_cons] at holdsFinal
      exact ⟨stage :: started, .start full answered schedule, holdsFinal, same.trans limit,
        complete.imp_left (congrArg _)⟩

/-- Without errors the limit is not reached, so that every stage is started. -/
theorem Holds.not_limitReached {progress : Progress} {state : PhaseState}
    (holds : state.Holds total rank config sources progress) (clean : unitErrors state.units = 0) :
    state.budget.limitReached = false := by
  have spent : state.budget.spent = 0 := by rw [holds.spent, clean, Nat.zero_mod]
  simp only [ErrorBudget.limitReached, spent, decide_eq_false_iff_not]
  omega

end PhaseState

namespace Session

/-- The units as they are declared, before the first stage. -/
def opened (session : Session) : PhaseState where
  program := session.declareUnits.2
  units := session.declareUnits.1
  budget := session.budget

/-- The shared parts and the units after the last stage. -/
def closed (session : Session) : PhaseState where
  program := session.program
  units := session.units
  budget := session.budget

section
variable (config : SessionConfig) (wellFormed : total → ∀ source ∈ sources, source.WellFormed)
include wellFormed

theorem declareUnits_declares :
    ∃ rank, Declares total rank config.diagnostics sources (declareUnits { config, sources }) := by
  have empty : Declares total (fun _ => 0) config.diagnostics [] ([], ({} : Program)) :=
    ⟨⟨TypePool.valid_empty, by simp, by simp⟩, by simp [TypePool.Bare], rfl, rfl, .nil⟩
  have formed : total → ∀ entry ∈ sources.zipIdx, entry.1.WellFormed :=
    fun sure entry member => wellFormed sure entry.1 (List.fst_mem_of_mem_zipIdx member)
  obtain ⟨rank, declares⟩ := declares_all empty formed
  rw [List.zipIdx_map_fst, List.nil_append] at declares
  exact ⟨rank, declares⟩

theorem opened_holds :
    ∃ rank, (opened { config, sources }).Holds total rank config.diagnostics sources
      .unresolved := by
  obtain ⟨rank, declares⟩ := declareUnits_declares config wellFormed
  exact ⟨rank, declares.sound, fun _ => declares.bare.ranked declares.sound.pool, declares.units,
    by simp [opened, declares.clean]⟩

/-- Compiling starts stages until the limit is reached, and all units stand at the end. -/
theorem run_holds : Answers total (run { config, sources }) fun final => final.compiled = true ∧
    ∃ rank started, (opened { config, sources }).Schedule Stage.all started final.closed ∧
      final.closed.Holds total rank config.diagnostics sources
        ((started.map Stage.target).getLastD .unresolved) ∧
      (started = Stage.all ∨ final.budget.limitReached = true) := by
  obtain ⟨rank, holds⟩ := opened_holds config wellFormed
  have chained : PhaseState.Chained .unresolved Stage.all := ⟨rfl, rfl, rfl, rfl, trivial⟩
  refine Answers.bind ((PhaseState.runPhases_holds chained holds).mono ?_)
  rintro final ⟨started, schedule, stands, _, complete⟩
  exact Answers.ok ⟨rfl, rank, started, schedule, stands, complete⟩

end

/-- A session without errors starts all stages, and brings all units to the end of the last. -/
theorem schedule_of_clean {config : SessionConfig} {sources : List SourceUnit} {done : Session}
    (ran : compile { config, sources } = .ok (.ok done)) (clean : done.errorCount = 0) :
    (opened { config, sources }).Schedule Stage.all Stage.all done.closed ∧
      ∃ rank, done.closed.Holds False rank config.diagnostics sources .constantsFolded := by
  have finished : run { config, sources } = .ok done := Except.ok.inj ran
  obtain ⟨_, rank, started, schedule, holds, complete⟩ :=
    (@run_holds False sources config nofun).ensures done finished
  have all : started = Stage.all := by
    refine complete.resolve_right fun full => ?_
    rw [show done.budget.limitReached = false from holds.not_limitReached clean] at full
    cases full
  subst all
  exact ⟨schedule, rank, holds⟩

/-- A stage brings all units of a session from one progress to the next. -/
structure Phase (config : SessionConfig) (sources : List SourceUnit) (stage : Stage)
    (before after : PhaseState) : Prop where
  stands : ∃ rank, before.Holds False rank config.diagnostics sources stage.required
  turns : PhaseState.Turns stage before.program before.units after.units after.program

/-- Without errors there are four phases. -/
theorem phases_of_clean {config : SessionConfig} {sources : List SourceUnit} {done : Session}
    (ran : compile { config, sources } = .ok (.ok done)) (clean : done.errorCount = 0) :
    ∃ typed resolved checked,
      Phase config sources .resolveTypes (opened { config, sources }) typed ∧
      Phase config sources .resolve typed resolved ∧ Phase config sources .check resolved checked ∧
      Phase config sources .foldConstants checked done.closed := by
  obtain ⟨rank, opens⟩ := @opened_holds False sources config nofun
  obtain ⟨schedule, _⟩ := schedule_of_clean ran clean
  cases schedule with | start free earlier schedule =>
  cases schedule with | start freeNext later schedule =>
  cases schedule with | start freeLater three schedule =>
  cases schedule with | @start _ folded _ _ _ _ freeLast four schedule =>
  obtain rfl : folded = done.closed := by cases schedule <;> rfl
  obtain ⟨first, _, typing⟩ := (PhaseState.runPhase_holds opens free).ensures _ earlier
  obtain ⟨second, _, resolving⟩ := (PhaseState.runPhase_holds first freeNext).ensures _ later
  obtain ⟨third, _, checking⟩ := (PhaseState.runPhase_holds second freeLater).ensures _ three
  obtain ⟨_, _, folding⟩ := (PhaseState.runPhase_holds third freeLast).ensures _ four
  exact ⟨_, _, _, ⟨⟨rank, opens⟩, typing⟩, ⟨⟨rank, first⟩, resolving⟩, ⟨⟨rank, second⟩, checking⟩,
    ⟨⟨rank, third⟩, folding⟩⟩

/-- Well-formed units are compiled to the end, whatever is wrong with their names and types, and all
members are where the last stage that was started brings them. -/
theorem compile_completes (config : SessionConfig) (sources : List SourceUnit)
    (wellFormed : ∀ source ∈ sources, source.WellFormed) :
    ∃ final started, compile { config, sources } = .ok (.ok final) ∧
      (opened { config, sources }).Schedule Stage.all started final.closed ∧
      List.Forall₂ (fun source unit => unit.members.size = source.memberCount ∧
        ∀ member ∈ unit.members.toList,
          member.progress = (started.map Stage.target).getLastD .unresolved) sources
            final.units := by
  have answers := run_holds config fun _ : True => wellFormed
  obtain ⟨final, ran⟩ := answers.ends trivial
  obtain ⟨_, rank, started, schedule, holds, _⟩ := answers.ensures final ran
  refine ⟨final, started, congrArg Except.ok ran, schedule, holds.units.imp ?_⟩
  rintro source unit ⟨stands, reached⟩
  exact ⟨stands.count, fun member present => (stands.member_progress member present).trans reached⟩

/-- What is computed from the end of a run holds of it. -/
theorem exists_run (session : Session) (Test : Session → Prop) [DecidablePred Test]
    (passed : session.run.toOption.any (fun done => decide (Test done)) = true) :
    ∃ done, session.run = .ok done ∧ Test done :=
  Except.exists_ok session.run Test passed

/-- A class whose parameter has an unknown bound, with a field of an unknown type that starts as an
unknown name. -/
def strayUnit : SourceUnit where
  name := "stray"
  classes := [{
    name := "Box", span := ⟨0, 3⟩
    typeParams := [{ name := "T", bounds := [.named "Nowhere" [] ⟨4, 7⟩], span := ⟨8, 11⟩ }]
    fields := [
      { name := "value", type := .named "Nothing" [] ⟨12, 15⟩, init := some (.node 0)
        span := ⟨16, 19⟩ }] }]
  arena := { exprs := #[⟨.ident "nobody", ⟨20, 23⟩⟩] }

theorem strayUnit_wellFormed : strayUnit.WellFormed where
  arena := Arena.Ordered.wellFormed (by constructor <;> decide)
  bodies body member :=
    ⟨0, by decide, by simpa [strayUnit, SourceUnit.bodies, ClassDecl.bodies] using member⟩
  grounded decl member := by
    rw [List.mem_singleton.mp member]
    exact ClassDecl.grounded_of_free (by decide)

theorem compile_completes_stray : ∃ final started,
    compile { config := { errorLimit := 1 }, sources := [strayUnit] } = .ok (.ok final) ∧
      (opened { config := { errorLimit := 1 }, sources := [strayUnit] }).Schedule Stage.all started
        final.closed ∧
      List.Forall₂ (fun source unit => unit.members.size = source.memberCount ∧
        ∀ member ∈ unit.members.toList,
          member.progress = (started.map Stage.target).getLastD .unresolved)
            [strayUnit] final.units :=
  compile_completes { errorLimit := 1 } [strayUnit] (by simpa using strayUnit_wellFormed)

/-- A class with a field that starts as a match on a constant: its sum is folded. -/
def pickUnit : SourceUnit where
  name := "pick"
  classes := [{
    name := "Pick", span := ⟨0, 4⟩
    fields := [
      { name := "value", type := .named "int" [] ⟨5, 8⟩, init := some (.node 4)
        span := ⟨9, 14⟩ }] }]
  arena :=
    { exprs := #[⟨.literal (.int 1), ⟨20, 21⟩⟩, ⟨.binary .add (.node 0) (.node 0), ⟨20, 25⟩⟩,
        ⟨.ident "value", ⟨30, 35⟩⟩, ⟨.literal (.int 0), ⟨40, 41⟩⟩,
        ⟨.matchOn (.node 1) [⟨0, .node 2, ⟨28, 35⟩⟩, ⟨1, .node 3, ⟨36, 41⟩⟩], ⟨20, 42⟩⟩]
      patterns := #[⟨.constant (.int 2), ⟨28, 29⟩⟩, ⟨.wildcard, ⟨36, 37⟩⟩] }

theorem pickUnit_wellFormed : pickUnit.WellFormed where
  arena := Arena.Ordered.wellFormed (by constructor <;> decide)
  bodies body member :=
    ⟨4, by decide, by simpa [pickUnit, SourceUnit.bodies, ClassDecl.bodies] using member⟩
  grounded decl member := by
    rw [List.mem_singleton.mp member]
    exact ClassDecl.grounded_of_free (by decide)

end Session
end ClassLang
