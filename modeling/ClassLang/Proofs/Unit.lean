import ClassLang.Proofs.Pipeline
import ClassLang.Proofs.Stage.Mentions

/-! What holds of a unit between two stages, and how a stage on a unit brings it from one to the
next. -/

namespace ClassLang

namespace DiagnosticBuffer

/-- The number of errors is right, and warnings that count as errors are kept as errors. -/
structure Faithful (buffer : DiagnosticBuffer) : Prop where
  counted : buffer.errorCount = ClassLang.errorCount buffer.diagnostics
  promoted : buffer.config.warningsAsErrors = true →
    ∀ diagnostic ∈ buffer.diagnostics, diagnostic.severity ≠ .warning

variable {buffer : DiagnosticBuffer}

theorem faithful_empty (config : BufferConfig) : Faithful { config } := ⟨rfl, by simp⟩

theorem promote_severity {config : BufferConfig} (strict : config.warningsAsErrors = true)
    (diagnostic : Diagnostic) : (promote config diagnostic).severity ≠ .warning := by
  unfold promote
  split
  · simp
  · rename_i mild
    simpa [strict] using mild

theorem Faithful.push {diagnostic : Diagnostic} (faithful : buffer.Faithful)
    (strict : buffer.config.warningsAsErrors = true → diagnostic.severity ≠ .warning) :
    (buffer.push diagnostic).Faithful := by
  refine ⟨?_, fun asked other member => ?_⟩
  · simp only [DiagnosticBuffer.push, ClassLang.errorCount, List.countP_append, faithful.counted]
    simp [List.countP_cons]
  · rcases List.mem_append.mp member with old | new
    · exact faithful.promoted asked other old
    · exact List.mem_singleton.mp new ▸ strict asked

theorem report_config (diagnostic : Diagnostic) :
    (buffer.report diagnostic).config = buffer.config := by
  unfold report
  dsimp only
  split
  · split <;> rfl
  · rfl

theorem Faithful.report (faithful : buffer.Faithful) (diagnostic : Diagnostic) :
    (buffer.report diagnostic).Faithful := by
  unfold DiagnosticBuffer.report
  dsimp only
  split
  · split
    · exact faithful
    · exact Faithful.push ⟨faithful.counted, faithful.promoted⟩ fun strict =>
        promote_severity strict diagnostic
  · exact faithful.push fun strict => promote_severity strict diagnostic

theorem Faithful.reportAll (faithful : buffer.Faithful) (reports : List Diagnostic) :
    (buffer.reportAll reports).Faithful := by
  induction reports generalizing buffer with
  | nil => exact faithful
  | cons first rest ih => exact ih (faithful.report first)

theorem reportAll_config (reports : List Diagnostic) :
    (buffer.reportAll reports).config = buffer.config := by
  induction reports generalizing buffer with
  | nil => rfl
  | cons first rest ih => exact ih.trans (report_config first)

end DiagnosticBuffer

theorem Workspace.Reports.standard {before after : Workspace} (reported : before.Reports after)
    (none : before.reports = []) : ∀ report ∈ after.reports, report.Standard := by
  obtain ⟨added, same, standard⟩ := reported
  rw [same, none]
  exact standard

/-- The shared parts grow; once signatures are settled, declarations stay as they are. -/
structure Program.Continues (settled : Prop) (before after : Program) : Prop where
  pool : before.pool.Within after.pool
  size : before.symbols.size ≤ after.symbols.size
  symbols : settled → after.symbols = before.symbols

theorem Program.Continues.refl {settled : Prop} (program : Program) :
    program.Continues settled program :=
  ⟨.refl _, Nat.le_refl _, fun _ => rfl⟩

theorem Program.Continues.trans {settled : Prop} {first second third : Program}
    (earlier : first.Continues settled second) (later : second.Continues settled third) :
    first.Continues settled third :=
  ⟨earlier.pool.trans later.pool, Nat.le_trans earlier.size later.size, fun sure =>
    (later.symbols sure).trans (earlier.symbols sure)⟩

/-- The number of classes, fields and methods. -/
def SourceUnit.memberCount (source : SourceUnit) : Nat :=
  (source.classes.map fun decl => 1 + decl.fields.length + decl.methods.length).sum

namespace CompilationUnit

/-- What holds of a unit between two stages. -/
structure Stands (total : Prop) (rank : ParamRef → Nat) (config : BufferConfig) (program : Program)
    (source : SourceUnit) (unit : CompilationUnit) : Prop where
  count : unit.members.size = source.memberCount
  members : ∀ (id : Nat) (member : Member), unit.members.members[id]? = some member →
    member.progress = unit.progress
  arena : total → unit.arena.WellFormed
  inside : total → ∀ (id : Nat) (member : Member), unit.members.members[id]? = some member →
    member.BodyIn unit.arena
  config : unit.diagnostics.config = config
  faithful : unit.diagnostics.Faithful
  counts : unit.diagnostics.Counts
  /-- Before constants are folded, the unit is as the stages need it. -/
  laid : unit.progress ≠ .constantsFolded → unit.Laid program.pool program.symbols.size
  recorded : unit.progress ≠ .constantsFolded → unit.Recorded program.pool program.symbols.size
  typed : unit.progress ≠ .unresolved → unit.progress ≠ .constantsFolded → unit.Typed program.pool
  /-- Once signatures are resolved, what is recorded is in the pool. -/
  mentions : unit.progress ≠ .unresolved → ∀ type, unit.Mentions type → program.pool.Has type
  descends : total → unit.progress = .unresolved → ∀ (id : Nat) (member : Member),
    unit.members.members[id]? = some member → ∀ param ∈ member.typeParams,
      (unit.scopeOf member).Descends rank param
  written : unit.progress ≠ .constantsFolded → unit.arena = source.arena ∧
    ∀ body ∈ source.bodies, ∃ (id : Nat) (member : Member),
      unit.members.members[id]? = some member ∧ member.body = some body
  /-- Matches have groups once bodies are resolved, and without errors they are covered once they
  are checked. -/
  subjects : ∀ (index : Nat) (group : MatchGroup), unit.matchGroups.get? index = some group →
    program.pool.Has group.subject
  grouped : Progress.resolved.rank ≤ unit.progress.rank → ∀ body ∈ source.bodies, ∀ index,
    source.arena.Contains body index → source.arena.IsMatch index →
      (unit.matchGroups.get? index).isSome
  covered : Progress.checked.rank ≤ unit.progress.rank → unit.diagnostics.errorCount = 0 →
    ∀ body ∈ source.bodies, ∀ index, source.arena.Contains body index →
      source.arena.IsMatch index → program.Covers source.arena unit.matchGroups index

variable {total settled : Prop} {rank : ParamRef → Nat} {config : BufferConfig}
  {before after program : Program}
  {source : SourceUnit} {unit : CompilationUnit}

theorem Stands.grow (stands : unit.Stands total rank config before source)
    (continues : before.Continues settled after)
    (judged : Progress.checked.rank ≤ unit.progress.rank → settled) :
    unit.Stands total rank config after source :=
  { stands with
    laid := fun open_ => (stands.laid open_).grow continues.pool continues.size
    recorded := fun open_ =>
      (stands.recorded open_).grow continues.pool continues.size
    typed := fun resolved open_ => (stands.typed resolved open_).grow continues.pool
    mentions := fun resolved type mentioned =>
      continues.pool.has (stands.mentions resolved type mentioned)
    subjects := fun index group found => continues.pool.has (stands.subjects index group found)
    covered := fun checked clean body member index contained match_ =>
      (stands.covered checked clean body member index contained match_).grow continues.pool.types
        (continues.symbols (judged checked)) fun group found => stands.subjects index group found }

/-- A unit that waits for a stage is not folded. -/
theorem open_of_ready {stage : Stage} (ready : unit.progress = stage.required) :
    unit.progress ≠ .constantsFolded := by
  rw [ready]
  cases stage <;> decide

/-- Only the first stage waits for units without types. -/
theorem past_of_ready {stage : Stage} (ready : unit.progress = stage.required)
    (later : stage ≠ .resolveTypes) : unit.progress ≠ .unresolved := by
  rw [ready]
  cases stage with
  | resolveTypes => exact absurd rfl later
  | resolve | check | foldConstants => decide

/-- The first stage meets no unit whose bodies are resolved. -/
theorem later_of_resolved {stage : Stage} {progress : Progress}
    (stood : progress = stage.required ∨ progress = stage.target)
    (late : Progress.resolved.rank ≤ progress.rank) : stage ≠ .resolveTypes := by
  rintro rfl
  rcases stood with rfl | rfl <;> exact absurd late (by decide)

theorem later_of_checked {stage : Stage} {progress : Progress}
    (stood : progress = stage.required ∨ progress = stage.target)
    (late : Progress.checked.rank ≤ progress.rank) : stage ≠ .resolveTypes :=
  later_of_resolved stood (Nat.le_trans (by decide) late)

theorem Stands.sound (stands : unit.Stands total rank config program source) (sound : program.Sound)
    (open_ : unit.progress ≠ .constantsFolded) :
    Workspace.Sound { toProgram := program, unit } :=
  ⟨sound, stands.laid open_, stands.recorded open_⟩

theorem Stands.waiting {stage : Stage} (stands : unit.Stands total rank config program source)
    (ready : unit.progress = stage.required) : unit.members.Advanced stage 0 := by
  intro id member found
  rw [stands.members id member found, ready, if_neg (Nat.not_lt_zero id)]

theorem Stands.ready (stands : unit.Stands total rank config program source)
    (ranked : total → program.pool.Ranked rank) :
    Workspace.Ready total { toProgram := program, unit } :=
  ⟨stands.arena, fun sure => ⟨rank, ranked sure⟩⟩

/-- The unit after a stage: the reports go to its buffer. -/
def close (unit : CompilationUnit) (stage : Stage) (reports : List Diagnostic) : CompilationUnit :=
  { unit with diagnostics := unit.diagnostics.reportAll reports, progress := stage.target }

theorem Mentions.of_close {stage : Stage} {reports : List Diagnostic} {type : TypeRef}
    (mentions : (unit.close stage reports).Mentions type) : unit.Mentions type := by
  cases mentions with
  | member found listed => exact .member found listed
  | expr found => exact .expr found
  | subject found => exact .subject found

theorem close_members {stage : Stage} {reports : List Diagnostic}
    (advanced : unit.members.Advanced stage unit.members.size) (id : Nat) (member : Member)
    (found : (unit.close stage reports).members.members[id]? = some member) :
    member.progress = (unit.close stage reports).progress := by
  have inside : id < unit.members.size := (Array.getElem?_eq_some_iff.mp found).1
  rw [advanced id member found, if_pos inside]
  rfl

/-- A unit whose members have followed, before constants are folded. -/
theorem Stands.evolve {stage : Stage} {reports : List Diagnostic} {later : CompilationUnit}
    (stands : unit.Stands total rank config before source)
    (open_ : unit.progress ≠ .constantsFolded) (evolved : unit.Evolves later)
    (sound : Workspace.Sound { toProgram := after, unit := later })
    (advanced : later.members.Advanced stage unit.members.size) (typed : later.Typed after.pool)
    (standard : ∀ report ∈ reports, report.Standard) (past : stage.target ≠ .unresolved)
    (grouped : Progress.resolved.rank ≤ stage.target.rank → ∀ body ∈ source.bodies,
      later.HasGroups body)
    (covered : Progress.checked.rank ≤ stage.target.rank →
      (∀ report ∈ reports, report.isError = false) → ∀ body ∈ source.bodies, ∀ index,
        later.arena.Contains body index → later.arena.IsMatch index →
        after.Covers later.arena later.matchGroups index) :
    (later.close stage reports).Stands total rank config after source := by
  have kept := DiagnosticBuffer.reportAll_counts (evolved.diagnostics ▸ stands.counts) standard
  obtain ⟨sameArena, written⟩ := stands.written open_
  have arena : later.arena = source.arena := evolved.arena.trans sameArena
  rw [← evolved.size] at advanced
  constructor
  case count => exact evolved.size.trans stands.count
  case members => exact close_members advanced
  case arena => exact fun sure => evolved.arena ▸ stands.arena sure
  case inside =>
    intro sure id member found
    obtain ⟨original, started, follows⟩ := evolved.lookup found
    intro body hasBody
    rw [follows.body] at hasBody
    obtain ⟨index, inside, same⟩ := stands.inside sure id original started body hasBody
    refine ⟨index, ?_, same⟩
    change index < later.arena.size
    rw [evolved.arena]
    exact inside
  case config =>
    exact (DiagnosticBuffer.reportAll_config reports).trans (evolved.diagnostics ▸ stands.config)
  case faithful => exact (evolved.diagnostics ▸ stands.faithful).reportAll reports
  case counts => exact kept.1
  case laid => exact fun _ => ⟨sound.laid.size, sound.laid.symbols, sound.laid.owners,
    sound.laid.members, sound.laid.params⟩
  case recorded => exact fun _ => { sound.recorded with }
  case typed => exact fun _ _ => typed
  case mentions => exact fun _ type mentioned => mentioned.of_close.has typed sound.recorded
  case descends => exact fun _ impossible => absurd impossible past
  case written =>
    refine fun _ => ⟨arena, fun body member => ?_⟩
    obtain ⟨id, original, found, hasBody⟩ := written body member
    obtain ⟨replaced, present, follows⟩ := evolved.members id original found
    exact ⟨id, replaced, present, follows.body.trans hasBody⟩
  case subjects => exact fun index group found => (sound.recorded.groups index group found).subject
  case grouped =>
    intro reached body member index contained match_
    exact grouped reached body member index (arena ▸ contained) (arena ▸ match_)
  case covered =>
    intro reached clean body member index contained match_
    have mild : ∀ report ∈ reports, report.isError = false := fun report present =>
      Bool.eq_false_iff.mpr fun severe =>
        Nat.ne_of_gt (kept.2.2 ⟨report, present, severe⟩) clean
    rw [← arena] at contained match_ ⊢
    exact covered reached mild body member index contained match_

end CompilationUnit

namespace Program
open CompilationUnit

variable {total : Prop} {rank : ParamRef → Nat} {config : BufferConfig} {program : Program}
  {source : SourceUnit} {unit : CompilationUnit} {stage : Stage}

/-- A stage that returns has run on the members, and its reports are in the buffer. -/
theorem runStage_eq_ok {next : Program} {done : CompilationUnit}
    (ran : program.runStage stage unit = .ok (next, done)) : ∃ work : Workspace,
    (unit.members.ids.forM (StageM.runMember stage)).run { toProgram := program, unit } =
      .ok ((), work) ∧ next = work.toProgram ∧ done = work.unit.close stage work.reports := by
  obtain ⟨⟨shared, closing, reports⟩, inner, closed⟩ := Except.bind_eq_ok ran
  obtain ⟨⟨_, work⟩, worked, split⟩ := Except.bind_eq_ok inner
  cases split
  cases closed
  exact ⟨work, worked, rfl, rfl⟩

/-- What a run over the members brings a unit. -/
theorem runStage_of_members {post : Workspace → Prop}
    (runs : Runs total (unit.members.ids.forM (StageM.runMember stage))
      { toProgram := program, unit }
      fun _ after => post after) :
    Answers total (program.runStage stage unit) fun result => ∃ after : Workspace, post after ∧
      result = (after.toProgram, after.unit.close stage after.reports) := by
  refine Answers.bind (Answers.bind (runs.answers.mono ?_))
  rintro ⟨_, after⟩ holds
  exact Answers.ok (Answers.ok ⟨after, holds, rfl⟩)

/-- A stage on a unit. -/
structure Stages (total : Prop) (rank : ParamRef → Nat) (config : BufferConfig) (program : Program)
    (source : SourceUnit) (unit : CompilationUnit) (stage : Stage)
    (result : Program × CompilationUnit) : Prop where
  sound : result.1.Sound
  ranked : total → result.1.pool.Ranked rank
  continues : program.Continues (stage ≠ .resolveTypes) result.1
  stands : result.2.Stands total rank config result.1 source
  progress : result.2.progress = stage.target
  reported : ∃ reports, result.2.diagnostics = unit.diagnostics.reportAll reports

section
variable (sound : program.Sound) (ranked : total → program.pool.Ranked rank)
  (stands : unit.Stands total rank config program source)
include sound ranked stands

theorem resolveTypes_stages (ready : unit.progress = Stage.resolveTypes.required) :
    Answers total (program.runStage .resolveTypes unit)
      (program.Stages total rank config source unit .resolveTypes) := by
  have open_ := open_of_ready ready
  refine (runStage_of_members (StageM.resolveTypes_members (stands.sound sound open_)
    (stands.waiting ready) (fun sure => stands.descends sure ready) ranked)).mono ?_
  rintro _ ⟨after, ⟨led, soundAfter, advanced, rankedAfter, typed, -⟩, rfl⟩
  have stood := stands.evolve open_ led.unit
    ⟨soundAfter.program, soundAfter.laid, soundAfter.recorded⟩ advanced typed
    (led.reports.standard rfl) (by simp [Stage.target]) (by simp [Progress.rank, Stage.target])
    (by simp [Progress.rank, Stage.target])
  exact ⟨soundAfter.program, rankedAfter,
    ⟨led.pool, Nat.le_of_eq led.symbols.symm, by simp⟩, stood, rfl,
    after.reports, congrArg (·.reportAll after.reports) led.unit.diagnostics⟩

omit stands in
/-- The shared parts after a stage that publishes nothing. -/
theorem stages_of_leads {after : Workspace}
    (led : Workspace.Leads Evolves { toProgram := program, unit } after) (soundAfter : after.Sound)
    (stands : (after.unit.close stage after.reports).Stands total rank config
      after.toProgram source) :
    program.Stages total rank config source unit stage
      (after.toProgram, after.unit.close stage after.reports) := by
  have growth := led.growth soundAfter
  exact ⟨soundAfter.program, fun sure => (ranked sure).grow sound.pool growth,
    ⟨growth.within, Nat.le_of_eq (congrArg SymbolTable.size led.symbols.symm), fun _ =>
      led.symbols⟩, stands, rfl,
    after.reports, congrArg (·.reportAll after.reports) led.unit.diagnostics⟩

theorem resolve_stages (ready : unit.progress = Stage.resolve.required) :
    Answers total (program.runStage .resolve unit)
      (program.Stages total rank config source unit .resolve) := by
  have open_ := open_of_ready ready
  have past := past_of_ready ready nofun
  refine (runStage_of_members (StageM.resolve_members (stands.sound sound open_)
    (stands.typed past open_) (stands.ready ranked) stands.inside (stands.waiting ready))).mono ?_
  rintro _ ⟨after, ⟨led, soundAfter, advanced, typed, groups⟩, rfl⟩
  refine stages_of_leads sound ranked led soundAfter ?_
  refine stands.evolve open_ led.unit ⟨soundAfter.program, soundAfter.laid, soundAfter.recorded⟩
    advanced typed (led.reports.standard rfl) (by simp [Stage.target]) (fun _ body member => ?_)
    (by simp [Progress.rank, Stage.target])
  obtain ⟨id, original, found, hasBody⟩ := (stands.written open_).2 body member
  exact groups id original found body hasBody

theorem check_stages (ready : unit.progress = Stage.check.required) :
    Answers total (program.runStage .check unit)
      (program.Stages total rank config source unit .check) := by
  have open_ := open_of_ready ready
  have past := past_of_ready ready nofun
  refine (runStage_of_members (StageM.check_members (stands.sound sound open_)
    (stands.typed past open_) (stands.ready ranked) stands.inside (stands.waiting ready))).mono ?_
  rintro _ ⟨after, ⟨led, soundAfter, advanced, typed, judged⟩, rfl⟩
  refine stages_of_leads sound ranked led soundAfter ?_
  obtain ⟨sameArena, written⟩ := stands.written open_
  refine stands.evolve open_ led.unit ⟨soundAfter.program, soundAfter.laid, soundAfter.recorded⟩
    advanced typed (led.reports.standard rfl) (by simp [Stage.target]) (fun _ body member => ?_)
    (fun _ mild body member index contained match_ => ?_)
  · have groups : unit.HasGroups body := by
      intro index contained match_
      rw [sameArena] at contained match_
      exact stands.grouped (by simp [ready, Stage.required, Progress.rank]) body member index
        contained match_
    exact groups.keep led.unit
  · obtain ⟨id, original, found, hasBody⟩ := written body member
    rcases judged id original found body hasBody index contained match_ with
      ⟨report, present, severe⟩ | covers
    · rw [mild report present] at severe
      cases severe
    · exact covers

theorem foldConstants_stages (ready : unit.progress = Stage.foldConstants.required) :
    Answers total (program.runStage .foldConstants unit)
      (program.Stages total rank config source unit .foldConstants) := by
  have folding := @StageM.foldConstants_members total { toProgram := program, unit }
    (stands.waiting ready) stands.arena stands.inside
  have past := past_of_ready ready nofun
  have confined : Ensures (unit.members.ids.forM (StageM.runMember .foldConstants))
      { toProgram := program, unit } fun _ after => StageM.Confines program.pool.Has after :=
    ((Keeping (StageM.Confines program.pool.Has)).forM
      (fun id (_ : id ∈ unit.members.ids) => StageM.runMember_confines id)
      { toProgram := program, unit } (stands.mentions past)).mono fun _ _ facts => facts.1
  have folded := folding.and confined
  refine (runStage_of_members folded).mono ?_
  rintro _ ⟨_, ⟨⟨arena, exprTypes, members, rfl, advanced, size, formed⟩, mentions⟩, rfl⟩
  have checked : Progress.checked.rank ≤ unit.progress.rank := by simp [ready, Stage.required]
  refine ⟨sound, ranked, ⟨.refl _, Nat.le_refl _, fun _ => rfl⟩, ?_, rfl, [], rfl⟩
  have done : ∀ {holds : Prop}, Progress.constantsFolded ≠ .constantsFolded → holds :=
    fun impossible => absurd rfl impossible
  exact
    { count := size.trans stands.count
      members := close_members (by rw [size]; exact advanced)
      arena := fun sure => (formed sure).1
      inside := fun sure => (formed sure).2
      config := stands.config
      faithful := stands.faithful
      counts := stands.counts
      laid := done
      recorded := done
      typed := fun _ => done
      mentions := fun _ type mentioned => mentions type mentioned.of_close
      descends := fun _ impossible => nomatch impossible
      written := done
      subjects := stands.subjects
      grouped := fun _ => stands.grouped (by simp [ready, Stage.required, Progress.rank])
      covered := fun _ => stands.covered checked }

/-- Every stage brings a unit that is ready for it to its target. -/
theorem runStage_stages (ready : unit.progress = stage.required) :
    Answers total (program.runStage stage unit)
      (program.Stages total rank config source unit stage) := by
  cases stage with
  | resolveTypes => exact resolveTypes_stages sound ranked stands ready
  | resolve => exact resolve_stages sound ranked stands ready
  | check => exact check_stages sound ranked stands ready
  | foldConstants => exact foldConstants_stages sound ranked stands ready

end
end Program
end ClassLang
