import ClassLang.Proofs.Acceptance
import ClassLang.Proofs.Emission
import ClassLang.Proofs.StageOrder

/-! The accounts of a whole session: in every state it passes through, applied types have as many
arguments as their classes have parameters, and types stand for names that were not found only
once a unit keeps an error. -/

namespace ClassLang

theorem TypePool.Only.mono {before after : TypeNode → Prop} {pool : TypePool}
    (only : pool.Only before) (weaken : ∀ node, before node → after node) : pool.Only after :=
  fun index node found => weaken node (only index node found)

/-- A unit at work, with the reports that its buffer has still to receive. -/
abbrev OpenUnit := CompilationUnit × List Diagnostic

namespace OpenUnit

/-- The buffer with all that is reported so far. -/
def buffer (entry : OpenUnit) : DiagnosticBuffer := entry.1.diagnostics.reportAll entry.2

/-- An error is kept or reported. -/
def Errs (entry : OpenUnit) : Prop :=
  0 < entry.1.diagnostics.errorCount ∨ ∃ report ∈ entry.2, report.isError = true

/-- The buffer counts its errors, and every report is as severe as its code. -/
structure Sound (entry : OpenUnit) : Prop where
  counts : entry.1.diagnostics.Counts
  faithful : entry.1.diagnostics.Faithful
  standard : ∀ report ∈ entry.2, report.Standard

variable {entry : OpenUnit}

/-- An error that is kept or reported is in the buffer once that has received the reports. -/
theorem Sound.errs (sound : entry.Sound) (errs : entry.Errs) :
    ∃ diagnostic ∈ entry.buffer.diagnostics, diagnostic.severity = .error := by
  obtain ⟨-, grown, reported⟩ := DiagnosticBuffer.reportAll_counts sound.counts sound.standard
  apply (sound.faithful.reportAll entry.2).errorCount_pos_iff.mp
  rcases errs with kept | fresh
  · exact Nat.lt_of_lt_of_le kept grown
  · exact reported fresh

theorem Sound.close (sound : entry.Sound) (stage : Stage) :
    OpenUnit.Sound (entry.1.close stage entry.2, []) :=
  ⟨(DiagnosticBuffer.reportAll_counts sound.counts sound.standard).1,
    sound.faithful.reportAll entry.2, by simp⟩

theorem Sound.errs_close (sound : entry.Sound) (errs : entry.Errs) (stage : Stage) :
    OpenUnit.Errs (entry.1.close stage entry.2, []) := by
  obtain ⟨-, grown, reported⟩ := DiagnosticBuffer.reportAll_counts sound.counts sound.standard
  rcases errs with kept | fresh
  · exact .inl (Nat.lt_of_lt_of_le kept grown)
  · exact .inl (reported fresh)

end OpenUnit

/-- What all elements satisfy, when one of them is replaced. -/
theorem forall_mem_replace {α : Type} {holds : α → Prop} {earlier later : List α} {old new : α}
    (all : ∀ element ∈ earlier ++ old :: later, holds element) (own : holds new) :
    ∀ element ∈ earlier ++ new :: later, holds element := by
  simp only [List.forall_mem_append, List.forall_mem_cons] at all ⊢
  exact ⟨all.1, own, all.2.2⟩

/-- What some element satisfies, when one of them is replaced. -/
theorem exists_mem_replace {α : Type} {holds : α → Prop} {earlier later : List α} {old new : α}
    (some_ : ∃ element ∈ earlier ++ old :: later, holds element) (own : holds old → holds new) :
    ∃ element ∈ earlier ++ new :: later, holds element := by
  obtain ⟨element, member, promised⟩ := some_
  rcases List.mem_append.mp member with before | rest
  · exact ⟨element, List.mem_append_left _ before, promised⟩
  · rcases List.mem_cons.mp rest with rfl | behind
    · exact ⟨new, List.mem_append_right _ List.mem_cons_self, own promised⟩
    · exact ⟨element, List.mem_append_right _ (List.mem_cons_of_mem _ behind), promised⟩

/-- The classes have the numbers of parameters they were declared with, buffers are sound, and all
types fit. -/
structure Program.Accounted (arity : Name → Option Nat) (program : Program)
    (units : List OpenUnit) : Prop where
  declared : program.symbols.arity? = arity
  sound : ∀ entry ∈ units, entry.Sound
  entries : program.pool.Only (TypeNode.Fits arity (∃ entry ∈ units, entry.Errs))

namespace Program.Accounted

variable {arity : Name → Option Nat} {program : Program} {earlier later : List OpenUnit}
  {unit : CompilationUnit} {reports : List Diagnostic}

/-- A stage on a member of one unit keeps the accounts of all. -/
theorem member {stage : Stage} {id : Nat} {work : Workspace}
    (accounted : program.Accounted arity (earlier ++ (unit, reports) :: later))
    (ran : (StageM.runMember stage id).run { toProgram := program, unit, reports } =
      .ok ((), work)) :
    work.toProgram.Accounted arity (earlier ++ (work.unit, work.reports) :: later) := by
  have own : OpenUnit.Sound (unit, reports) := accounted.sound _ (by simp)
  -- The stage may drop no error of the other units, nor one that the buffer of its own unit has.
  let elsewhere : OpenUnit := (unit, [])
  let ledger : Ledger :=
    { arity, buffer := unit.diagnostics, erred := ∃ entry ∈ earlier ++ elsewhere :: later,
      entry.Errs }
  have start : Workspace.Accounted ledger { toProgram := program, unit, reports } := by
    refine ⟨accounted.declared, rfl, own.standard, accounted.entries.mono fun node fits =>
      fits.mono ?_⟩
    intro answers
    by_cases fresh : ∃ report ∈ reports, report.isError = true
    · exact .inr fresh
    · exact .inl (exists_mem_replace answers fun errs => .inl (errs.resolve_right fresh))
  have final := (StageM.runMember_spares ran).accounts ledger start
  constructor
  case declared => exact final.arity
  case sound =>
    exact forall_mem_replace accounted.sound
      ⟨final.buffer ▸ own.counts, final.buffer ▸ own.faithful, final.standard⟩
  case entries =>
    refine TypePool.Only.mono final.entries fun node fits => fits.mono ?_
    rintro (nowErred | reported)
    · apply exists_mem_replace nowErred
      rintro (kept | none)
      · exact .inl (final.buffer ▸ kept)
      · simp [elsewhere] at none
    · exact ⟨(work.unit, work.reports), by simp, .inr reported⟩

/-- So does handing the reports of a unit to its buffer. -/
theorem close (accounted : program.Accounted arity (earlier ++ (unit, reports) :: later))
    (stage : Stage) : program.Accounted arity
    (earlier ++ (unit.close stage reports, []) :: later) := by
  have own : OpenUnit.Sound (unit, reports) := accounted.sound _ (by simp)
  constructor
  case declared => exact accounted.declared
  case sound => exact forall_mem_replace accounted.sound (own.close stage)
  case entries =>
    exact accounted.entries.mono fun node fits =>
      fits.mono fun answers => exists_mem_replace answers fun errs => own.errs_close errs stage

end Program.Accounted

namespace Session

variable {session : Session} {config : SessionConfig} {sources : List SourceUnit}

/-- The states that a session passes through while it is compiled, whichever of its units a stage
turns to: its units are declared, stages are run on members, and buffers receive the reports of
a stage. -/
inductive Passes (session : Session) : Program → List OpenUnit → Prop where
  | declared : Passes session session.declareUnits.2 (session.declareUnits.1.map (·, []))
  | member {program : Program} {earlier later : List OpenUnit} {unit : CompilationUnit}
      {reports : List Diagnostic} {stage : Stage} {id : Nat} {work : Workspace}
      (before : Passes session program (earlier ++ (unit, reports) :: later))
      (ran : (StageM.runMember stage id).run { toProgram := program, unit, reports } =
        .ok ((), work)) :
      Passes session work.toProgram (earlier ++ (work.unit, work.reports) :: later)
  | closed {program : Program} {earlier later : List OpenUnit} {unit : CompilationUnit}
      {reports : List Diagnostic} (stage : Stage)
      (before : Passes session program (earlier ++ (unit, reports) :: later)) :
      Passes session program (earlier ++ (unit.close stage reports, []) :: later)

/-- Declared units have nothing to report, and no type is applied yet. -/
theorem declared_accounted (config : SessionConfig) (sources : List SourceUnit) :
    (declareUnits { config, sources }).2.Accounted
      (declareUnits { config, sources }).2.symbols.arity?
      ((declareUnits { config, sources }).1.map (·, [])) := by
  obtain ⟨_, declares⟩ := @declareUnits_declares False sources config nofun
  constructor
  case declared => rfl
  case sound =>
    intro entry member
    obtain ⟨unit, listed, rfl⟩ := List.mem_map.mp member
    obtain ⟨_, _, stands, _⟩ := declares.units.exists_source listed
    exact ⟨stands.counts, stands.faithful, by simp⟩
  case entries =>
    intro index node found
    rw [declares.plain] at found
    have listed := Array.mem_of_getElem? found
    simp only [List.mem_toArray, List.mem_cons, List.not_mem_nil, or_false] at listed
    rcases listed with rfl | rfl | rfl | rfl | rfl | rfl | rfl <;> exact trivial

/-- All states that a session passes through are accounted for. -/
theorem Passes.accounted {program : Program} {units : List OpenUnit}
    (passes : Passes { config, sources } program units) :
    program.Accounted (declareUnits { config, sources }).2.symbols.arity? units := by
  induction passes with
  | declared => exact declared_accounted config sources
  | member _ ran ih => exact ih.member ran
  | closed stage _ ih => exact ih.close stage

/-! Compiling passes through such states only. -/

theorem Passes.members {stage : Stage} {earlier later : List OpenUnit} :
    ∀ (ids : List Nat) {program : Program} {unit : CompilationUnit} {reports : List Diagnostic}
      {work : Workspace}, Passes session program (earlier ++ (unit, reports) :: later) →
      (ids.forM (StageM.runMember stage)).run { toProgram := program, unit, reports } =
        .ok ((), work) →
      Passes session work.toProgram (earlier ++ (work.unit, work.reports) :: later)
  | [], _, _, _, _, before, ran => by
    cases ran
    exact before
  | id :: rest, program, unit, reports, work, before, ran => by
    obtain ⟨⟨⟨⟩, between⟩, first, continued⟩ := Except.bind_eq_ok ran
    exact Passes.members rest (before.member first) continued

theorem Passes.runUnit {stage : Stage} {state next : PhaseState} {unit : CompilationUnit}
    {waiting : List CompilationUnit}
    (before : Passes session state.program ((state.units ++ unit :: waiting).map (·, [])))
    (ran : state.runUnit stage unit = .ok next) :
    Passes session next.program ((next.units ++ waiting).map (·, [])) := by
  rw [List.map_append, List.map_cons] at before
  unfold PhaseState.runUnit at ran
  split at ran
  · cases ran
    simpa using before
  · obtain ⟨⟨program, finished⟩, staged, same⟩ := Except.bind_eq_ok ran
    cases same
    obtain ⟨⟨_, _, _⟩, worked, closed⟩ := Except.bind_eq_ok staged
    obtain ⟨⟨⟨⟩, work⟩, performed, same⟩ := Except.bind_eq_ok worked
    cases same
    cases closed
    have done := (before.members _ performed).closed stage
    simpa [CompilationUnit.close] using done

theorem Passes.runUnits {stage : Stage} :
    ∀ (waiting : List CompilationUnit) {state final : PhaseState},
    Passes session state.program ((state.units ++ waiting).map (·, [])) →
    waiting.foldlM (PhaseState.runUnit stage) state = .ok final →
    Passes session final.program (final.units.map (·, []))
  | [], _, _, before, ran => by
    cases ran
    simpa using before
  | unit :: rest, _, _, before, ran => by
    obtain ⟨next, first, continued⟩ := Except.bind_eq_ok ran
    exact Passes.runUnits rest (before.runUnit first) continued

theorem Passes.runPhases : ∀ (stages : List Stage) {state final : PhaseState},
    Passes session state.program (state.units.map (·, [])) →
    stages.foldlM PhaseState.runPhase state = .ok final →
    Passes session final.program (final.units.map (·, []))
  | [], _, _, before, ran => by
    cases ran
    exact before
  | stage :: rest, state, _, before, ran => by
    obtain ⟨next, first, continued⟩ := Except.bind_eq_ok ran
    apply Passes.runPhases rest _ continued
    unfold PhaseState.runPhase at first
    split at first
    · cases first
      exact before
    · exact Passes.runUnits state.units before first

/-- What a session has compiled is the last state it passes through. -/
theorem Passes.compiled {done : Session} (ran : compile session = .ok (.ok done)) :
    Passes session done.program (done.units.map (·, [])) := by
  unfold compile at ran
  split at ran
  · cases ran
  · obtain ⟨final, phases, same⟩ := Except.bind_eq_ok (Except.ok.inj ran)
    cases same
    exact Passes.runPhases Stage.all .declared phases

/-- The name refers to a class with a parameter for every argument, so that pairing the arguments
drops none of them, be it with the parameters or with the arguments of another use of the class. -/
structure Pairs (program : Program) (base : Name) (args : List TypeRef) : Prop where
  declared : ∃ record, program.symbols.record? base = some record ∧
    program.symbols.lookupClass? base = some record.symbol ∧
    program.symbols.hierarchy.typeParams base = record.typeParams ∧
    args.length = record.typeParams.length
  params : ((program.symbols.hierarchy.typeParams base).zip args).unzip =
    (program.symbols.hierarchy.typeParams base, args)
  uses : ∀ (index : Nat) (others : List TypeRef),
    program.pool.types[index]? = some (.applied base others) →
    (args.zip others).unzip = (args, others)

theorem Passes.pairs {program : Program} {units : List OpenUnit}
    (passes : Passes { config, sources } program units) {index : Nat} {base : Name}
    {args : List TypeRef} (entry : program.pool.types[index]? = some (.applied base args)) :
    Pairs program base args := by
  have accounted := passes.accounted
  have counted : ∀ (index : Nat) (args : List TypeRef),
      program.pool.types[index]? = some (.applied base args) →
      program.symbols.arity? base = some args.length := by
    intro index args entry
    rw [accounted.declared]
    exact accounted.entries index _ entry
  obtain ⟨record, found, length⟩ := Option.map_eq_some_iff.mp (counted index args entry)
  have params : program.symbols.hierarchy.typeParams base = record.typeParams := by
    simp [SymbolTable.hierarchy, found]
  constructor
  case declared =>
    exact ⟨record, found, by simp [SymbolTable.lookupClass?, found], params, length.symm⟩
  case params =>
    apply List.unzip_zip
    rw [params, length]
  case uses =>
    intro other others use
    apply List.unzip_zip
    exact Option.some.inj ((counted index args entry).symm.trans (counted other others use))

/-- Applied types have the right number of arguments, in every state a session passes through; and
what it compiles is such a state. -/
theorem applied_types_pair (config : SessionConfig) (sources : List SourceUnit) :
    (∀ (program : Program) (units : List OpenUnit), Passes { config, sources } program units →
      ∀ (index : Nat) (base : Name) (args : List TypeRef),
        program.pool.types[index]? = some (.applied base args) → Pairs program base args) ∧
    ∀ done : Session, compile { config, sources } = .ok (.ok done) →
      Passes { config, sources } done.program (done.units.map (·, [])) :=
  ⟨fun _ _ passes _ _ _ entry => passes.pairs entry, fun _ ran => .compiled ran⟩

/-- A class with one parameter, and fields that use it with one argument and with two. -/
def genericUnit : SourceUnit where
  name := "generic"
  classes := [
    { name := "Box", span := ⟨0, 3⟩, typeParams := [{ name := "T", span := ⟨4, 5⟩ }] },
    { name := "Crate", span := ⟨6, 9⟩, fields := [
      { name := "one", type := .named "Box" [.named "int" [] ⟨10, 13⟩] ⟨10, 18⟩, span := ⟨19, 22⟩ },
      { name := "two", span := ⟨30, 33⟩,
        type := .named "Box" [.named "int" [] ⟨40, 43⟩, .named "int" [] ⟨44, 47⟩] ⟨40, 48⟩ }] }]

/-- A later class of the same name with two parameters, and a field that uses it with two
arguments. -/
def rivalUnit : SourceUnit where
  name := "rival"
  classes := [
    { name := "Box", span := ⟨0, 3⟩
      typeParams := [{ name := "A", span := ⟨4, 5⟩ }, { name := "B", span := ⟨6, 7⟩ }]
      fields := [{
        name := "both", span := ⟨30, 33⟩
        type := .named "Box" [.named "int" [] ⟨40, 43⟩, .named "Nowhere" [] ⟨44, 47⟩] ⟨40, 48⟩ }] }]

theorem applied_types_pair_rivals : ∃ done,
    compile { sources := [genericUnit, rivalUnit] } = .ok (.ok done) ∧
      done.program.pool.types[10]? = some (.applied "Box" [.int]) ∧
      Pairs done.program "Box" [.int] := by
  obtain ⟨done, ran, entry⟩ := exists_run { sources := [genericUnit, rivalUnit] }
    (fun done => done.program.pool.types[10]? = some (.applied "Box" [.int])) (by decide +kernel)
  have compiled : compile { sources := [genericUnit, rivalUnit] } = .ok (.ok done) :=
    congrArg Except.ok ran
  obtain ⟨pairs, passes⟩ := applied_types_pair {} [genericUnit, rivalUnit]
  exact ⟨done, compiled, entry, pairs _ _ (passes done compiled) 10 "Box" [.int] entry⟩

/-- The handle is that of a type, and every name in the type was found. -/
structure Resolved (pool : TypePool) (type : TypeRef) : Prop where
  has : pool.Has type
  found : pool.containsUnresolved type = .ok false
  present : pool.Small → type ≠ .absent

theorem resolved_of_has {pool : TypePool} {type : TypeRef} (valid : pool.Valid)
    (inside : pool.Has type) (found : ∀ (index : Nat) (name : Name),
      pool.types[index]? ≠ some (.unresolved name)) :
    Resolved pool type where
  has := inside
  found := valid.containsUnresolved_eq_false inside found
  present small same := by
    rw [same] at inside
    exact absurd inside (Nat.not_lt_of_le small)

/-- A type stands for a name that was not found only once an error is kept or reported. -/
theorem Passes.errs {program : Program} {units : List OpenUnit}
    (passes : Passes { config, sources } program units) {index : Nat} {name : Name}
    (entry : program.pool.types[index]? = some (.unresolved name)) :
    ∃ unit ∈ units, ∃ diagnostic ∈ unit.buffer.diagnostics, diagnostic.severity = .error := by
  have accounted := passes.accounted
  obtain ⟨unit, member, errs⟩ : ∃ unit ∈ units, unit.Errs := accounted.entries index _ entry
  exact ⟨unit, member, (accounted.sound unit member).errs errs⟩

theorem faulty_of_unresolved {done : Session} (ran : compile { config, sources } = .ok (.ok done))
    {index : Nat} {name : Name}
    (entry : done.program.pool.types[index]? = some (.unresolved name)) :
    ∃ unit ∈ done.units, unit.Faulty := by
  obtain ⟨open_, member, diagnostic, present, severe⟩ := (Passes.compiled ran).errs entry
  obtain ⟨unit, listed, rfl⟩ := List.mem_map.mp member
  exact ⟨unit, listed, diagnostic, present, severe⟩

/-- A session without errors comes to the end of the last stage. -/
theorem holds_of_clean {done : Session} (ran : compile { config, sources } = .ok (.ok done))
    (clean : ¬ ∃ unit ∈ done.units, unit.Faulty) :
    ∃ rank, done.closed.Holds False rank config.diagnostics sources .constantsFolded := by
  have finished : run { config, sources } = .ok done := Except.ok.inj ran
  obtain ⟨_, _, _, _, holds, _⟩ := (@run_holds False sources config nofun).ensures done finished
  refine (schedule_of_clean ran (Nat.eq_zero_of_not_pos fun positive => clean ?_)).2
  refine (errorCount_pos_iff fun unit member => ?_).mp positive
  obtain ⟨_, _, stands, _⟩ := holds.units.exists_source member
  exact stands.faithful

/-- Names that were not found are reported before a type stands for them: in every state a session
passes through, such a type comes with an error. Without errors, whatever is recorded for members,
parameters, supertypes, expressions, matches and bounds is a type in which all names were found. -/
theorem placeholders_are_reported (config : SessionConfig) (sources : List SourceUnit) :
    (∀ (program : Program) (units : List OpenUnit), Passes { config, sources } program units →
      ∀ (index : Nat) (name : Name), program.pool.types[index]? = some (.unresolved name) →
        ∃ unit ∈ units, ∃ diagnostic ∈ unit.buffer.diagnostics, diagnostic.severity = .error) ∧
    ∀ done : Session, compile { config, sources } = .ok (.ok done) →
      (∀ (index : Nat) (name : Name), done.program.pool.types[index]? = some (.unresolved name) →
        ∃ unit ∈ done.units, unit.Faulty) ∧
      ((¬ ∃ unit ∈ done.units, unit.Faulty) →
        (∀ unit ∈ done.units, ∀ type, unit.Mentions type → Resolved done.program.pool type) ∧
        ∀ param ∈ done.program.pool.params, ∀ bound ∈ param.bounds,
          Resolved done.program.pool bound) := by
  refine ⟨fun _ _ passes _ _ entry => passes.errs entry, fun done ran => ?_⟩
  refine ⟨fun _ _ entry => faulty_of_unresolved ran entry, fun clean => ?_⟩
  have found : ∀ (index : Nat) (name : Name),
      done.program.pool.types[index]? ≠ some (.unresolved name) :=
    fun index name entry => clean (faulty_of_unresolved ran entry)
  obtain ⟨rank, holds⟩ := holds_of_clean ran clean
  have valid : done.program.pool.Valid := holds.sound.pool
  constructor
  · intro unit member type mentions
    obtain ⟨_, _, stands, reached⟩ := holds.units.exists_source member
    exact resolved_of_has valid (stands.mentions (by simp [reached]) type mentions) found
  · intro param member bound listed
    obtain ⟨index, present⟩ := Array.mem_iff_getElem?.mp member
    exact resolved_of_has valid (valid.bounds index param present bound listed) found

theorem placeholders_are_reported_stray :
    (∃ done, compile { sources := [strayUnit] } = .ok (.ok done) ∧
      done.program.pool.types[7]? = some (.unresolved "Nowhere") ∧ ∃ unit ∈ done.units,
        unit.Faulty) ∧
    ∃ done, compile { sources := [sealedUnit ["A"]] } = .ok (.ok done) ∧
      (¬ ∃ unit ∈ done.units, unit.Faulty) ∧
      ∃ unit ∈ done.units, ∃ type, unit.exprTypes.get? 0 = some type ∧
        Resolved done.program.pool type := by
  constructor
  · obtain ⟨done, ran, entry⟩ := exists_run { sources := [strayUnit] }
      (fun done => done.program.pool.types[7]? = some (.unresolved "Nowhere")) (by decide +kernel)
    have compiled : compile { sources := [strayUnit] } = .ok (.ok done) := congrArg Except.ok ran
    exact ⟨done, compiled, entry,
      ((placeholders_are_reported {} [strayUnit]).2 done compiled).1 7 "Nowhere" entry⟩
  · obtain ⟨done, ran, quiet, unit, member, typed⟩ := exists_run { sources := [sealedUnit ["A"]] }
      (fun done => (∀ unit ∈ done.units, ∀ diagnostic ∈ unit.diagnostics.diagnostics,
          diagnostic.severity ≠ .error) ∧
        ∃ unit ∈ done.units, (unit.exprTypes.get? 0).isSome = true) (by decide +kernel)
    have compiled : compile { sources := [sealedUnit ["A"]] } = .ok (.ok done) :=
      congrArg Except.ok ran
    have clean : ¬ ∃ unit ∈ done.units, unit.Faulty := by
      rintro ⟨unit, member, diagnostic, kept, severe⟩
      exact quiet unit member diagnostic kept severe
    obtain ⟨type, found⟩ := Option.isSome_iff_exists.mp typed
    obtain ⟨resolved, -⟩ :=
      ((placeholders_are_reported {} [sealedUnit ["A"]]).2 done compiled).2 clean
    exact ⟨done, compiled, clean, unit, member, type, found,
      resolved unit member type (.expr found)⟩

end Session
end ClassLang
