import ClassLang.Proofs.ErrorLimit
import ClassLang.Proofs.Linkage
import ClassLang.Proofs.Stage.ScopedConstants
import ClassLang.Proofs.Stage.ScopedMembers

/-! Type variables keep to their scopes: what a session without errors records for the expressions
of a body has the variables of the member and its class, and beyond these only those of classes that
are used without arguments, to which nothing is bound. -/

namespace ClassLang
open CompilationUnit

/-! Phases that report no error. -/

namespace Program
variable {rank : ParamRef → Nat} {config : BufferConfig} {program final : Program}
    {source : SourceUnit}
  {unit after : CompilationUnit} {stage : Stage}

section
variable (sound : program.Sound) (stands : unit.Stands False rank config program source)
  (ready : unit.progress = stage.required)
include sound stands ready

/-- Reports of a stage are as severe as their codes. -/
theorem runMembers_standard : Ensures (unit.members.ids.forM (StageM.runMember stage))
    { toProgram := program, unit }
    fun _ work => ∀ report ∈ work.reports, report.Standard := by
  have open_ := open_of_ready ready
  have past := past_of_ready ready
  have steady : Workspace.Ready False { toProgram := program, unit } := stands.ready False.elim
  cases stage with
  | resolveTypes =>
    have ranked : False → program.pool.Ranked rank := False.elim
    have typing := StageM.resolveTypes_members (stands.sound sound open_) (stands.waiting ready)
      (fun sure => stands.descends sure ready) ranked
    exact typing.ensures.mono fun _ _ holding => holding.1.reports.standard rfl
  | resolve =>
    have resolving := StageM.resolve_members (stands.sound sound open_)
      (stands.typed (past nofun) open_) steady stands.inside (stands.waiting ready)
    exact resolving.ensures.mono fun _ _ facts => facts.1.reports.standard rfl
  | check =>
    have checking := StageM.check_members (stands.sound sound open_)
      (stands.typed (past nofun) open_) steady stands.inside (stands.waiting ready)
    exact checking.ensures.mono fun _ _ both => both.1.reports.standard rfl
  | foldConstants =>
    have folding := @StageM.foldConstants_members False { toProgram := program, unit }
      (stands.waiting ready) stands.arena stands.inside
    refine folding.ensures.mono ?_
    rintro _ _ ⟨_, _, _, rfl, _⟩
    exact nofun

/-- A stage that leaves no error has reported none. -/
theorem runStage_quiet (ran : program.runStage stage unit = .ok (final, after))
    (clean : after.diagnostics.errorCount = 0) : ∃ work : Workspace,
      (unit.members.ids.forM (StageM.runMember stage)).run { toProgram := program, unit } =
        .ok ((), work) ∧
        ¬ work.Errs ∧ final = work.toProgram ∧ after = work.unit.close stage work.reports := by
  obtain ⟨work, acted, rfl, rfl⟩ := runStage_eq_ok ran
  refine ⟨work, acted, fun errs => ?_, rfl, rfl⟩
  have counts : work.unit.diagnostics.Counts :=
    (StageM.runMembers_diagnostics acted).symm ▸ stands.counts
  have standard := runMembers_standard sound stands ready () work acted
  exact Nat.ne_of_gt ((DiagnosticBuffer.reportAll_counts counts standard).2.2 errs) clean

end
end Program

namespace PhaseState.Turns
variable {rank : ParamRef → Nat} {config : BufferConfig} {stage : Stage} {first last : Program}
  {waiting finished : List CompilationUnit}

theorem extends_ (turns : Turns stage first waiting finished last) :
    ExtendAll waiting finished := by
  induction turns with
  | done => exact .nil
  | next ran _ _ ih =>
    obtain ⟨reports, same⟩ := Program.runStage_reports ran
    refine .cons ⟨?_, ?_⟩ ih
    · exact same ▸ DiagnosticBuffer.reportAll_extends reports
    · exact same ▸ DiagnosticBuffer.errorCount_reportAll_le reports

/-- What each run of a stage does for its unit and keeps of the program, a whole phase does. -/
theorem follow (keeps : Program → Prop) {before after : CompilationUnit → CompilationUnit → Prop}
    (turns : Turns stage first waiting finished last) {sources : List SourceUnit}
    {declared : List CompilationUnit} (sound : first.Sound)
    (stand : StandAll False rank config first stage.required sources waiting)
    (clean : unitErrors finished = 0)
    (step : ∀ (program next : Program) (source : SourceUnit) (origin unit done : CompilationUnit),
      program.Sound → unit.Stands False rank config program source →
      unit.progress = stage.required → program.runStage stage unit = .ok (next, done) →
      done.diagnostics.errorCount = 0 → program.Continues (stage ≠ .resolveTypes) next →
      next.pool.Within last.pool → keeps program → before origin unit →
        keeps next ∧ after origin done)
    (kept : keeps first) (paired : List.Forall₂ before declared waiting) :
    keeps last ∧ List.Forall₂ after declared finished := by
  induction turns generalizing sources declared with
  | done =>
    cases paired
    exact ⟨kept, .nil⟩
  | @next first middle last unit done waiting others ran continues rest ih =>
    cases stand with
    | @cons source _ sources _ own later =>
      cases paired with
      | @cons origin _ origins _ holds paired =>
        rw [unitErrors_cons] at clean
        have stages := (Program.runStage_stages sound False.elim own.1 own.2).ensures _ ran
        obtain ⟨keptNext, done⟩ := step first middle source origin unit done sound own.1 own.2 ran
          (Nat.eq_zero_of_add_eq_zero_right clean) continues rest.continues.pool kept holds
        obtain ⟨keptLast, others⟩ := ih stages.sound (StandAll.grow later continues (.inl rfl))
          (Nat.eq_zero_of_add_eq_zero_left clean) step keptNext paired
        exact ⟨keptLast, .cons done others⟩

end PhaseState.Turns

/-! What a session is judged by. -/

namespace Session

/-- Some unit uses the class without arguments. -/
def UsesRaw (session : Session) (name : Name) : Prop := ∃ unit ∈ session.declareUnits.1,
    unit.Uses name 0

/-- Some class of the name is not the one that the name refers to. -/
def Shadows (session : Session) (name : Name) : Prop :=
  ∃ unit ∈ session.declareUnits.1, ∃ id member, unit.members.members[id]? = some member ∧
    member.name = name ∧
    ¬ Workspace.Single { toProgram := session.declareUnits.2, unit } id

/-- Parameters of classes that are used without arguments or are not referred to by their names may
occur anywhere. -/
def judgement (config : SessionConfig) (sources : List SourceUnit) (pool : TypePool)
    (primitives : TypePool.Prefix {} pool) (lockstep : pool.Lockstep) (small : pool.Small) :
    Judgement where
  pool := pool
  primitives := primitives
  lockstep := lockstep
  small := small
  typeParams := (declareUnits { config, sources }).2.symbols.hierarchy.typeParams
  loose param :=
    ∃ name, param ∈ (declareUnits { config, sources }).2.symbols.hierarchy.typeParams name ∧
    (UsesRaw { config, sources } name ∨ Shadows { config, sources } name)
  table := (declareUnits { config, sources }).2.symbols
  units := (declareUnits { config, sources }).1
  linked := declareUnits_linked config sources
  classes := rfl
  raw unit listed name used param member := ⟨name, member, .inl ⟨unit, listed, used⟩⟩
  hidden unit listed id symbol member found class_ declared param own := by
    by_cases single : Workspace.Single
      { toProgram := (declareUnits { config, sources }).2, unit } id
    · left
      have linked := declareUnits_linked config sources
      cases answer : (declareUnits { config, sources }).2.symbols.record? member.name with
      | none => simp [SymbolTable.hierarchy, answer] at own
      | some record =>
        have same := single member symbol record.symbol found class_ declared
          (by simp [SymbolTable.lookupClass?, answer])
        have params := (linked.own record (SymbolTable.record?_mem answer).1 unit listed id member
          (same ▸ declared) found).2
        simpa [SymbolTable.hierarchy, answer, ← params] using own
    · exact .inr ⟨member.name, own, .inr ⟨unit, listed, id, member, found, rfl, single⟩⟩
  closed param other loose around := by
    obtain ⟨name, own, either⟩ := loose
    cases read : (declareUnits { config, sources }).2.symbols.record? name with
    | none => simp [SymbolTable.hierarchy, read] at own
    | some record =>
      obtain ⟨unit, listed, id, member, found, top, same⟩ :=
        (declareUnits_linked config sources).declaring record (SymbolTable.record?_mem read).1
      have params : (declareUnits { config, sources }).2.symbols.hierarchy.typeParams name =
          member.ownParams := by
        simp [SymbolTable.hierarchy, read, same]
      refine ⟨name, ?_, either⟩
      rw [params] at own ⊢
      exact (CompilationUnit.inScope_top top).mp (around unit listed id member found own)

section
variable {config : SessionConfig} {sources : List SourceUnit} {pool : TypePool}
    {primitives : TypePool.Prefix {} pool}
  {lockstep : pool.Lockstep} {small : pool.Small}

/-- A unit that is judged as it was declared. -/
def Judged (judgement : Judgement) (declared unit : CompilationUnit) : Prop :=
  declared ∈ judgement.units ∧ unit.Scoped judgement.toScoping declared

/-- Before the first stage nothing is published or recorded. -/
theorem opened_scoped : (declareUnits { config, sources }).2.Scoped
    (judgement config sources pool primitives lockstep small) ∧
    List.Forall₂ (Judged (judgement config sources pool primitives lockstep small))
      (declareUnits { config, sources }).1 (declareUnits { config, sources }).1 := by
  obtain ⟨sites, assembled⟩ := declareUnits_assembled config sources
  obtain ⟨_, declares⟩ := @declareUnits_declares False sources config nofun
  have unsigned {id : Nat} {symbol : Symbol}
      (found : (declareUnits { config, sources }).2.symbols.symbols[id]? = some symbol) :
      symbol.signature = none := assembled.unpublished symbol (Array.mem_of_getElem? found)
  refine ⟨⟨rfl, fun _ => rfl, fun record listed type above => ?_,
    fun _ _ _ _ symbol found signature answer => ?_,
    fun _ symbol found _ signature answer => ?_, fun param declared found bound listed => ?_⟩, ?_⟩
  · obtain ⟨superclass, interfaces⟩ := assembled.records_bare listed
    simp [superclass, interfaces] at above
  · cases (unsigned found).symm.trans answer
  · cases (unsigned found).symm.trans answer
  · rw [declares.bare declared (Array.mem_of_getElem? found)] at listed
    cases listed
  · rw [List.forall₂_same]
    refine fun unit listed =>
      ⟨listed, rfl, rfl, rfl, fun id original member _ found => ?_, fun index type recorded => ?_⟩
    · obtain ⟨type, params⟩ := assembled.member_untyped listed found
      exact ⟨.absent (type ▸ rfl), fun param present => .absent (params param present ▸ rfl)⟩
    · rw [assembled.untyped unit listed] at recorded
      cases recorded

variable {judgement : Judgement} {before after : PhaseState} {declared : List CompilationUnit}

/-- The first two phases publish and record what is over the scopes of its declarations. -/
theorem Phase.scoped {stage : Stage} (early : stage = .resolveTypes ∨ stage = .resolve)
    (phase : Phase config sources stage before after)
    (within : after.program.pool.Prefix judgement.pool) (clean : unitErrors after.units = 0)
    (kept : before.program.Scoped judgement)
    (judged : List.Forall₂ (Judged judgement) declared before.units) :
    after.program.Scoped judgement ∧ List.Forall₂ (Judged judgement) declared after.units := by
  obtain ⟨rank, stands⟩ := phase.stands
  refine phase.turns.follow (·.Scoped judgement) stands.sound stands.units clean ?_ kept judged
  rintro program next source origin unit done sound stands ready ran clean _ later kept
    ⟨listed, scoped_⟩
  obtain ⟨work, acted, quiet, rfl, rfl⟩ := Program.runStage_quiet sound stands ready ran clean
  have all : ∀ id ∈ unit.members.ids, ∃ original, origin.members.members[id]? = some original := by
    intro id member
    obtain ⟨original, found, _⟩ :=
      scoped_.exists_original (Array.getElem?_eq_getElem (List.mem_range.mp member))
    exact ⟨original, found⟩
  have shown : work.pool.Prefix judgement.pool := later.types.trans within
  obtain ⟨_, facts⟩ := StageM.runMembers_scoped listed early all _ () work acted ⟨shown, quiet⟩
  obtain ⟨scopedNow, _⟩ := facts trivial ⟨kept, scoped_, trivial⟩
  exact ⟨scopedNow.program, listed, { scopedNow.unit with }⟩

/-- Once all members are checked, every class is the one that its name refers to. -/
theorem Phase.single (phase : Phase config sources .check before after)
    (clean : unitErrors after.units = 0) (kept : before.program.Scoped judgement)
    (judged : List.Forall₂ (Judged judgement) declared before.units) :
    List.Forall₂ (fun origin unit => (∀ program : Program, program.symbols = judgement.table →
      ∀ id, Workspace.Single { toProgram := program, unit := origin } id) ∧
      unit.Retains judgement.toScoping origin) declared after.units := by
  obtain ⟨rank, stands⟩ := phase.stands
  let records (program : Program) : Prop :=
    program.symbols.classes.map ClassRecord.outline = judgement.table.classes.map
      ClassRecord.outline
  refine (phase.turns.follow records stands.sound stands.units clean ?_ kept.records judged).2
  rintro program next source origin unit done sound stands ready ran clean continues _ holds
    ⟨listed, scoped_⟩
  obtain ⟨work, acted, quiet, rfl, rfl⟩ := Program.runStage_quiet sound stands ready ran clean
  have open_ := open_of_ready ready
  have past := past_of_ready ready nofun
  have checking := StageM.check_members (stands.sound sound open_) (stands.typed past open_)
    (stands.ready False.elim) stands.inside (stands.waiting ready)
  obtain ⟨led, _⟩ := checking.ensures () work acted
  have types := @StageM.runMembers_exprTypes .check { toProgram := program, unit } work _
    (by decide) (by decide) acted
  have retains : work.unit.Retains judgement.toScoping origin :=
    (Retains.ofScoped scoped_).evolve led.unit types
  refine ⟨?_, fun program declared id => ?_, retains.headings, retains.bodies, retains.nodes⟩
  · exact (congrArg (·.classes.map ClassRecord.outline) led.symbols).trans holds
  · intro member own first found class_ symbol named
    obtain ⟨later, present, same⟩ := scoped_.exists_later found
    have inside : id ∈ unit.members.ids :=
      List.mem_range.mpr (Array.getElem?_eq_some_iff.mp present).1
    refine StageM.runMembers_single acted quiet id inside later own first present ?_ ?_ ?_
    · exact (Member.isClass_of_written same).trans class_
    · exact scoped_.symbols ▸ symbol
    · rw [Member.name_of_written same, SymbolTable.lookupClass?_of_outline holds, ← declared]
      exact named

/-- Folding constants brings nothing below a body that was not there, and no type with variables. -/
theorem Phase.retains (phase : Phase config sources .foldConstants before after)
    (clean : unitErrors after.units = 0) {scoping : Scoping}
    (retained : List.Forall₂ (fun origin unit => unit.Retains scoping origin) declared
      before.units) :
    List.Forall₂ (fun origin unit => unit.Retains scoping origin) declared after.units := by
  obtain ⟨rank, stands⟩ := phase.stands
  refine (phase.turns.follow (fun _ => True) stands.sound stands.units clean ?_ trivial retained).2
  rintro program next source origin unit done sound stands ready ran clean _ _ _ retains
  obtain ⟨work, acted, _, rfl, rfl⟩ := Program.runStage_quiet sound stands ready ran clean
  have folding : (StageM.retaining scoping origin).holds
      (unit.members.ids.forM (StageM.runMember .foldConstants))
      fun _ => True := (StageM.retaining scoping origin).forM fun id _ =>
        StageM.runMember_retains id
  obtain ⟨later, _⟩ := folding _ retains () work acted
  exact ⟨trivial, later.headings, later.bodies, later.nodes⟩

end

/-- Type variables keep to their scopes. In a session without errors, what is recorded for an
expression below the body of a member has the variables of the member and its class only; besides,
it may have those of a class that some unit uses without arguments, because nothing is bound to them
there, and, if the expression stands below the body of another member as well, those of that
member. -/
theorem recorded_types_scoped {config : SessionConfig} {sources : List SourceUnit} {done : Session}
    (ran : compile { config, sources } = .ok (.ok done)) (clean : done.errorCount = 0)
    (small : done.program.pool.Small) :
    List.Forall₂ (fun declared unit => ∀ (id : Nat) (member : Member),
      unit.members.members[id]? = some member → ∀ index, unit.HasInBody id index → ∀ type,
        unit.exprTypes.get? index = some type → ∀ param variance,
          done.program.pool.Occurs (.var param variance) type → unit.inScope member param ∨
          (∃ name, UsesRaw { config, sources } name ∧
            param ∈ done.program.symbols.hierarchy.typeParams name) ∨
          ∃ other rival, other ≠ id ∧ unit.members.members[other]? = some rival ∧
            declared.HasInBody id index ∧ declared.HasInBody other index ∧ unit.inScope rival param)
      (declareUnits { config, sources }).1 done.units := by
  obtain ⟨typed, resolved, checked, typing, resolving, checking, folding⟩ :=
    phases_of_clean ran clean
  -- No phase leaves an error, and what a phase enters stays in the pool.
  have cleanChecked : unitErrors checked.units = 0 :=
    Nat.le_zero.mp (clean ▸ unitErrors_le folding.turns.extends_)
  have cleanResolved : unitErrors resolved.units = 0 :=
    Nat.le_zero.mp (cleanChecked ▸ unitErrors_le checking.turns.extends_)
  have cleanTyped : unitErrors typed.units = 0 :=
    Nat.le_zero.mp (cleanResolved ▸ unitErrors_le resolving.turns.extends_)
  have laterResolved : resolved.program.pool.Prefix done.program.pool :=
    checking.turns.continues.pool.types.trans folding.turns.continues.pool.types
  have laterTyped : typed.program.pool.Prefix done.program.pool :=
    resolving.turns.continues.pool.types.trans laterResolved
  obtain ⟨-, _, holds⟩ := schedule_of_clean ran clean
  have valid : done.program.pool.Valid := holds.sound.pool
  let judged := judgement config sources done.program.pool valid.primitives valid.lockstep small
  obtain ⟨opens, units⟩ :=
    @opened_scoped config sources done.program.pool valid.primitives valid.lockstep small
  obtain ⟨published, units⟩ := typing.scoped (.inl rfl) laterTyped cleanTyped opens units
  obtain ⟨published, units⟩ :=
    resolving.scoped (.inr rfl) laterResolved cleanResolved published units
  obtain ⟨single, units⟩ :=
    (List.forall₂_and_left _ _).mp (checking.single cleanChecked published units)
  have classes : done.program.symbols.hierarchy.typeParams = judged.typeParams := by
    have same : done.program.symbols = resolved.program.symbols :=
      (folding.turns.continues.symbols nofun).trans (checking.turns.continues.symbols nofun)
    rw [same]
    exact published.publishes.typeParams
  have raw (param : ParamRef) (loose : judged.loose param) :
      ∃ name, UsesRaw { config, sources } name ∧
      param ∈ done.program.symbols.hierarchy.typeParams name := by
    obtain ⟨name, own, used | ⟨unit, listed, id, member, _, _, shadowed⟩⟩ := loose
    · exact ⟨name, used, classes ▸ own⟩
    · exact absurd (single unit listed _ rfl id) shadowed
  refine (folding.retains clean units).imp ?_
  intro declared unit retains id member found index below type recorded param variance occurs
  rcases retains.nodes.recorded index type recorded with mayRecord | plain
  · obtain ⟨other, original, body, there, written, contained, ranges⟩ := mayRecord.scope
    rcases ranges _ occurs with scope | loose
    · obtain ⟨rival, present, heading⟩ := retains.exists_later there
      rw [← retains.inScope_eq heading] at scope
      by_cases same : other = id
      · subst same
        cases found.symm.trans present
        exact .inl scope
      · obtain ⟨expr, inside, _⟩ := mayRecord.operation
        have before := (retains.below below).resolve_left
          (Nat.not_le.mpr (Array.getElem?_eq_some_iff.mp inside).1)
        exact .inr
          (.inr ⟨other, rival, same, present, before,
            ⟨original, body, there, written, contained⟩, scope⟩)
    · exact .inr (.inl (raw param loose))
  · exact .inr (.inl (raw param ((plain _ occurs).resolve_left False.elim)))

/-- A generic class with a field and a method that reads it, and a class with a method that reads
the field of a receiver. -/
def boxUnit (args : List TypeExpr) : SourceUnit where
  name := "main"
  classes := [
    { name := "Box", typeParams := [{ name := "T", span := ⟨4, 5⟩ }], span := ⟨0, 3⟩
      fields := [{ name := "value", type := .named "T" [] ⟨6, 7⟩, span := ⟨8, 13⟩ }]
      methods := [{
        name := "get", returns := .named "T" [] ⟨14, 15⟩, body := some (.node 0)
        span := ⟨16, 19⟩ }] },
    { name := "Main", span := ⟨30, 34⟩, methods := [{
        name := "run"
        params := [{ name := "box", type := .named "Box" args ⟨44, 46⟩, span := ⟨44, 47⟩ }]
        returns := .named "void" [] ⟨36, 40⟩, body := some (.node 2), span := ⟨41, 43⟩ }] }]
  arena := { exprs := #[⟨.ident "value", ⟨20, 25⟩⟩, ⟨.ident "box", ⟨50, 53⟩⟩,
    ⟨.field (.node 1) "value", ⟨50, 59⟩⟩] }

/-- A class with two generic methods of one body. -/
def twinUnit : SourceUnit where
  name := "twin"
  classes := [{ name := "Twin", span := ⟨0, 4⟩, methods := ["first", "second"].map fun name =>
    { name, typeParams := [{ name := "T", span := ⟨6, 7⟩ }], span := ⟨14, 19⟩
      params := [{ name := "x", type := .named "T" [] ⟨10, 11⟩, span := ⟨12, 13⟩ }]
      returns := .named "void" [] ⟨8, 9⟩, body := some (.node 0) } }]
  arena := { exprs := #[⟨.ident "x", ⟨20, 21⟩⟩] }

/-- In the body of the member, whose scope has the parameter or not, a node is recorded with the
type variable of the parameter. -/
def RecordsVariable (done : Session) (unitName : Name) (id index : Nat) (param : ParamRef)
    (within : Bool) : Prop :=
  ∃ unit ∈ done.units, unit.name = unitName ∧ ∃ member ∈ unit.members.members[id]?,
    member.body = some (.node index) ∧
    (∃ type ∈ unit.exprTypes.get? index,
      done.program.pool.types[type.raw]? = some (.var param .invariant)) ∧
    (within = true ↔ ∃ entry ∈ unit.scopeOf member, entry.2 = param)

instance (done : Session) (unitName : Name) (id index : Nat) (param : ParamRef) (within : Bool) :
    Decidable (done.RecordsVariable unitName id index param within) :=
  inferInstanceAs (Decidable (∃ _ ∈ _, _))

theorem RecordsVariable.exists_unit {done : Session} {unitName : Name} {id index : Nat}
    {param : ParamRef} {within : Bool}
    (records : done.RecordsVariable unitName id index param within) :
    ∃ unit ∈ done.units, unit.name = unitName ∧ ∃ member, unit.members.members[id]? = some member ∧
      unit.HasInBody id index ∧ ∃ type, unit.exprTypes.get? index = some type ∧
        done.program.pool.Occurs (.var param .invariant) type ∧
        (within = true ↔ unit.inScope member param) := by
  obtain ⟨unit, listed, named, member, found, body, ⟨type, recorded, variable_⟩, scope⟩ := records
  exact ⟨unit, listed, named, member, found, ⟨member, .node index, found, body, index, rfl, .refl⟩,
    type, recorded, .here variable_, scope⟩

/-- With type arguments for the receiver, only the body of `get` is recorded with a variable, that
of its class. -/
theorem recorded_types_scoped_box : ∃ done,
    compile { sources := [boxUnit [.named "int" [] ⟨47, 50⟩]] } = .ok (.ok done) ∧
    done.errorCount = 0 ∧ done.program.pool.Small ∧ done.RecordsVariable "main" 2 0 ⟨0⟩ true ∧
    List.Forall₂ (fun _ unit => ∀ (id : Nat) (member : Member),
      unit.members.members[id]? = some member → ∀ index, unit.HasInBody id index → ∀ type,
        unit.exprTypes.get? index = some type → ∀ param variance,
          done.program.pool.Occurs (.var param variance) type → unit.inScope member param)
      (declareUnits { sources := [boxUnit [.named "int" [] ⟨47, 50⟩]] }).1 done.units := by
  let sources := [boxUnit [.named "int" [] ⟨47, 50⟩]]
  obtain ⟨done, ran, clean, small, records, applied⟩ :=
    exists_run { sources } (fun done => done.errorCount = 0 ∧ done.program.pool.Small ∧
      done.RecordsVariable "main" 2 0 ⟨0⟩ true ∧ ∀ record ∈ done.program.symbols.classes,
        record.typeParams = [] ∨ ∀ unit ∈ (declareUnits { sources }).1, ¬ unit.Uses record.name 0)
          (by decide +kernel)
  have ran : compile { sources } = .ok (.ok done) := congrArg Except.ok ran
  have bodies : ∀ declared ∈ (declareUnits { sources }).1, declared.arena = (boxUnit []).arena ∧
      ∀ id < declared.members.members.size, ∀ member ∈ declared.members.members[id]?,
        ∀ body ∈ member.body, id = 2 ∧ body = .node 0 ∨ id = 4 ∧ body = .node 2 := by
    decide +kernel
  refine ⟨done, ran, clean, small, records,
    ((List.forall₂_and_left _ _).mpr ⟨bodies, recorded_types_scoped ran clean small⟩).imp ?_⟩
  rintro declared unit ⟨⟨same, bodies⟩, scopes⟩ id member found index below type recorded param
    variance occurs
  -- The bodies of `get` and `run` have no node in common.
  have within {id : Nat} (below : declared.HasInBody id index) : id = 2 ∧ index ∈ [0] ∨ id = 4 ∧
      index ∈ [1, 2] := by
    obtain ⟨original, body, stored, written, contained⟩ := below
    rw [same] at contained
    have inside := (Array.getElem?_eq_some_iff.mp stored).1
    rcases bodies id inside original stored body written with ⟨rfl, rfl⟩ | ⟨rfl, rfl⟩
    · exact .inl ⟨rfl, contained.mem (by decide) (by decide)⟩
    · exact .inr ⟨rfl, contained.mem (by decide) (by decide)⟩
  rcases scopes id member found index below type recorded param variance occurs with
    own | ⟨name, ⟨other, listed, raw⟩, ofName⟩ | ⟨other, rival, apart, _, hasInBody, there, _⟩
  · exact own
  · cases answer : done.program.symbols.record? name with
    | none => simp [SymbolTable.hierarchy, answer] at ofName
    | some record =>
      obtain ⟨member, rfl⟩ := SymbolTable.record?_mem answer
      rcases applied record member with bare | unused
      · simp [SymbolTable.hierarchy, answer, bare] at ofName
      · exact absurd raw (unused other listed)
  · exfalso
    have either := within hasInBody
    have there := within there
    simp only [List.mem_cons, List.not_mem_nil, or_false] at either there
    omega

/-- Variables leave their scopes in both ways that are excepted: the field of a receiver without
type arguments has the variable of the class of the field, and a node of two bodies has that of the
method resolved last. -/
theorem recorded_types_escape : ∃ done,
    compile { sources := [boxUnit [], twinUnit] } = .ok (.ok done) ∧ done.errorCount = 0 ∧
    ∀ name ∈ ["main", "twin"], ∃ unit ∈ done.units, unit.name = name ∧ ∃ id member,
      unit.members.members[id]? = some member ∧
      ∃ index, unit.HasInBody id index ∧ ∃ type, unit.exprTypes.get? index = some type ∧
        ∃ param, done.program.pool.Occurs (.var param .invariant) type ∧
        ¬ unit.inScope member param := by
  obtain ⟨done, ran, clean, main, twin⟩ :=
    exists_run { sources := [boxUnit [], twinUnit] }
      (fun done => done.errorCount = 0 ∧ done.RecordsVariable "main" 4 2 ⟨0⟩ false ∧
        done.RecordsVariable "twin" 1 0 ⟨2⟩ false) (by decide +kernel)
  refine ⟨done, congrArg Except.ok ran, clean, fun name listed => ?_⟩
  have escapes {id index : Nat} {param : ParamRef}
      (records : done.RecordsVariable name id index param false) : ∃ unit ∈ done.units,
      unit.name = name ∧ ∃ id member, unit.members.members[id]? = some member ∧
        ∃ index, unit.HasInBody id index ∧ ∃ type, unit.exprTypes.get? index = some type ∧
          ∃ param, done.program.pool.Occurs (.var param .invariant) type ∧
          ¬ unit.inScope member param := by
    obtain ⟨unit, member, named, original, found, below, type, recorded, occurs, scope⟩ :=
      records.exists_unit
    exact ⟨unit, member, named, id, original, found, index, below, type, recorded, param, occurs,
      fun within => Bool.noConfusion (scope.mpr within)⟩
  rcases List.mem_pair.mp listed with rfl | rfl
  · exact escapes main
  · exact escapes twin

end Session
end ClassLang
