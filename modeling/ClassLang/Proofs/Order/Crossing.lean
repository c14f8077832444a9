import ClassLang.Proofs.Order.Units
import ClassLang.Proofs.Stage.Evolution

/-! Stages on a unit in two runs. The runs have other units behind them, so that what these
published may differ; the unit is the same up to numbers, and stays so with all that is published
for it. -/

namespace ClassLang

/-- A parameter before its bounds are set. -/
def TypeParam.bare (param : TypeParam) : TypeParam := { param with bounds := [] }

/-- A record before the supertypes of its class are published. -/
def ClassRecord.bare (record : ClassRecord) : ClassRecord :=
  { record with superclass := none, interfaces := [] }

/-- A symbol before its signature is published. -/
def Symbol.bare (symbol : Symbol) : Symbol := { symbol with signature := none }

namespace SymbolTable

/-- The records of the class with a symbol. -/
def recordsOf (table : SymbolTable) (id : Nat) : List ClassRecord :=
  table.classes.filter fun record => record.symbol == id

variable {table after : SymbolTable}

theorem recordsOf_updateClass (class_ : Nat) {change : ClassRecord → ClassRecord}
    (kept : ∀ record, (change record).symbol = record.symbol) (id : Nat) :
    (table.updateClass class_ change).recordsOf id =
      if id = class_ then (table.recordsOf id).map change else table.recordsOf id := by
  unfold recordsOf updateClass
  dsimp only
  rw [List.filter_map]
  have same : ((fun record : ClassRecord => record.symbol == id) ∘ fun record =>
      if record.symbol = class_ then change record else record) = fun record =>
        record.symbol == id := by
    funext record
    simp only [Function.comp_apply]
    split
    · rw [kept]
    · rfl
  rw [same]
  split
  · rename_i own
    subst own
    apply List.map_congr_left
    intro record member
    exact if_pos (beq_iff_eq.mp (List.mem_filter.mp member).2)
  · rename_i other
    refine (List.map_congr_left fun record member => ?_).trans (List.map_id _)
    exact if_neg fun equal => other ((beq_iff_eq.mp (List.mem_filter.mp member).2).symm.trans equal)

theorem recordsOf_publishClass (class_ : Nat) (superclass : Option TypeRef)
    (interfaces : List TypeRef) (id : Nat) :
    (table.publishClass class_ superclass interfaces).recordsOf id =
      if id = class_ then (table.recordsOf id).map fun record =>
        { record with superclass, interfaces }
      else table.recordsOf id := by
  unfold publishClass
  apply recordsOf_updateClass
  exact fun _ => rfl

theorem earliest?_bare : ∀ records : List ClassRecord,
    earliest? (records.map ClassRecord.bare) = (earliest? records).map ClassRecord.bare
  | [] => rfl
  | record :: rest => by
    rw [List.map_cons, earliest?, earliest?, earliest?_bare rest]
    cases earliest? rest with
    | none => rfl
    | some best =>
      change (if declaredBefore best.order record.order then _ else _) =
        Option.map _ (if declaredBefore best.order record.order then _ else _)
      split <;> rfl

/-- Which class a name refers to does not depend on what is published about it. -/
theorem record?_bare
    (same : after.classes.map ClassRecord.bare = table.classes.map ClassRecord.bare)
    (name : Name) :
    (after.record? name).map ClassRecord.bare = (table.record? name).map ClassRecord.bare := by
  have filtered : ∀ table : SymbolTable, (table.record? name).map ClassRecord.bare =
      earliest? ((table.classes.map ClassRecord.bare).filter (·.name == name)) := by
    intro table
    unfold record?
    rw [← earliest?_bare, List.filter_map]
    rfl
  rw [filtered, filtered, same]

end SymbolTable

/-- What may happen to the shared parts: types are entered, and what is known of some symbols and
parameters is published, unless all is settled. -/
structure Program.Advances (settled : Prop) (touches : Nat → Prop) (binds : ParamRef → Prop)
    (before after : Program) : Prop where
  types : TypePool.Prefix before.pool after.pool
  declared : after.pool.params.map TypeParam.bare = before.pool.params.map TypeParam.bare
  params : ∀ param, ¬ binds param → after.pool.params[param.raw]? = before.pool.params[param.raw]?
  named : after.symbols.symbols.map Symbol.bare = before.symbols.symbols.map Symbol.bare
  symbols : ∀ id, ¬ touches id → after.symbols.symbols[id]? = before.symbols.symbols[id]?
  classes : after.symbols.classes.map ClassRecord.bare = before.symbols.classes.map ClassRecord.bare
  records : ∀ id, ¬ touches id → after.symbols.recordsOf id = before.symbols.recordsOf id
  settled : settled → after.symbols = before.symbols ∧ after.pool.params = before.pool.params

namespace Program.Advances

variable {settled : Prop} {touches touches' : Nat → Prop} {binds binds' : ParamRef → Prop}
  {before middle after : Program}

theorem refl (settled : Prop) (touches : Nat → Prop) (binds : ParamRef → Prop) (program : Program) :
    program.Advances settled touches binds program where
  types := .refl _
  declared := rfl
  params _ _ := rfl
  named := rfl
  symbols _ _ := rfl
  classes := rfl
  records _ _ := rfl
  settled _ := ⟨rfl, rfl⟩

theorem trans (earlier : before.Advances settled touches binds middle)
    (later : middle.Advances settled touches binds after) :
    before.Advances settled touches binds after where
  types := earlier.types.trans later.types
  declared := later.declared.trans earlier.declared
  params param foreign := (later.params param foreign).trans (earlier.params param foreign)
  named := later.named.trans earlier.named
  symbols id foreign := (later.symbols id foreign).trans (earlier.symbols id foreign)
  classes := later.classes.trans earlier.classes
  records id foreign := (later.records id foreign).trans (earlier.records id foreign)
  settled done :=
    ⟨(later.settled done).1.trans (earlier.settled done).1,
      (later.settled done).2.trans (earlier.settled done).2⟩

theorem mono (advances : before.Advances settled touches binds after)
    (symbols : ∀ id, touches id → touches' id) (params : ∀ param, binds param → binds' param) :
    before.Advances settled touches' binds' after :=
  { advances with
    params := fun param foreign => advances.params param (mt (params param) foreign)
    symbols := fun id foreign => advances.symbols id (mt (symbols id) foreign)
    records := fun id foreign => advances.records id (mt (symbols id) foreign) }

end Program.Advances

/-- What a stage on a unit may do: enter types, and publish what belongs to the unit, unless all is
settled. -/
structure Workspace.Advances (settled : Prop) (before after : Workspace) : Prop extends
    Program.Advances settled (· ∈ before.unit.symbols) (· ∈ before.unit.params) before.toProgram
      after.toProgram where
  unitSymbols : after.unit.symbols = before.unit.symbols
  unitParams : after.unit.typeParams = before.unit.typeParams

namespace Workspace.Advances

variable {settled : Prop} {before middle after : Workspace}

theorem refl (settled : Prop) (work : Workspace) : work.Advances settled work :=
  { Program.Advances.refl settled _ _ work.toProgram with
    unitSymbols := rfl
    unitParams := rfl }

theorem sameParams (advances : before.Advances settled after) :
    after.unit.params = before.unit.params :=
  congrArg (fun listed => listed.flatten.map (·.id)) advances.unitParams

theorem trans (earlier : before.Advances settled middle) (later : middle.Advances settled after) :
    before.Advances settled after := by
  have own := later.toAdvances
  rw [earlier.unitSymbols, earlier.sameParams] at own
  exact
    { earlier.toAdvances.trans own with
      unitSymbols := later.unitSymbols.trans earlier.unitSymbols
      unitParams := later.unitParams.trans earlier.unitParams }

/-- Types are entered. -/
theorem ofPool {work : Workspace} {pool : TypePool} (extends_ : work.pool.Extends pool) :
    work.Advances settled { work with pool } :=
  { refl settled work with
    types := extends_.types
    declared := congrArg _ extends_.params
    params := fun param _ => congrArg (·[param.raw]?) extends_.params
    settled := fun _ => ⟨rfl, extends_.params⟩ }

/-- Something is recorded in the unit. -/
theorem ofUnit {work : Workspace} {unit : CompilationUnit}
    (symbols : unit.symbols = work.unit.symbols) (params : unit.typeParams = work.unit.typeParams) :
    work.Advances settled { work with unit } :=
  { refl settled work with unitSymbols := symbols, unitParams := params }

/-- Something is reported. -/
theorem ofReports {work : Workspace} {reports : List Diagnostic} :
    work.Advances settled { work with reports } :=
  { refl settled work with }

end Workspace.Advances

/-- Parameters are declared alike however many bounds are set. -/
theorem Renaming.Declares.of_bare {rename : Renaming} {params params' now now' : Array TypeParam}
    (declares : rename.Declares params params')
    (same : now.map TypeParam.bare = params.map TypeParam.bare)
    (same' : now'.map TypeParam.bare = params'.map TypeParam.bare) : rename.Declares now now' := by
  have earlier : ∀ {now params : Array TypeParam} {index : Nat} {declared : TypeParam},
      now.map TypeParam.bare = params.map TypeParam.bare → now[index]? = some declared →
        ∃ old, params[index]? = some old ∧ old.bare = declared.bare := by
    intro now params index declared same found
    have there := congrArg (·[index]?) same
    simp only [Array.getElem?_map, found, Option.map_some] at there
    exact Option.map_eq_some_iff.mp there.symm
  intro param declared declared' found found'
  obtain ⟨old, stored, bare⟩ := earlier same found
  obtain ⟨old', known', bare'⟩ := earlier same' found'
  have agree := declares param old old' stored known'
  have equal : declared'.bare = declared.bare := by
    rw [← bare', ← bare, agree]
    rfl
  cases declared
  cases declared'
  cases equal
  rfl

/-- Two runs of a stage on a unit, from where they start to the pools that they are known to lead
to. -/
structure Crossing where
  rename : Renaming
  first : TypePool
  second : TypePool
  carries : rename.Carries first second
  /-- The types of all declarations are published, and stay as they are. -/
  settled : Prop
  start : Workspace
  start' : Workspace
  unit : start'.unit = rename.on start.unit
  declares : rename.Declares start.pool.params start'.pool.params
  names : ∀ name, (start'.symbols.record? name).map ClassRecord.bare =
    rename.on ((start.symbols.record? name).map ClassRecord.bare)
  tables : settled → rename.Tables start.symbols start'.symbols
  bounds : settled → rename.Bounds start.pool.params start'.pool.params

namespace Crossing

/-- The unit, the reports and what is published for the unit are the same up to numbers. -/
structure Alike (cross : Crossing) (work work' : Workspace) : Prop where
  unit : work'.unit = cross.rename.on work.unit
  reports : work'.reports = work.reports
  params : ∀ param ∈ cross.start.unit.params,
    work'.pool.params[(cross.rename.on param).raw]? = cross.rename.on work.pool.params[param.raw]?
  symbols : ∀ id ∈ cross.start.unit.symbols,
    work'.symbols.symbols[cross.rename.symbols id]? = cross.rename.on work.symbols.symbols[id]?
  records : ∀ id ∈ cross.start.unit.symbols,
    work'.symbols.recordsOf (cross.rename.symbols id) = cross.rename.on (work.symbols.recordsOf id)

/-- The stages of both runs. -/
def stages (cross : Crossing) : Setting Workspace where
  leads := Workspace.Advances cross.settled
  left := cross.start.Advances cross.settled
  right := cross.start'.Advances cross.settled
  fits work work' :=
    TypePool.Prefix work.pool cross.first ∧ TypePool.Prefix work'.pool cross.second
  alike := cross.Alike
  sees work work' := work'.unit = cross.rename.on work.unit
  refl := .refl cross.settled
  trans := .trans
  keepLeft led advances := advances.trans led
  keepRight led advances := advances.trans led
  fits_of_leads led led' fits :=
    ⟨led.types.trans fits.1, led'.types.trans fits.2⟩
  sees_of_alike _ _ alike := alike.unit
  exists_right {work} left := by
    refine ⟨{ cross.start' with unit := cross.rename.on work.unit }, .ofUnit ?_ ?_, rfl⟩
    · rw [cross.unit]
      exact congrArg (Array.map _) left.unitSymbols
    · rw [cross.unit, CompilationUnit.typeParams_on, CompilationUnit.typeParams_on, left.unitParams]
  exists_left {work} right := by
    obtain ⟨unit, same⟩ := cross.rename.on.surjective work.unit
    have symbols := right.unitSymbols
    have params := right.unitParams
    rw [cross.unit, ← same] at symbols params
    refine ⟨{ cross.start with unit }, .ofUnit ?_ ?_, same.symm⟩
    · exact (Array.map_inj_right fun _ _ => cross.rename.symbols.injective.eq_iff.mp).mp symbols
    · rw [CompilationUnit.typeParams_on, CompilationUnit.typeParams_on] at params
      exact cross.rename.on_inj.mp params

/-- Actions of a stage do the same up to numbers. -/
abbrev Agrees {α : Type} [Renamable α] (cross : Crossing) (first second : StageM α) : Prop :=
  cross.stages.Agree cross.rename.on first second

/-- Work on the pools alone, whatever other units did to the parameters. -/
def pools (cross : Crossing) (params params' : Array TypeParam)
    (declares : cross.rename.Declares params params') : Comparison where
  rename := cross.rename
  first := cross.first
  second := cross.second
  carries := cross.carries
  params := params
  params' := params'
  declares := declares

variable {cross : Crossing}

/-- The parameters of two states on the way. -/
theorem declares_now {work work' : Workspace} (left : cross.start.Advances cross.settled work)
    (right : cross.start'.Advances cross.settled work') :
    cross.rename.Declares work.pool.params work'.pool.params :=
  cross.declares.of_bare left.declared right.declared

theorem bounds_now {work work' : Workspace} (left : cross.start.Advances cross.settled work)
    (right : cross.start'.Advances cross.settled work') (done : cross.settled) :
    cross.rename.Bounds work.pool.params work'.pool.params := by
  rw [(left.settled done).2, (right.settled done).2]
  exact cross.bounds done

theorem tables_now {work work' : Workspace} (left : cross.start.Advances cross.settled work)
    (right : cross.start'.Advances cross.settled work') (done : cross.settled) :
    cross.rename.Tables work.symbols work'.symbols := by
  rw [(left.settled done).1, (right.settled done).1]
  exact cross.tables done

/-! What stages are made of. -/

section
variable {α β : Type} [Renamable α] [Renamable β]

theorem onPool_agrees {action action' : PoolM α}
    (each : ∀ params params' declares,
      (cross.settled → cross.rename.Bounds params params') →
        (cross.pools params params' declares).Agrees action action') :
    cross.Agrees (StageM.onPool action) (StageM.onPool action') := by
  have split : ∀ {action : PoolM α} {work after : Workspace} {result : α},
      (StageM.onPool action).run work = .ok (result, after) →
        ∃ pool, action.run work.pool = .ok (result, pool) ∧ after = { work with pool } := by
    intro action work after result ran
    obtain ⟨⟨value, pool⟩, started, made⟩ := Except.bind_eq_ok ran
    cases made
    exact ⟨pool, started, rfl⟩
  constructor
  case leadsLeft =>
    intro work left result after ran
    obtain ⟨pool, inner, rfl⟩ := split ran
    have right := Workspace.Advances.refl cross.settled cross.start'
    exact .ofPool
      ((each _ _ (declares_now left right) (bounds_now left right)).leadsLeft work.pool rfl
      result pool inner)
  case leadsRight =>
    intro work right result after ran
    obtain ⟨pool, inner, rfl⟩ := split ran
    have left := Workspace.Advances.refl cross.settled cross.start
    exact .ofPool
      ((each _ _ (declares_now left right) (bounds_now left right)).leadsRight work.pool rfl
      result pool inner)
  case agrees =>
    intro work work' left right alike result after result' after' ran ran' fits
    obtain ⟨pool, inner, rfl⟩ := split ran
    obtain ⟨pool', inner', rfl⟩ := split ran'
    have agree := each _ _ (declares_now left right) (bounds_now left right)
    obtain ⟨same, -⟩ := agree.agrees work.pool work'.pool rfl rfl trivial result pool result' pool'
      inner inner' fits
    have kept := (agree.leadsLeft work.pool rfl result pool inner).params
    have kept' := (agree.leadsRight work'.pool rfl result' pool' inner').params
    refine ⟨same, { alike with params := fun param own => ?_ }⟩
    change pool'.params[_]? = cross.rename.on pool.params[_]?
    rw [kept, kept']
    exact alike.params param own

/-- Once all types are published, the declarations and their bounds can be used. -/
theorem withTable_agrees (done : cross.settled) {action action' : SymbolTable → PoolM α}
    (each : ∀ params params' declares, cross.rename.Bounds params params' → ∀ table table',
      cross.rename.Tables table table' →
        (cross.pools params params' declares).Agrees (action table) (action' table')) :
    cross.Agrees (do StageM.onPool (action (← MonadState.get).symbols))
      (do StageM.onPool (action' (← MonadState.get).symbols)) := by
  apply Setting.Agree.get
  intro work work' left right _
  apply onPool_agrees
  intro params params' declares bounds
  exact each params params' declares (bounds done) _ _ (tables_now left right done)

theorem withClasses_agrees (done : cross.settled) {action action' : ClassHierarchy → PoolM α}
    (each : ∀ params params' declares, cross.rename.Bounds params params' → ∀ hierarchy hierarchy',
      cross.rename.Classes hierarchy hierarchy' →
        (cross.pools params params' declares).Agrees (action hierarchy) (action' hierarchy')) :
    cross.Agrees (StageM.withClasses action) (StageM.withClasses action') :=
  withTable_agrees done fun params params' declares bounds _ _ tables =>
    each params params' declares bounds _ _ tables.classes

end

theorem modify_agrees {change change' : Workspace → Workspace}
    (left : ∀ work, cross.start.Advances cross.settled work →
      work.Advances cross.settled (change work))
    (right : ∀ work, cross.start'.Advances cross.settled work →
      work.Advances cross.settled (change' work))
    (alike : ∀ work work', cross.start.Advances cross.settled work →
      cross.start'.Advances cross.settled work' → cross.Alike work work' →
        cross.Alike (change work) (change' work')) :
    cross.Agrees (modify change) (modify change') :=
  (Setting.Agree.modify left right alike).congr cross.rename.on_eq_refl.symm

theorem report_agrees (diagnostic : Diagnostic) :
    cross.Agrees (StageM.report diagnostic) (StageM.report diagnostic) :=
  modify_agrees (fun _ _ => .ofReports) (fun _ _ => .ofReports) fun _ _ _ _ alike =>
    { alike with reports := congrArg (· ++ [diagnostic]) alike.reports }

theorem reportAll_agrees (diagnostics : List Diagnostic) :
    cross.Agrees (StageM.reportAll diagnostics) (StageM.reportAll diagnostics) :=
  modify_agrees (fun _ _ => .ofReports) (fun _ _ => .ofReports) fun _ _ _ _ alike =>
    { alike with reports := congrArg (· ++ diagnostics) alike.reports }

/-- The unit is changed alike, not in its symbols nor in the parameters of its members. -/
theorem changeUnit_agrees {change change' : CompilationUnit → CompilationUnit}
    (same : ∀ unit, change' (cross.rename.on unit) = cross.rename.on (change unit))
    (symbols : ∀ unit, unit.symbols = cross.start.unit.symbols →
      (change unit).symbols = unit.symbols)
    (params : ∀ unit, unit.typeParams = cross.start.unit.typeParams →
      (change unit).typeParams = unit.typeParams) :
    cross.Agrees (StageM.modifyUnit change) (StageM.modifyUnit change') := by
  apply modify_agrees
  · exact fun work left => .ofUnit (symbols _ left.unitSymbols) (params _ left.unitParams)
  · intro work right
    obtain ⟨unit, equal⟩ := cross.rename.on.surjective work.unit
    have atSymbols := right.unitSymbols
    have atParams := right.unitParams
    rw [cross.unit, ← equal] at atSymbols atParams
    rw [CompilationUnit.typeParams_on, CompilationUnit.typeParams_on] at atParams
    replace atSymbols :=
      (Array.map_inj_right fun _ _ => cross.rename.symbols.injective.eq_iff.mp).mp
      atSymbols
    replace atParams := cross.rename.on_inj.mp atParams
    apply Workspace.Advances.ofUnit
    · rw [← equal, same]
      exact congrArg (Array.map _) (symbols unit atSymbols)
    · rw [← equal, same, CompilationUnit.typeParams_on, CompilationUnit.typeParams_on,
        params unit atParams]
  · intro work work' _ _ alike
    refine { alike with unit := ?_ }
    change change' work'.unit = _
    rw [alike.unit, same]

theorem setMember_agrees {id : Nat} {member : Member}
    (found : cross.start.unit.typeParams[id]? = some member.typeParams) :
    cross.Agrees (StageM.setMember id member) (StageM.setMember id (cross.rename.on member)) := by
  apply changeUnit_agrees
  · intro unit
    exact congrArg (fun members => { cross.rename.on unit with members })
      (MemberArena.set_on cross.rename unit.members id member)
  · exact fun _ _ => rfl
  · exact fun unit same => CompilationUnit.typeParams_set (same ▸ found)

/-! Questions. -/

section
variable {α β : Type} [Renamable α] [Renamable β]

omit [Renamable α] in
/-- An answer without a workspace is taken over as it is, though pools stand between. -/
theorem liftM_eq (answer : Except Abort α) : (liftM answer : StageM α) = StateT.lift answer := by
  funext work
  cases answer <;> rfl

omit [Renamable α] in
theorem inspect_eq_ok {query : Workspace → Except Abort α} {work after : Workspace} {result : α}
    (ran : (StageM.inspect query).run work = .ok (result, after)) :
    query work = .ok result ∧ work = after :=
  StageM.lift_eq_ok ran

theorem lift_agrees {answer answer' : Except Abort α}
    (same : Corresponds cross.rename.on answer answer') :
    cross.Agrees (liftM answer : StageM α) (liftM answer') := by
  rw [liftM_eq, liftM_eq]
  exact Setting.Agree.lift same

omit [Renamable α] in
/-- What follows an answer may use what the answer is. -/
theorem liftBind_agrees {via : α ≃ α} {answer answer' : Except Abort α} {rest rest' : α → StageM β}
    (same : answer' = answer.map via)
    (each : ∀ value, answer = .ok value → cross.Agrees (rest value) (rest' (via value))) :
    cross.Agrees ((liftM answer : StageM α) >>= rest) ((liftM answer' : StageM α) >>= rest') := by
  rw [liftM_eq, liftM_eq]
  exact Setting.Agree.liftBind same each

theorem inspect_agrees {query query' : Workspace → Except Abort α}
    (each : ∀ work work', cross.start.Advances cross.settled work →
      cross.start'.Advances cross.settled work' → cross.stages.fits work work' →
        cross.Alike work work' → Corresponds cross.rename.on (query work) (query' work')) :
    cross.Agrees (StageM.inspect query) (StageM.inspect query') := by
  have direct : ∀ query : Workspace → Except Abort α,
      StageM.inspect query = MonadState.get >>= fun work => StateT.lift (query work) :=
    fun query => bind_congr fun work => liftM_eq (query work)
  rw [direct, direct]
  exact Setting.Agree.ask each

/-- What follows reading a member may use which parameters the member declares. -/
theorem readMember_agrees {id : Nat} {rest rest' : Member → StageM β}
    (each : ∀ member : Member, cross.start.unit.typeParams[id]? = some member.typeParams →
      cross.Agrees (rest member) (rest' (cross.rename.on member))) :
    cross.Agrees (StageM.inspect (·.unit.members.get id) >>= rest)
      (StageM.inspect (·.unit.members.get id) >>= rest') := by
  have direct : ∀ rest : Member → StageM β, StageM.inspect (·.unit.members.get id) >>= rest =
      MonadState.get >>= fun work => liftM (work.unit.members.get id) >>= rest :=
    fun rest => bind_assoc _ _ _
  rw [direct, direct]
  apply Setting.Agree.get
  intro work work' left right seen
  rw [show work'.unit = cross.rename.on work.unit from seen]
  apply liftBind_agrees (MemberArena.get_on cross.rename work.unit.members id)
  intro member read
  apply each
  rw [← left.unitParams]
  exact CompilationUnit.typeParams_of_lookup (MemberArena.lookup_of_get read)

/-- The unit is asked. -/
theorem askUnit_agrees {query query' : Workspace → Except Abort α}
    (each : ∀ work work', work'.unit = cross.rename.on work.unit →
      Corresponds cross.rename.on (query work) (query' work')) :
    cross.Agrees (StageM.inspect query) (StageM.inspect query') :=
  inspect_agrees fun work work' _ _ _ alike => each work work' alike.unit

/-- The pool is asked. -/
theorem askPool_agrees {query query' : Workspace → Except Abort α}
    (each : ∀ work work' params params' declares,
      (cross.settled → cross.rename.Bounds params params') →
      (cross.pools params params' declares).Holds work.pool work'.pool →
        Corresponds cross.rename.on (query work) (query' work')) :
    cross.Agrees (StageM.inspect query) (StageM.inspect query') :=
  inspect_agrees fun _ _ left right fits _ =>
    each _ _ _ _ (declares_now left right) (bounds_now left right) ⟨rfl, rfl, fits.1, fits.2⟩

/-- The symbol table is asked, once all types are published. -/
theorem askTable_agrees (done : cross.settled) {query query' : Workspace → Except Abort α}
    (each : ∀ work work', cross.rename.Tables work.symbols work'.symbols →
      Corresponds cross.rename.on (query work) (query' work')) :
    cross.Agrees (StageM.inspect query) (StageM.inspect query') := by
  apply inspect_agrees
  exact fun work work' left right _ _ => each work work' (tables_now left right done)

end

theorem display_agrees (type : TypeRef) :
    cross.Agrees (StageM.display type) (StageM.display (cross.rename.on type)) :=
  askPool_agrees fun _ _ _ _ _ _ holds => holds.display type

theorem reportFault_agrees (span : Span) (fault : TypeFault) :
    cross.Agrees (StageM.reportFault span fault)
      (StageM.reportFault span (cross.rename.on fault)) :=
  Setting.Agree.bindPlain (askPool_agrees fun _ _ _ _ _ _ holds => holds.toDiagnostic fault span)
    fun diagnostic => report_agrees diagnostic

theorem mismatch_agrees (expected found : TypeRef) (span : Span) :
    cross.Agrees (StageM.mismatch expected found span)
      (StageM.mismatch (cross.rename.on expected) (cross.rename.on found) span) :=
  (display_agrees expected).bindPlain fun _ => (display_agrees found).bindPlain fun _ =>
    report_agrees _

/-- Several diagnostics are reported. -/
theorem reportFaults_agrees (span : Span) (faults : List TypeFault) :
    cross.Agrees (faults.forM (StageM.reportFault span))
      ((cross.rename.on faults).forM (StageM.reportFault span)) :=
  .forM_on fun fault _ => reportFault_agrees span fault

end Crossing
end ClassLang
