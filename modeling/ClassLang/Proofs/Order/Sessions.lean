import ClassLang.Proofs.ErrorLimit
import ClassLang.Proofs.Order.Exchange

/-! Sessions with the same units in two orders. The renaming that carries declarations to
declarations and types to types of the same structure carries every unit of one, as it is compiled,
to that of the other. -/

namespace ClassLang

namespace PhaseState

variable {config : BufferConfig} {sources : List SourceUnit} {progress : Progress}
    {rank : ParamRef → Nat}
  {stages started : List Stage} {state state' final final' : PhaseState}

/-- Types that are entered stay. -/
theorem Schedule.types (chained : Chained progress stages)
    (holds : state.Holds False rank config sources progress)
    (schedule : state.Schedule stages started final) :
    TypePool.Prefix state.program.pool final.program.pool := by
  induction schedule generalizing progress with
  | done | stop => exact .refl _
  | start free ran _ ih =>
    obtain ⟨rfl, chainedRest⟩ := chained
    obtain ⟨reached, -, turns⟩ := (runPhase_holds holds free).ensures _ ran
    exact turns.continues.pool.types.trans (ih chainedRest reached)

/-- All phases over paired units leave paired units in programs that are the same up to numbers. -/
theorem Schedule.pairs {rename : Renaming} {config' : BufferConfig} {sources' : List SourceUnit}
    {rank' : ParamRef → Nat} (carries : rename.Carries final.program.pool final'.program.pool)
    (chained : Chained progress stages) (holds : state.Holds False rank config sources progress)
    (holds' : state'.Holds False rank' config' sources' progress)
    (shared : rename.Shared state.program state'.program)
    (pairs : rename.Pairs state.units state'.units) (schedule : state.Schedule stages stages final)
    (schedule' : state'.Schedule stages stages final') :
    rename.Shared final.program final'.program ∧ rename.Pairs final.units final'.units := by
  -- Types carry over between the last pools, of which the pools of every phase are a beginning.
  induction stages generalizing state state' progress with
  | nil =>
    cases schedule <;> cases schedule' <;> exact ⟨shared, pairs⟩
  | cons stage rest ih =>
    obtain ⟨rfl, chainedRest⟩ := chained
    cases schedule with
    | start free ran later =>
    cases schedule' with
    | start free' ran' later' =>
    obtain ⟨reached, -, -⟩ := (runPhase_holds holds free).ensures _ ran
    obtain ⟨reached', -, -⟩ := (runPhase_holds holds' free').ensures _ ran'
    obtain ⟨sharedNext, pairsNext⟩ := runPhase_pairs carries shared pairs free free' ran ran'
      (later.types chainedRest reached) (later'.types chainedRest reached')
    exact ih chainedRest reached reached' sharedNext pairsNext later later'

end PhaseState

/-- A unit that was compiled in two programs, the same up to numbers: the symbols and type
parameters of the same declarations stand for each other, and types stand for types of the same
structure over them. -/
structure Renaming.Same (rename : Renaming) (program program' : Program)
    (unit unit' : CompilationUnit) : Prop where
  name : unit'.name = unit.name
  progress : unit'.progress = unit.progress
  diagnostics : unit'.diagnostics = unit.diagnostics
  members : ∀ id : Nat, unit'.members.members[id]? = rename.on unit.members.members[id]?
  symbols : unit'.symbols = unit.symbols.map rename.symbols
  params : unit'.params = unit.params.map rename.params
  arena : unit'.arena = unit.arena
  exprTypes : ∀ index, unit'.exprTypes.get? index = rename.on (unit.exprTypes.get? index)
  resolutions : ∀ index, unit'.resolutions.get? index = rename.on (unit.resolutions.get? index)
  matchGroups : ∀ index, unit'.matchGroups.get? index = rename.on (unit.matchGroups.get? index)
  lowered : unit'.lowered = unit.lowered
  types : ∀ type, unit.Mentions type → program.pool.Has type ∧ program'.pool.Has (rename.on type) ∧
    program'.pool.tree (rename.on type) = (program.pool.tree type).renamed rename.params

theorem IdMap.on_of_plain {α : Type} [Plain α] (rename : Renaming) (map : IdMap α) :
    rename.on map = map := by
  obtain ⟨slots⟩ := map
  apply congrArg IdMap.mk
  rw [rename.on_eq_refl]
  exact Array.map_id slots

theorem Member.supertypes_on (rename : Renaming) (member : Member) :
    (rename.on member).supertypes = rename.on member.supertypes := by
  obtain ⟨name, span, detail, declared, type, modifiers, annotations, access, owner, progress⟩ :=
    member
  cases detail with
  | class_ typeParams superclass interfaces superType interfaceTypes permits members =>
    cases superType with
    | none => rfl
    | some superType => exact (rename.on_append [superType] interfaceTypes).symm
  | _ => rfl

theorem Member.types_on (rename : Renaming) (member : Member) :
    (rename.on member).types = rename.on member.types := by
  have params : (rename.on member.params).map (·.type) = rename.on
      (member.params.map (·.type)) := by
    apply rename.map_on
    exact fun _ => rfl
  unfold types
  rw [params_on, params, supertypes_on, ← rename.on_append]
  rfl

/-- What a renamed unit mentions are the renamed types. -/
theorem CompilationUnit.Mentions.on {unit : CompilationUnit} {type : TypeRef}
    (mentions : unit.Mentions type) (rename : Renaming) :
    (rename.on unit).Mentions (rename.on type) := by
  cases mentions with
  | @member id member type found listed =>
    have found' : (rename.on unit).members.members[id]? = some (rename.on member) := by
      change (unit.members.members.map rename.on)[id]? = _
      rw [Array.getElem?_map, found]
      rfl
    apply Mentions.member found'
    rw [Member.types_on]
    exact List.mem_map_of_mem listed
  | @expr index type found =>
    have found' : (rename.on unit).exprTypes.get? index = some (rename.on type) := by
      change (rename.on unit.exprTypes).get? index = _
      rw [IdMap.get?_on, found]
      rfl
    exact .expr found'
  | @subject index group found =>
    have found' : (rename.on unit).matchGroups.get? index = some (rename.on group) := by
      change (rename.on unit.matchGroups).get? index = _
      rw [IdMap.get?_on, found]
      rfl
    exact .subject found'

namespace Session

/-- The order of the units does not matter. However they are ordered, well-formed units with classes
of different names are compiled to the end without a limit on errors; and as long as the types have
numbers of 32 bits, every unit comes to the same members, types, resolutions, matches, bodies and
diagnostics, up to the numbers of types, type parameters, symbols and units. -/
theorem compile_perm (config : SessionConfig) (unlimited : config.errorLimit = 0)
    {sources sources' : List SourceUnit} (perm : sources.Perm sources')
    (wellFormed : ∀ source ∈ sources, source.WellFormed)
    (distinct : (sources.flatMap fun source => source.classes.map (·.name)).Nodup) :
    ∃ done done', compile { config, sources } = .ok (.ok done) ∧
      compile { config, sources := sources' } = .ok (.ok done') ∧
      (done.program.pool.Small → done'.program.pool.Small → ∃ rename : Renaming,
        rename.Shared done.program done'.program ∧
        (∀ index, sources'[rename.units index]? = sources[index]?) ∧
        ∀ (index : Nat) (source : SourceUnit), sources[index]? = some source →
          ∃ unit unit', done.units[index]? = some unit ∧
          done'.units[rename.units index]? = some unit' ∧
            rename.Same done.program done'.program unit unit') := by
  have wellFormed' : ∀ source ∈ sources', source.WellFormed :=
    fun source member => wellFormed source (perm.mem_iff.mpr member)
  -- Either order is compiled through all phases.
  have compiled {sources : List SourceUnit} (wellFormed : ∀ source ∈ sources, source.WellFormed) :
      ∃ done rank, compile { config, sources } = .ok (.ok done) ∧
        (opened { config, sources }).Schedule Stage.all Stage.all done.closed ∧
        done.closed.Holds True rank config.diagnostics sources .constantsFolded := by
    have answers := run_holds config fun _ : True => wellFormed
    obtain ⟨done, ran⟩ := answers.ends trivial
    obtain ⟨-, rank, started, schedule, holds, complete⟩ := answers.ensures done ran
    have all : started = Stage.all := by
      refine complete.resolve_right fun full => ?_
      have limit : done.budget.limit = config.errorLimit := schedule.limit_eq
      simp [ErrorBudget.limitReached, limit, unlimited] at full
    subst all
    exact ⟨done, rank, congrArg Except.ok ran, schedule, holds⟩
  obtain ⟨done, rank, ran, schedule, holds⟩ := compiled wellFormed
  obtain ⟨done', rank', ran', schedule', holds'⟩ := compiled wellFormed'
  refine ⟨done, done', ran, ran', fun small small' => ?_⟩
  obtain ⟨rename, exchanges, carries, trees⟩ :=
    Renaming.exists_exchange perm holds.sound.pool holds'.sound.pool small small'
  have opening := declareUnits_opening config sources
  have opening' := declareUnits_opening config sources'
  obtain ⟨_, opened⟩ := @opened_holds False sources config False.elim
  obtain ⟨_, opened'⟩ := @opened_holds False sources' config False.elim
  have chained : PhaseState.Chained .unresolved Stage.all := ⟨rfl, rfl, rfl, rfl, trivial⟩
  obtain ⟨shared, pairs⟩ := schedule.pairs carries chained opened opened'
    (exchanges.shared opening opening' perm distinct) (exchanges.pairs opening opening') schedule'
  refine ⟨rename, shared, exchanges.places, fun index source found => ?_⟩
  have length : done.units.length = sources.length := holds.units.length_eq.symm
  obtain ⟨unit, listed⟩ : ∃ unit, done.units[index]? = some unit :=
    ⟨_, List.getElem?_eq_getElem (length.symm ▸ (List.getElem?_eq_some_iff.mp found).1)⟩
  have listed' : done'.units[rename.units index]? = some (rename.on unit) := by
    have place : done'.units[rename.units index]? = rename.on done.units[index]? :=
      pairs.places index
    rw [place, listed]
    rfl
  refine ⟨unit, rename.on unit, listed, listed', ?_⟩
  have has {sources : List SourceUnit} {done : Session} {rank : ParamRef → Nat}
      (holds : done.closed.Holds True rank config.diagnostics sources .constantsFolded)
      {unit : CompilationUnit} (member : unit ∈ done.units) {type : TypeRef}
      (mentions : unit.Mentions type) : done.program.pool.Has type := by
    obtain ⟨_, _, stands, progress⟩ := holds.units.exists_source member
    exact stands.mentions (by rw [progress]; decide) type mentions
  constructor
  case types =>
    intro type mentions
    have held := has holds (List.mem_of_getElem? listed) mentions
    have there := has holds' (List.mem_of_getElem? listed') (mentions.on rename)
    exact ⟨held, there, trees type held there⟩
  case members => exact fun id => Array.getElem?_map
  case params => exact CompilationUnit.params_on rename unit
  case exprTypes => exact IdMap.get?_on rename unit.exprTypes
  case resolutions => exact IdMap.get?_on rename unit.resolutions
  case matchGroups => exact IdMap.get?_on rename unit.matchGroups
  case lowered => exact IdMap.on_of_plain rename unit.lowered
  all_goals rfl

/-- A class with a field of a type that the stray unit declares. -/
def shelfUnit : SourceUnit where
  name := "shelf"
  classes := [{
    name := "Shelf", span := ⟨0, 5⟩
    typeParams := [{ name := "U", span := ⟨6, 7⟩ }]
    fields := [
      { name := "first", type := .named "Box" [.named "U" [] ⟨12, 13⟩] ⟨8, 14⟩
        init := some (.node 1), span := ⟨15, 20⟩ }] }]
  arena := { exprs := #[⟨.this, ⟨21, 25⟩⟩, ⟨.field (.node 0) "first", ⟨21, 31⟩⟩] }

theorem shelfUnit_wellFormed : shelfUnit.WellFormed where
  arena := Arena.Ordered.wellFormed (by constructor <;> decide)
  bodies body member :=
    ⟨1, by decide, by simpa [shelfUnit, SourceUnit.bodies, ClassDecl.bodies] using member⟩
  grounded decl member := by
    rw [List.mem_singleton.mp member]
    exact ClassDecl.grounded_of_free (by decide)

/-- The stray unit before the shelf, and behind it: types are entered in another order. -/
theorem compile_perm_shelf : ∃ done done',
    compile { config := { errorLimit := 0 }, sources := [strayUnit, shelfUnit] } = .ok (.ok done) ∧
      compile { config := { errorLimit := 0 }, sources := [shelfUnit, strayUnit] } =
        .ok (.ok done') ∧
      done.program.pool ≠ done'.program.pool ∧ ∃ rename : Renaming,
        rename.Shared done.program done'.program ∧
        (∀ index, [shelfUnit, strayUnit][rename.units index]? = [strayUnit, shelfUnit][index]?) ∧
        ∀ (index : Nat) (source : SourceUnit), [strayUnit, shelfUnit][index]? = some source →
          ∃ unit unit', done.units[index]? = some unit ∧
          done'.units[rename.units index]? = some unit' ∧
            rename.Same done.program done'.program unit unit' := by
  have wellFormed : ∀ source ∈ [strayUnit, shelfUnit], source.WellFormed := by
    simpa using ⟨strayUnit_wellFormed, shelfUnit_wellFormed⟩
  obtain ⟨done, done', ran, ran', same⟩ :=
    compile_perm { errorLimit := 0 } rfl (.swap shelfUnit strayUnit []) wellFormed (by decide)
  obtain ⟨known, run, small, entered⟩ :=
    exists_run { config := { errorLimit := 0 }, sources := [strayUnit, shelfUnit] }
      (fun done => done.program.pool.Small ∧
        done.program.pool.types[7]? = some (.unresolved "Nowhere"))
      (by decide +kernel)
  obtain ⟨known', run', small', entered'⟩ :=
    exists_run { config := { errorLimit := 0 }, sources := [shelfUnit, strayUnit] }
      (fun done => done.program.pool.Small ∧
        done.program.pool.types[7]? = some (.var ⟨0⟩ .invariant))
      (by decide +kernel)
  obtain rfl : known = done := Except.ok.inj (run.symm.trans (Except.ok.inj ran))
  obtain rfl : known' = done' := Except.ok.inj (run'.symm.trans (Except.ok.inj ran'))
  refine ⟨known, known', ran, ran', fun equal => ?_, same small small'⟩
  rw [equal, entered'] at entered
  cases entered

end Session
end ClassLang
