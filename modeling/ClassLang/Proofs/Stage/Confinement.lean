import ClassLang.Pipeline
import ClassLang.Proofs.Pattern.Entries
import ClassLang.Proofs.Stage.Accounts

/-! The work of a stage on one member: it touches no other member, neither the progress nor the
buffer of the unit, keeps the accounts, and never breaches the order of stages itself. -/

namespace ClassLang

theorem IdMap.isSome_insert {α : Type} {map : IdMap α} {key other : Nat} {value : α}
    (isSome : (map.get? other).isSome) : ((map.insert key value).get? other).isSome := by
  rw [IdMap.get?_insert]
  split
  · rfl
  · exact isSome

namespace CompilationUnit

/-- What a stage on one member may change: that member, and what the stage records about
expressions. Expressions change when constants are folded only, their types then and when names are
bound, groups when names are bound only, and code when members are checked only; until constants are
folded, what is recorded stays. -/
structure Spares (stage : Stage) (id : Nat) (before after : CompilationUnit) : Prop where
  name : after.name = before.name
  progress : after.progress = before.progress
  diagnostics : after.diagnostics = before.diagnostics
  size : after.members.size = before.members.size
  others : ∀ other ≠ id, after.members.members[other]? = before.members.members[other]?
  symbols : after.symbols = before.symbols
  arena : stage ≠ .foldConstants → after.arena = before.arena
  matchGroups : stage ≠ .resolve → after.matchGroups = before.matchGroups
  lowered : stage ≠ .check → after.lowered = before.lowered
  exprTypes : stage ≠ .resolve → stage ≠ .foldConstants → after.exprTypes = before.exprTypes
  typed : stage ≠ .foldConstants →
    ∀ index, (before.exprTypes.get? index).isSome → (after.exprTypes.get? index).isSome
  resolved : ∀ index, (before.resolutions.get? index).isSome → (after.resolutions.get? index).isSome
  grouped : ∀ index, (before.matchGroups.get? index).isSome → (after.matchGroups.get? index).isSome
  coded : ∀ index, (before.lowered.get? index).isSome → (after.lowered.get? index).isSome

namespace Spares
variable {stage : Stage} {id : Nat} {first second third unit : CompilationUnit}

theorem refl (unit : CompilationUnit) : Spares stage id unit unit :=
  ⟨rfl, rfl, rfl, rfl, fun _ _ => rfl, rfl, fun _ => rfl, fun _ => rfl, fun _ =>
    rfl, fun _ _ => rfl,
    fun _ _ isSome => isSome, fun _ isSome => isSome, fun _ isSome =>
      isSome, fun _ isSome => isSome⟩

theorem trans (earlier : Spares stage id first second) (later : Spares stage id second third) :
    Spares stage id first third where
  name := later.name.trans earlier.name
  progress := later.progress.trans earlier.progress
  diagnostics := later.diagnostics.trans earlier.diagnostics
  size := later.size.trans earlier.size
  others other apart := (later.others other apart).trans (earlier.others other apart)
  symbols := later.symbols.trans earlier.symbols
  arena other := (later.arena other).trans (earlier.arena other)
  matchGroups other := (later.matchGroups other).trans (earlier.matchGroups other)
  lowered other := (later.lowered other).trans (earlier.lowered other)
  exprTypes other also := (later.exprTypes other also).trans (earlier.exprTypes other also)
  typed other index isSome := later.typed other index (earlier.typed other index isSome)
  resolved index isSome := later.resolved index (earlier.resolved index isSome)
  grouped index isSome := later.grouped index (earlier.grouped index isSome)
  coded index isSome := later.coded index (earlier.coded index isSome)

theorem set (unit : CompilationUnit) (member : Member) :
    Spares stage id unit { unit with members := unit.members.set id member } :=
  { (refl unit : Spares stage id unit unit) with
    size := MemberArena.size_set
    others := fun _ apart => Array.getElem?_setIfInBounds_ne (Ne.symm apart) }

/-- Something else is recorded. -/
theorem record {patterns : PatternStore} {resolutions : IdMap Resolution}
    {boundUses : List BoundUse}
    (resolved : ∀ index, (unit.resolutions.get? index).isSome → (resolutions.get? index).isSome) :
    Spares stage id unit { unit with patterns, resolutions, boundUses } :=
  { (refl unit : Spares stage id unit unit) with resolved := resolved }

/-- The type of an expression is recorded. -/
theorem recordType (index : Nat) (type : TypeRef) :
    Spares .resolve id unit { unit with exprTypes := unit.exprTypes.insert index type } :=
  { (refl unit : Spares .resolve id unit unit) with
    exprTypes := fun other => absurd rfl other, typed := fun _ _ isSome =>
      IdMap.isSome_insert isSome }

end Spares
end CompilationUnit

/-- Diagnostics about methods that are inherited. -/
def Code.concernsInherited : Code → Bool
  | .badOverride | .overridesNothing | .missingImplementation => true
  | _ => false

theorem TypeFault.not_concernsInherited (fault : TypeFault) :
    fault.code.concernsInherited = false := by
  cases fault <;> rfl

/-- Reports that say nothing about inherited methods. -/
abbrev Diagnostic.IsDiscreet (report : Diagnostic) : Prop := report.code.concernsInherited = false

/-- What was reported after `floor` is allowed. -/
def Workspace.Reported (allowed : Diagnostic → Prop) (floor : List Diagnostic) (work : Workspace) :
    Prop :=
  ∃ added, work.reports = floor ++ added ∧ ∀ report ∈ added, allowed report

namespace Workspace.Reported
variable {allowed weak strong : Diagnostic → Prop} {floor : List Diagnostic}
  {work between after : Workspace}

theorem refl : work.Reported allowed work.reports := ⟨[], by simp, by simp⟩

theorem trans (former : between.Reported allowed floor)
    (latter : after.Reported allowed between.reports) : after.Reported allowed floor := by
  obtain ⟨earlier, same, all⟩ := former
  obtain ⟨later, again, also⟩ := latter
  exact ⟨earlier ++ later, by rw [again, same, List.append_assoc],
    List.forall_mem_append.mpr ⟨all, also⟩⟩

theorem mono (reported : work.Reported strong floor)
    (weaken : ∀ report, strong report → weak report) : work.Reported weak floor := by
  obtain ⟨added, same, all⟩ := reported
  exact ⟨added, same, fun report member => weaken _ (all report member)⟩

theorem grows (reported : work.Reported allowed floor) : floor <+: work.reports := by
  obtain ⟨added, same, -⟩ := reported
  exact ⟨added, same.symm⟩

end Workspace.Reported

/-- Only the third stage reports anything about inherited methods. -/
def Stage.MayReport (stage : Stage) (report : Diagnostic) : Prop :=
  stage ≠ .check → report.IsDiscreet

/-- What a stage on one member may change of the workspace: its unit as above, reports are added,
declarations change when types are resolved only, and the accounts are kept. -/
structure Workspace.Spares (before : Workspace) (stage : Stage) (id : Nat) (after : Workspace) :
    Prop where
  unit : CompilationUnit.Spares stage id before.unit after.unit
  symbols : stage ≠ .resolveTypes → after.symbols = before.symbols
  reports : before.reports <+: after.reports
  arity : after.symbols.arity? = before.symbols.arity?
  accounts : ∀ ledger, before.Accounted ledger → after.Accounted ledger

namespace Workspace.Spares
variable {stage : Stage} {id : Nat} {first second third work : Workspace}

theorem refl (work : Workspace) : work.Spares stage id work :=
  ⟨.refl _, fun _ => rfl, List.prefix_rfl, rfl, fun _ accounted => accounted⟩

theorem trans (earlier : first.Spares stage id second) (later : second.Spares stage id third) :
    first.Spares stage id third where
  unit := earlier.unit.trans later.unit
  symbols other := (later.symbols other).trans (earlier.symbols other)
  reports := earlier.reports.trans later.reports
  arity := later.arity.trans earlier.arity
  accounts := fun ledger accounted => later.accounts ledger (earlier.accounts ledger accounted)

/-- Only the unit changes. -/
theorem ofUnit {unit : CompilationUnit} (spares : CompilationUnit.Spares stage id work.unit unit) :
    work.Spares stage id { work with unit } where
  unit := spares
  symbols _ := rfl
  reports := List.prefix_rfl
  arity := rfl
  accounts _ accounted := accounted.step rfl spares.diagnostics rfl ⟨[], by simp⟩

/-- Something is reported. -/
theorem ofReports {added : List Diagnostic} (standard : ∀ report ∈ added, report.Standard) :
    work.Spares stage id { work with reports := work.reports ++ added } where
  unit := .refl _
  symbols _ := rfl
  reports := List.prefix_append _ _
  arity := rfl
  accounts _ accounted := accounted.step rfl rfl rfl ⟨added, rfl, standard⟩

/-- A declaration is published. -/
theorem ofSymbols {symbols : SymbolTable} (arity : symbols.arity? = work.symbols.arity?) :
    work.Spares .resolveTypes id { work with symbols } where
  unit := .refl _
  symbols other := absurd rfl other
  reports := List.prefix_rfl
  arity := arity
  accounts _ accounted := accounted.step arity rfl rfl ⟨[], by simp⟩

/-- Types are entered that fit the declared classes. -/
theorem ofPool {pool : TypePool}
    (entries : ∀ erred, work.pool.Only (TypeNode.Fits work.symbols.arity? erred) →
      pool.Only (TypeNode.Fits work.symbols.arity? erred)) :
    work.Spares stage id { work with pool } where
  unit := .refl _
  symbols _ := rfl
  reports := List.prefix_rfl
  arity := rfl
  accounts _ accounted :=
    { accounted with entries :=
      accounted.arity ▸ entries _ (accounted.arity.symm ▸ accounted.entries) }

end Workspace.Spares

/-- What a step on a member comes to: it spares the other members, returns what is promised, reports
what is allowed only, and raises no breach of the order. -/
def Workspace.Confines (work : Workspace) (stage : Stage) (id : Nat) (allowed : Diagnostic → Prop)
    {α : Type} (post : α → Prop) (answer : Except Abort (α × Workspace)) : Prop :=
  (∀ fault, answer = .error fault → fault.isStageOrder = false) ∧
  ∀ value final, answer = .ok (value, final) →
    work.Spares stage id final ∧ post value ∧ final.Reported allowed work.reports

namespace Workspace.Confines
variable {work : Workspace} {stage : Stage} {id : Nat} {allowed : Diagnostic → Prop} {α β : Type}

theorem ok {value : α} {post : α → Prop} {final : Workspace} (spares : work.Spares stage id final)
    (holds : post value) (told : final.Reported allowed work.reports) :
    work.Confines stage id allowed post (.ok (value, final)) :=
  ⟨nofun, fun _ _ same => by
    cases same
    exact ⟨spares, holds, told⟩⟩

/-- What follows may rely on what the first part returns, and on the declared classes. -/
theorem bind {first : StageM α} {next : α → StageM β} {middle : α → Prop} {post : β → Prop}
    (done : work.Confines stage id allowed middle (first.run work))
    (rest : ∀ (result : α) (between : Workspace), middle result →
      between.symbols.arity? = work.symbols.arity? →
      between.Confines stage id allowed post ((next result).run between)) :
    work.Confines stage id allowed post ((first >>= next).run work) := by
  rcases ran : first.run work with fault | ⟨result, between⟩
  · have raises : (first >>= next).run work = .error fault := by
      simp only [StateT.run_bind, ran]
      rfl
    rw [raises]
    exact ⟨fun other same => Except.error.inj same ▸ done.1 fault ran, nofun⟩
  · have goesOn : (first >>= next).run work = (next result).run between := by
      simp only [StateT.run_bind, ran]
      rfl
    obtain ⟨spared, promised, told⟩ := done.2 result between ran
    rw [goesOn]
    refine ⟨(rest result between promised spared.arity).1, fun value final same => ?_⟩
    obtain ⟨later, holds, more⟩ := (rest result between promised spared.arity).2 value final same
    exact ⟨spared.trans later, holds, told.trans more⟩

/-- The workspace is read. -/
theorem reading {next : Workspace → StageM β} {post : β → Prop}
    (rest : work.Confines stage id allowed post ((next work).run work)) :
    work.Confines stage id allowed post ((MonadState.get >>= next).run work) :=
  rest

/-- Something is asked, and the workspace stays. -/
theorem answering {answer : Except Abort α} {next : α → StageM β} {post : β → Prop}
    (asked : Orderly answer)
    (rest : ∀ value, answer = .ok value →
      work.Confines stage id allowed post ((next value).run work)) :
    work.Confines stage id allowed post ((liftM answer >>= next).run work) := by
  cases answer with
  | error fault => exact ⟨fun _ same => Except.error.inj same ▸ asked.1 fault rfl, nofun⟩
  | ok value => exact rest value rfl

end Workspace.Confines

namespace StageM
open CompilationUnit

/-- Steps of a stage that spare the members other than `id`, report what is allowed only, and raise
no breach of the order. -/
def confining (stage : Stage) (id : Nat) (allowed : Diagnostic → Prop) : Promise StageM where
  holds action post := ∀ work : Workspace, work.Confines stage id allowed post (action.run work)
  pure promised _ := .ok (.refl _) promised .refl
  bind earlier later work := .bind (earlier work) fun result between promised _ =>
    later result promised between

/-- The step spares the members other than `id`, and reports what its stage may. -/
abbrev Confined (stage : Stage) (id : Nat) {α : Type} (action : StageM α) : Prop :=
  (confining stage id stage.MayReport).Meets action

variable {stage : Stage} {id : Nat} {allowed : Diagnostic → Prop} {α : Type}

/-- A step that changes the workspace. -/
theorem confined_modify {change : Workspace → Workspace}
    (spares : ∀ work : Workspace, work.Spares stage id (change work))
    (told : ∀ work : Workspace, (change work).Reported allowed work.reports) :
    (confining stage id allowed).Meets (modify change : StageM PUnit) :=
  fun work => .ok (spares work) trivial (told work)

theorem get_confined : (confining stage id allowed).Meets (get : StageM Workspace) :=
  fun _ => .ok (.refl _) trivial .refl

/-- Work on the pool that enters what asking about the declared classes does. -/
theorem onPool_confines {action : PoolM α} {post : α → Prop} {work : Workspace}
    (done : ∀ kind, Inheritable work.hierarchy kind → PoolM.Keeps kind action post) :
    work.Confines stage id allowed post ((onPool action).run work) := by
  have orderly := (done _ (PoolM.inheritable_any _)).orderly work.pool
  change work.Confines stage id allowed post (do
    let made ← action.run work.pool
    pure (made.1, { work with pool := made.2 }))
  cases ran : action.run work.pool with
  | error fault => exact ⟨fun _ same => Except.error.inj same ▸ orderly.1 fault ran, nofun⟩
  | ok made =>
    have holds := ((done _ (PoolM.inheritable_any _)).run (fun _ _ _ => trivial) ran).2.2
    refine .ok (.ofPool fun erred only => ?_) holds .refl
    exact ((done _ (TypeNode.inheritable_fits rfl)).run only ran).2.1

theorem onPool_confining {action : PoolM α} {post : α → Prop}
    (done : ∀ classes kind, Inheritable classes kind → PoolM.Keeps kind action post) :
    (confining stage id allowed).holds (onPool action) post :=
  fun _ => onPool_confines fun kind => done _ kind

theorem onPool_confined {action : PoolM α}
    (done : ∀ classes kind, Inheritable classes kind → PoolM.Keeps kind action) :
    (confining stage id allowed).Meets (onPool action) :=
  onPool_confining done

/-- A type is entered that fits whatever is declared. -/
theorem enter_confined {node : TypeNode}
    (fits : ∀ classes kind, Inheritable classes kind → kind node) :
    (confining stage id allowed).Meets (onPool (PoolM.intern node)) :=
  onPool_confined fun classes kind closed => .intern (fits classes kind closed)

/-- An answer that is known to be as promised. -/
theorem lift_confining {answer : Except Abort α} {post : α → Prop} (done : Orderly answer)
    (all : ∀ value, answer = .ok value → post value) :
    (confining stage id allowed).holds (liftM answer : StageM α) post := by
  intro work
  cases answer with
  | error fault => exact ⟨fun other same => Except.error.inj same ▸ done.1 fault rfl, nofun⟩
  | ok value => exact .ok (.refl _) (all value rfl) .refl

theorem lift_confined {answer : Except Abort α} (done : Orderly answer) :
    (confining stage id allowed).Meets (liftM answer : StageM α) :=
  lift_confining done fun _ _ => trivial

theorem inspect_confined {query : Workspace → Except Abort α}
    (done : ∀ work, Orderly (query work)) : (confining stage id allowed).Meets (inspect query) :=
  .bind get_confined fun work => lift_confined (done work)

theorem withClasses_confining {action : ClassHierarchy → PoolM α} {post : α → Prop}
    (done : ∀ classes kind, Inheritable classes kind → PoolM.Keeps kind (action classes) post) :
    (confining stage id allowed).holds (withClasses action) post :=
  fun _ => onPool_confines fun kind => done _ kind

theorem withClasses_confined {action : ClassHierarchy → PoolM α}
    (done : ∀ classes kind, Inheritable classes kind → PoolM.Keeps kind (action classes)) :
    (confining stage id allowed).Meets (withClasses action) :=
  withClasses_confining done

theorem reportAll_confined {diagnostics : List Diagnostic}
    (all : ∀ report ∈ diagnostics, allowed report)
    (standard : ∀ report ∈ diagnostics, report.Standard) :
    (confining stage id allowed).Meets (reportAll diagnostics) :=
  confined_modify (fun _ => .ofReports standard) fun _ => ⟨diagnostics, rfl, all⟩

theorem report_confined {diagnostic : Diagnostic} (holds : allowed diagnostic)
    (standard : diagnostic.Standard) :
    (confining stage id allowed).Meets (report diagnostic) :=
  reportAll_confined (by simpa using holds) (by simpa using standard)

theorem modifyUnit_confined {change : CompilationUnit → CompilationUnit}
    (spares : ∀ unit, Spares stage id unit (change unit)) :
    (confining stage id allowed).Meets (modifyUnit change) :=
  confined_modify (fun work => .ofUnit (spares work.unit)) fun _ => .refl

theorem setMember_confined (member : Member) :
    (confining stage id allowed).Meets (setMember id member) :=
  modifyUnit_confined fun unit => .set unit member

theorem display_confined (type : TypeRef) : (confining stage id allowed).Meets (display type) :=
  inspect_confined fun _ => TypePool.display_orderly type

theorem reportFault_confined (span : Span) (fault : TypeFault) :
    Confined stage id (reportFault span fault) := by
  have made : (confining stage id stage.MayReport).holds
      (inspect fun work => fault.toDiagnostic span work.pool)
      fun report => report.code = fault.code ∧ report.Standard :=
    Promise.bind _ get_confined fun work _ => lift_confining
      (TypeFault.toDiagnostic_orderly fault span work.pool)
      fun _ made => ⟨TypeFault.toDiagnostic_code made, TypeFault.toDiagnostic_standard made⟩
  refine Promise.bind _ made fun report ⟨code, standard⟩ => ?_
  exact report_confined (fun _ => (congrArg _ code).trans fault.not_concernsInherited) standard

/-- A name that was not found is entered once an error is reported, and the unit may be changed
between the two. -/
theorem unresolved_confined {diagnostic : Diagnostic} (holds : allowed diagnostic)
    (severe : diagnostic.isError = true) {change : CompilationUnit → CompilationUnit}
    (spares : ∀ unit, Spares stage id unit (change unit)) (name : Name)
    (standard : diagnostic.Standard) : (confining stage id allowed).Meets (do
      report diagnostic
      modifyUnit change
      PoolM.unresolved name : StageM TypeRef) := by
  intro work
  have standards : ∀ report ∈ [diagnostic], report.Standard := by simpa using standard
  have told : work.Spares stage id { work with reports := work.reports ++ [diagnostic] } :=
    .ofReports standards
  have changed := told.trans (Workspace.Spares.ofUnit (spares work.unit))
  have errs : ({ work with reports := work.reports ++ [diagnostic] } : Workspace).Errs :=
    ⟨diagnostic, List.mem_append_right _ List.mem_cons_self, severe⟩
  refine .ok ⟨changed.unit, changed.symbols, changed.reports, changed.arity,
    fun ledger accounted => ?_⟩
    trivial ⟨[diagnostic], rfl, by simpa using holds⟩
  have kept := changed.accounts ledger accounted
  exact { kept with entries := kept.entries.intern (.inr errs) }

theorem mismatch_confined (expected found : TypeRef) (span : Span) :
    Confined stage id (mismatch expected found span) :=
  .bind (display_confined _) fun _ => .bind (display_confined _) fun _ =>
    report_confined (fun _ => rfl) rfl

end StageM

/-! Reading a unit and the symbol table. -/

namespace MemberArena

theorem get_orderly (arena : MemberArena) (id : Nat) : Orderly (arena.get id) := by
  unfold MemberArena.get
  split
  · exact orderly_ok
  · exact orderly_error rfl

theorem topLevelWithin_orderly (arena : MemberArena) : ∀ fuel id : Nat,
    Orderly (arena.topLevelWithin fuel id)
  | 0, _ => orderly_error rfl
  | fuel + 1, id => by
    refine .bind (arena.get_orderly id) fun member => ?_
    split
    · exact topLevelWithin_orderly arena fuel _
    · exact .pure

theorem topLevel_orderly (arena : MemberArena) (id : Nat) : Orderly (arena.topLevel id) :=
  topLevelWithin_orderly arena _ id

end MemberArena

theorem CompilationUnit.symbol_orderly (unit : CompilationUnit) (member : Nat) :
    Orderly (unit.symbol member) := by
  unfold CompilationUnit.symbol
  split
  · exact orderly_ok
  · exact orderly_error rfl

theorem CompilationUnit.classOf_orderly (unit : CompilationUnit) (member : Nat) :
    Orderly (unit.classOf member) :=
  .bind (MemberArena.topLevel_orderly _ member) fun _ => MemberArena.get_orderly _ _

theorem TypeScope.forMember_orderly (members : MemberArena) (id : Nat) :
    Orderly (TypeScope.forMember members id) := by
  refine .bind (members.get_orderly id) fun member => ?_
  cases member.owner with
  | none => exact .bind .pure fun _ => .pure
  | some owner =>
    refine .bind (members.topLevel_orderly owner) fun _ => ?_
    refine .bind (members.get_orderly _) fun _ => ?_
    refine .bind .pure fun _ => ?_
    exact .pure

namespace SymbolTable
variable {table : SymbolTable}

theorem get_orderly (id : Nat) : Orderly (table.get id) := by
  unfold SymbolTable.get
  split
  · exact orderly_ok
  · exact orderly_error rfl

theorem publishSignature_orderly (id : Nat) (signature : Signature) :
    Orderly (table.publishSignature id signature) :=
  .bind (get_orderly id) fun _ => .pure

end SymbolTable

/-! The first stage. -/

namespace TypeSite
open StageM
variable {stage : Stage} {id : Nat} {site : TypeSite}

theorem checkArgCount_confining (name : Name) (expected found : Nat) (span : Span) :
    (confining stage id stage.MayReport).holds (checkArgCount name expected found span)
      fun passed => passed = true → expected = found ∨ found = 0 := by
  unfold checkArgCount
  split
  · rename_i right
    exact Promise.pure _ fun _ => right
  · exact Promise.andThen _ (report_confined (fun _ => rfl) rfl) fun _ => Promise.pure _ nofun

theorem checkArgCount_confined (name : Name) (expected found : Nat) (span : Span) :
    Confined stage id (checkArgCount name expected found span) :=
  (confining stage id stage.MayReport).mono (checkArgCount_confining name expected found span)
    fun _ _ => trivial

/-- An applied type is entered only with the right number of arguments. -/
theorem resolveNamed_confined (name : Name) (count : Nat) (span : Span)
    {args : StageM (List TypeRef)} (resolved : (confining stage id stage.MayReport).holds args
      fun types => types.length = count) : Confined stage id
      (site.resolveNamed name count span args) := by
  unfold resolveNamed
  cases site.scope.find? name with
  | some param =>
    exact .bind (checkArgCount_confined _ _ _ _) fun _ =>
      onPool_confined fun _ _ closed => PoolM.var_keeps closed param
  | none =>
    dsimp only
    cases TypeRef.primitive? name with
    | some primitive => exact .bind (checkArgCount_confined _ _ _ _) fun _ => .pure
    | none =>
      intro work
      refine .reading ?_
      by_cases unknown : (work.symbols.lookupClass? name).isNone = true
      · rw [if_pos unknown]
        have entered := @unresolved_confined stage id stage.MayReport
          { code := .unknownType, span, args := [name] } (fun _ => rfl) rfl (fun unit => unit)
          (fun unit => .refl unit) name rfl
        exact entered work
      rw [if_neg unknown]
      by_cases bare : count = 0
      · rw [if_pos bare]
        exact enter_confined (fun _ _ closed => closed.class_ name) work
      rw [if_neg bare]
      refine .bind (checkArgCount_confining _ _ _ _ work) fun fits between right declared => ?_
      split
      · refine .bind (resolved between) fun types later length same => ?_
        have fits : types.length = (later.hierarchy.typeParams name).length := by
          rw [length, ← (right ‹_›).resolve_right bare]
          unfold Workspace.hierarchy
          rw [SymbolTable.typeParams_length, SymbolTable.typeParams_length, same, declared]
        exact .bind (onPool_confines fun _ closed => PoolM.applied_keeps closed fits)
          fun type after _ _ => Promise.Meets.bind
          (modifyUnit_confined fun _ => .record fun _ isSome => isSome) (fun _ => .pure) after
      · exact enter_confined (fun _ _ closed => closed.class_ name) between

mutual

theorem resolve_confined : ∀ type : TypeExpr, Confined stage id (site.resolve type)
  | .infer => .pure
  | .wildcard .invariant _ _ => enter_confined fun _ _ closed => closed.wildcard _ _
  | .wildcard .covariant bound _ | .wildcard .contravariant bound _ =>
    .bind (resolveBound_confined bound) fun _ => enter_confined fun _ _ closed =>
      closed.wildcard _ _
  | .named name args span =>
    resolveNamed_confined name args.length span (resolveArgs_confining args)

theorem resolveBound_confined : ∀ bound : Option TypeExpr,
    Confined stage id (site.resolveBound bound)
  | none => .pure
  | some bound => resolve_confined bound

theorem resolveArgs_confining : ∀ args : List TypeExpr,
    (confining stage id stage.MayReport).holds (site.resolveArgs args)
      fun types => types.length = args.length
  | [] => Promise.pure _ rfl
  | arg :: args =>
    Promise.andThen _ (resolve_confined arg) fun _ =>
      Promise.bind _ (resolveArgs_confining args) fun _ length =>
        Promise.pure _ (congrArg (· + 1) length)

end

theorem resolveArgs_confined (args : List TypeExpr) : Confined stage id (site.resolveArgs args) :=
  (confining stage id stage.MayReport).mono (resolveArgs_confining args) fun _ _ => trivial

/-- The bounds of a parameter are no types. -/
theorem resolveBounds_confined (params : List GenericParam) :
    Confined stage id (site.resolveBounds params) := by
  refine .forM fun param => .bind (resolveArgs_confined param.bounds) fun bounds work => ?_
  refine .ok (.ofPool fun erred only index node found => only index node ?_) trivial .refl
  rwa [TypePool.setBounds_types] at found

end TypeSite

namespace StageM
variable {stage : Stage} {id : Nat}

theorem publishSignature_confined (symbol : Nat) (signature : Signature) :
    Confined .resolveTypes id (publishSignature symbol signature) := by
  intro work
  have published : work.Confines .resolveTypes id Stage.resolveTypes.MayReport
      (fun symbols => symbols.arity? = work.symbols.arity?)
      ((inspect (·.symbols.publishSignature symbol signature)).run work) :=
    .reading (lift_confining (SymbolTable.publishSignature_orderly symbol signature)
      (fun _ => SymbolTable.arity?_publishSignature) work)
  exact .bind published fun symbols between same declared =>
    .ok (.ofSymbols (same.trans declared.symm)) trivial .refl

theorem resolveTypes_confined : Confined .resolveTypes id (resolveTypes id) := by
  refine .bind get_confined fun work => ?_
  refine .bind (lift_confined (TypeScope.forMember_orderly _ id)) fun scope => ?_
  refine .bind (lift_confined (work.unit.symbol_orderly id)) fun symbol => ?_
  refine .bind (lift_confined (MemberArena.get_orderly _ id)) fun member => ?_
  have published (signature : Signature) (later : Member) : Confined .resolveTypes id (do
      publishSignature symbol signature
      setMember id later) :=
    .bind (publishSignature_confined symbol signature) fun _ => setMember_confined later
  cases member.detail with
  | class_ typeParams superclass interfaces =>
    refine .bind (TypeSite.resolveBounds_confined typeParams) fun _ => ?_
    refine .bind (m := StageM) ?_ fun superType => ?_
    · cases superclass with
      | none => exact .pure
      | some written => exact .map (TypeSite.resolve_confined written)
    refine .bind (TypeSite.resolveArgs_confined interfaces) fun interfaceTypes => ?_
    refine .bind (withClasses_confined fun _ _ closed =>
      ClassHierarchy.selfType_keeps closed member.name) fun type => ?_
    exact .bind (confined_modify (fun _ => .ofSymbols (SymbolTable.arity?_publishClass _ _))
      fun _ => .refl) fun _ => published _ _
  | field => exact .bind (TypeSite.resolve_confined member.declared) fun type => published _ _
  | method typeParams params =>
    refine .bind (TypeSite.resolveBounds_confined typeParams) fun _ => ?_
    refine .bind (TypeSite.resolveArgs_confined _) fun paramTypes => ?_
    dsimp only
    split
    · exact published _ _
    · exact .bind (TypeSite.resolve_confined _) fun type => published _ _

end StageM
end ClassLang
