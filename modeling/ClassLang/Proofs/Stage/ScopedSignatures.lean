import ClassLang.Proofs.Stage.Scope
import ClassLang.Proofs.Stage.Signatures

/-! The first stage publishes types over the parameters of their declarations: a written type
mentions only what is in scope, and a class without arguments where it is used raw or has no
parameters. -/

namespace ClassLang

/-- The workspace keeps what stages keep, and the patterns of the unit are as they should. -/
structure Workspace.Scoped (work : Workspace) (judgement : Judgement) (declared : CompilationUnit)
    (patterned : PatternStore → Prop) : Prop where
  program : work.toProgram.Scoped judgement
  unit : work.unit.Scoped judgement.toScoping declared
  patterns : patterned work.unit.patterns

namespace StageM
variable {α β : Type} {judgement : Judgement} {declared : CompilationUnit}
    {patterned : PatternStore → Prop}
  {given : Prop}

/-- Computations that report no error, and leave the entries in the pool of the judgement and the
workspace as it should. -/
abbrev judged (judgement : Judgement) (declared : CompilationUnit)
    (patterned : PatternStore → Prop) :
    Pledge StageM :=
  Hindsight (fun work => work.pool.Prefix judgement.pool ∧ ¬ work.Errs)
    (·.Scoped judgement declared patterned)

/-- The action keeps the workspace as it should, and what it returns is as promised. -/
def Pledges (judgement : Judgement) (declared : CompilationUnit) (patterned : PatternStore → Prop)
    (given : Prop) (action : StageM α) (post : α → Prop := fun _ => True) : Prop :=
  (judged judgement declared patterned).holds given action post

namespace Pledges
variable {post : β → Prop}

theorem pure {result : β} (holds : given → post result) :
    Pledges judgement declared patterned given (Pure.pure result) post :=
  (judged judgement declared patterned).pure holds

theorem none {post : α → Prop} : Pledges judgement declared patterned given (Pure.pure Option.none)
    fun found => ∀ result, found = some result → post result :=
  pure fun _ _ same => nomatch same

theorem bind {first : StageM α} {next : α → StageM β} {middle : α → Prop}
    (done : Pledges judgement declared patterned given first middle)
    (rest : ∀ result, Pledges judgement declared patterned (given ∧ middle result)
      (next result) post) :
    Pledges judgement declared patterned given (first >>= next) post :=
  (judged judgement declared patterned).bind done rest

theorem andThen {first : StageM α} {next : α → StageM β}
    (done : Pledges judgement declared patterned given first)
    (rest : ∀ result, Pledges judgement declared patterned given (next result) post) :
    Pledges judgement declared patterned given (first >>= next) post :=
  (judged judgement declared patterned).andThen done rest

theorem assume {action : StageM β} {other : Prop} (weaken : other → given)
    (done : Pledges judgement declared patterned given action post) :
    Pledges judgement declared patterned other action post :=
  (judged judgement declared patterned).assume weaken done

theorem mono {action : StageM β} {strong : β → Prop}
    (done : Pledges judgement declared patterned given action strong)
    (weaken : ∀ result, given → strong result → post result) :
    Pledges judgement declared patterned given action post :=
  (judged judgement declared patterned).mono done weaken

theorem lift {answer : Except Abort β} (all : ∀ result, answer = .ok result → given → post result) :
    Pledges judgement declared patterned given (liftM answer : StageM β) post := by
  intro start result final ran shown
  obtain ⟨answered, rfl⟩ := lift_eq_ok ran
  exact ⟨shown, fun given scoped_ => ⟨scoped_, all result answered given⟩⟩

/-- Nothing is to be known of the answer. -/
theorem told {answer : Except Abort β} : Pledges judgement declared patterned given
    (liftM answer : StageM β) :=
  lift fun _ _ _ => trivial

/-- The workspace that is read is as it should. -/
theorem get {next : Workspace → StageM β}
    (rest : ∀ work : Workspace, Pledges judgement declared patterned
    (given ∧ work.pool.Prefix judgement.pool ∧ work.Scoped judgement declared patterned)
    (next work) post) : Pledges judgement declared patterned given (MonadState.get >>= next) post :=
  Hindsight.get fun work => (rest work).assume fun facts => ⟨facts.1, facts.2.1.1, facts.2.2⟩

theorem inspect {query : Workspace → Except Abort β} (all : ∀ work answer, query work = .ok answer →
    given ∧ work.pool.Prefix judgement.pool ∧ work.Scoped judgement declared patterned →
    post answer) : Pledges judgement declared patterned given (StageM.inspect query) post :=
  get fun work => lift (all work)

theorem ask {query : Workspace → Except Abort β} :
    Pledges judgement declared patterned given (StageM.inspect query) :=
  inspect fun _ _ _ _ => trivial

theorem onPool {action : PoolM β}
    (done : ∀ params, PoolM.Pledges judgement.toScoping params given action post) :
    Pledges judgement declared patterned given (StageM.onPool action) post := by
  intro start result final ran shown
  obtain ⟨⟨value, pool⟩, worked, same⟩ := Except.bind_eq_ok ran
  cases same
  obtain ⟨back, facts⟩ := done start.pool.params start.pool _ pool worked shown.1
  refine ⟨⟨back, shown.2⟩, fun given scoped_ => ?_⟩
  obtain ⟨params, holds⟩ := facts given rfl
  exact ⟨⟨scoped_.program.repool params, scoped_.unit, scoped_.patterns⟩, holds⟩

/-- The classes that are asked are described by what is published so far. -/
theorem withClasses {action : ClassHierarchy → PoolM β} (done : ∀ hierarchy params,
    PoolM.Pledges judgement.toScoping params (given ∧ judgement.Describes hierarchy)
      (action hierarchy) post) :
    Pledges judgement declared patterned given (StageM.withClasses action) post := by
  refine get fun _ => ?_
  refine onPool fun params => ?_
  exact (done _ params).assume fun facts => ⟨facts.1, facts.2.2.program.publishes.describes⟩

/-- A change of the workspace that leaves the pool and the reports alone. -/
theorem modify {change : Workspace → Workspace} (pool : ∀ work, (change work).pool = work.pool)
    (reports : ∀ work, (change work).reports = work.reports)
    (kept : ∀ work, given → work.Scoped judgement declared patterned →
      (change work).Scoped judgement declared patterned) :
    Pledges judgement declared patterned given (modifyThe Workspace change) := by
  refine Hindsight.modify (fun work shown => ⟨pool work ▸ shown.1, ?_⟩) fun work given _ =>
    kept work given
  unfold Workspace.Errs
  rw [← reports work]
  exact shown.2

theorem reportAll {diagnostics : List Diagnostic} :
    Pledges judgement declared patterned given (StageM.reportAll diagnostics) := by
  refine Hindsight.modify (fun work shown => ⟨shown.1, fun ⟨entry, listed, severe⟩ => ?_⟩)
    fun _ _ _ scoped_ => { scoped_ with }
  exact shown.2 ⟨entry, List.mem_append_left _ listed, severe⟩

theorem report {diagnostic : Diagnostic} :
    Pledges judgement declared patterned given (StageM.report diagnostic) := reportAll

/-- No error is reported where none is left behind. -/
theorem refuse {diagnostic : Diagnostic} (severe : diagnostic.isError = true) :
    Pledges judgement declared patterned given (StageM.report diagnostic) fun _ => False := by
  intro start result final ran shown
  cases ran
  exact absurd ⟨diagnostic, by simp, severe⟩ shown.2

/-- A change of the unit that leaves declarations, recorded types and patterns alone. -/
theorem modifyUnit {change : CompilationUnit → CompilationUnit}
    (kept : ∀ unit, given → unit.Scoped judgement.toScoping declared →
      (change unit).Scoped judgement.toScoping declared)
    (patterns : ∀ unit, (change unit).patterns = unit.patterns) :
    Pledges judgement declared patterned given (StageM.modifyUnit change) :=
  modify (fun _ => rfl) (fun _ => rfl) fun work given scoped_ =>
    ⟨scoped_.program, kept work.unit given scoped_.unit,
      (patterns work.unit).symm ▸ scoped_.patterns⟩

theorem setMember {id : Nat} {original later : Member}
    (found : declared.members.members[id]? = some original)
    (written : given → later.written = original.written)
    (ranges : given → later.Over judgement.toScoping (declared.inScope original)) :
    Pledges judgement declared patterned given (StageM.setMember id later) :=
  modifyUnit (fun _ given scoped_ => scoped_.setMember found (written given) (ranges given))
    fun _ => rfl

theorem display {type : TypeRef} : Pledges judgement declared patterned given
    (StageM.display type) := ask

theorem reportFault {span : Span} {fault : TypeFault} :
    Pledges judgement declared patterned given (StageM.reportFault span fault) :=
  andThen ask fun _ => report

theorem mismatch {expected found : TypeRef} {span : Span} :
    Pledges judgement declared patterned given (StageM.mismatch expected found span) := by
  refine andThen display fun _ => ?_
  refine andThen display fun _ => ?_
  exact report

end Pledges
end StageM

namespace TypeSite
open StageM

variable {judgement : Judgement} {declared : CompilationUnit} {patterned : PatternStore → Prop}
  {given : Prop} {scope : ParamSet} (site : TypeSite)

theorem checkArgCount_scoped (name : Name) (expected found : Nat) (span : Span) :
    Pledges judgement declared patterned given (checkArgCount name expected found span)
      fun passed => passed = true ∧ (expected = found ∨ found = 0) := by
  unfold checkArgCount
  split
  · rename_i right
    exact .pure fun _ => ⟨rfl, right⟩
  · exact .bind (.refuse rfl) fun _ => .pure fun facts => facts.2.elim

/-- A name of the scope stands for its parameter; a class is applied to an argument for every
parameter or known to be used otherwise. -/
theorem resolveNamed_scoped (name : Name) (count : Nat) (span : Span) {args : StageM (List TypeRef)}
    (names : given → ∀ entry ∈ site.scope, scope entry.2)
    (used : given → judgement.Admits name count) (resolved : ∀ {given' : Prop}, (given' → given) →
      Pledges judgement declared patterned given' args
      fun types => types.length = count ∧ ∀ type ∈ types, judgement.Over scope type) :
    Pledges judgement declared patterned given (site.resolveNamed name count span args)
      (judgement.Over scope) := by
  have checked (expected : Nat) :
      Pledges judgement declared patterned given (checkArgCount name expected count span) :=
    (checkArgCount_scoped name expected count span).mono fun _ _ _ => trivial
  unfold resolveNamed
  split
  · rename_i param found
    apply Pledges.andThen (checked 0)
    intro _
    have entered : Pledges judgement declared patterned given (StageM.onPool (PoolM.var param))
        (judgement.Over scope) :=
      .onPool fun _ => PoolM.var_scoped fun holds => names holds _ (TypeScope.find?_mem found)
    exact entered
  split
  · rename_i plain
    exact .andThen (checked 0) fun _ => .pure fun _ => .primitive (isPrimitive_of_primitive? plain)
  apply Pledges.get
  intro work
  split
  · apply Pledges.andThen .report
    exact fun _ => Pledges.onPool fun _ => PoolM.unresolved_scoped name
  split
  · rename_i none
    subst none
    exact Pledges.onPool fun _ => PoolM.class_scoped name fun holding => used holding.1 rfl
  rename_i positive
  apply Pledges.bind (checkArgCount_scoped name _ count span)
  intro passed
  split
  · apply Pledges.bind (resolved fun both => both.1.1)
    intro types
    refine Pledges.bind (.onPool fun _ => PoolM.applied_scoped (fun facts => ?_) fun facts =>
      facts.2.2) fun type => ?_
    · obtain ⟨⟨⟨_, _, scoped_⟩, _, right⟩, length, _⟩ := facts
      rw [length, ← right.resolve_right positive, ← scoped_.program.publishes.typeParams]
      rfl
    · exact .andThen (.modifyUnit (fun _ _ scoped_ => { scoped_ with }) fun _ => rfl) fun _ =>
        .pure And.right
  · rename_i refused
    exact Pledges.onPool fun _ => PoolM.class_scoped name fun both => absurd both.2.1 refused

mutual

theorem resolve_scoped : ∀ (type : TypeExpr) {given : Prop},
    (given → ∀ entry ∈ site.scope, scope entry.2) → (given → judgement.Knows type) →
      Pledges judgement declared patterned given (site.resolve type) (judgement.Over scope)
  | .infer, _, _, _ => .pure fun _ => .any
  | .wildcard .invariant _ _, _, _, _ => .onPool fun _ => PoolM.anyWildcard_scoped
  | .wildcard .covariant bound _, _, names, knows | .wildcard .contravariant bound _, _,
      names, knows =>
    .bind (resolveBound_scoped bound names knows) fun _ =>
      .onPool fun _ => PoolM.wildcard_scoped And.right fun _ same => nomatch same
  | .named name args span, _, names, knows =>
    resolveNamed_scoped site name args.length span names
      (fun holds => knows holds _ List.mem_cons_self)
      fun weaker => resolveArgs_scoped args (fun holds => names (weaker holds))
      fun holds arg listed use occurs =>
        knows (weaker holds) use
          (List.mem_cons_of_mem _ (TypeExpr.mem_usesOfAll.mpr ⟨arg, listed, occurs⟩))

theorem resolveBound_scoped : ∀ (bound : Option TypeExpr) {given : Prop},
    (given → ∀ entry ∈ site.scope, scope entry.2) →
      (given → ∀ use ∈ TypeExpr.usesOfBound bound, judgement.Admits use.1 use.2) →
        Pledges judgement declared patterned given (site.resolveBound bound) (judgement.Over scope)
  | none, _, _, _ => .pure fun _ => .any
  | some bound, _, names, knows => resolve_scoped bound names knows

theorem resolveArgs_scoped : ∀ (args : List TypeExpr) {given : Prop},
    (given → ∀ entry ∈ site.scope, scope entry.2) →
      (given → ∀ arg ∈ args, judgement.Knows arg) →
        Pledges judgement declared patterned given (site.resolveArgs args)
          fun types => types.length = args.length ∧ ∀ type ∈ types, judgement.Over scope type
  | [], _, _, _ => .pure fun _ => by simp
  | arg :: args, _, names, knows =>
    .bind (resolve_scoped arg names fun holds => knows holds arg List.mem_cons_self) fun _ =>
      .bind (resolveArgs_scoped args (fun both => names both.1)
        fun both other listed => knows both.1 other (List.mem_cons_of_mem _ listed)) fun _ =>
          .pure fun facts =>
            ⟨congrArg (· + 1) facts.2.1, List.forall_mem_cons.mpr ⟨facts.1.2, facts.2.2⟩⟩

end

/-- The bounds of a parameter mention what is in scope where it is declared. -/
theorem resolveBounds_scoped (params : List GenericParam)
    (names : given → ∀ entry ∈ site.scope, scope entry.2)
    (knows : given → ∀ param ∈ params, ∀ bound ∈ param.bounds, judgement.Knows bound)
    (home : given → ∀ param ∈ params, ∀ other, scope other → judgement.home param.id other) :
    Pledges judgement declared patterned given (site.resolveBounds params) := by
  refine (judged judgement declared patterned).forM fun param listed => ?_
  apply Pledges.bind (resolveArgs_scoped site param.bounds names fun holds =>
    knows holds param listed)
  intro bounds start result final ran shown
  cases ran
  refine ⟨⟨?_, shown.2⟩, fun facts scoped_ => ⟨?_, trivial⟩⟩
  · exact TypePool.setBounds_within.types.trans shown.1
  · refine ⟨scoped_.program.setBounds fun bound member => ?_, scoped_.unit, scoped_.patterns⟩
    exact (facts.2.2 bound member).widen (home facts.1 param listed)

end TypeSite

namespace StageM
variable {judgement : Judgement} {declared : CompilationUnit} {patterned : PatternStore → Prop}
    {given : Prop}
  {id : Nat} {original : Member} (inside : declared ∈ judgement.units)
  (found : declared.members.members[id]? = some original)
include inside found

theorem publishSignature_scoped {symbol : Nat} {signature : Signature}
    (declaring : given → declared.symbols[id]? = some symbol)
    (params : given → signature.typeParams = original.ownParams)
    (ranges : given → judgement.Over (declared.inScope original) signature.type) :
    Pledges judgement declared patterned given (publishSignature symbol signature) := by
  intro start result final ran shown
  obtain ⟨⟨symbols, _⟩, read, changed⟩ := Except.bind_eq_ok ran
  cases changed
  obtain ⟨published, rfl⟩ := lift_eq_ok read
  refine ⟨shown, fun holds scoped_ => ⟨⟨?_, scoped_.unit, scoped_.patterns⟩, trivial⟩⟩
  refine scoped_.program.publishSignature published (fun record listed member => ?_)
    fun entry present kind => ?_
  · have inner := judgement.linked.inner record listed symbol member declared inside id original
      (declaring holds) found
    refine (ranges holds).widen fun param own => ?_
    rw [inner, params holds]
    exact CompilationUnit.inScope_iff.mp own
  · have none := judgement.linked.fields declared inside id symbol original entry
      (declaring holds) found present kind
    rw [params holds, Member.ownParams, none]
    rfl

omit inside found in
theorem superclass_scoped {scope : ParamSet} (site : TypeSite) {superclass : Option TypeExpr}
    (names : given → ∀ entry ∈ site.scope, scope entry.2)
    (knows : given → ∀ type ∈ superclass, judgement.Knows type) :
    Pledges judgement declared patterned given (superclass.mapM site.resolve)
      fun superType => ∀ type ∈ superType, judgement.Over scope type := by
  cases superclass with
  | none => exact .pure fun _ => by simp
  | some written =>
    exact .bind (TypeSite.resolve_scoped site written names fun holds => knows holds written rfl)
      fun type => .pure fun facts other same => by cases same; exact facts.2

/-- What is found out about a member is over its scope. -/
theorem finish_scoped {symbol : Nat} {signature : Signature} {later : Member}
    (declaring : given → declared.symbols[id]? = some symbol)
    (params : given → signature.typeParams = original.ownParams)
    (ranges : given → judgement.Over (declared.inScope original) signature.type)
    (written : given → later.written = original.written)
    (whole : given → later.Over judgement.toScoping (declared.inScope original)) :
    Pledges judgement declared patterned given (do
      publishSignature symbol signature
      setMember id later) :=
  .andThen (publishSignature_scoped inside found declaring params ranges) fun _ =>
    .setMember found written whole

/-- What the stage reads of a member is what was declared. -/
structure Rereads (declared : CompilationUnit) (id : Nat) (original : Member) (scope : TypeScope)
    (symbol : Nat) (member : Member) : Prop where
  scope : scope = declared.scopeOf original
  symbol : declared.symbols[id]? = some symbol
  written : member.written = original.written

namespace Rereads
variable {scope : TypeScope} {symbol : Nat} {member : Member}

omit inside found in
theorem names (reads : Rereads declared id original scope symbol member) :
    ∀ entry ∈ scope, declared.inScope original entry.2 :=
  fun entry listed => ⟨entry, reads.scope ▸ listed, rfl⟩

theorem knows (reads : Rereads declared id original scope symbol member) :
    ∀ type ∈ member.writtenTypes, judgement.Knows type :=
  fun _ listed => judgement.knows inside found
    (Member.writtenTypes_of_written reads.written ▸ listed)

omit inside found in
theorem own (reads : Rereads declared id original scope symbol member) :
    member.ownParams = original.ownParams := by
  rw [Member.ownParams, Member.typeParams_of_written reads.written, ← Member.ownParams]

theorem home (reads : Rereads declared id original scope symbol member) :
    ∀ param ∈ member.typeParams, ∀ other, declared.inScope original other →
    judgement.home param.id other :=
  fun _ listed _ => judgement.home_of_own inside found (reads.own ▸ List.mem_map_of_mem listed)

end Rereads

section
variable {scope : TypeScope} {symbol : Nat} {member : Member}

theorem classTypes_scoped {typeParams : List GenericParam} {superclass : Option TypeExpr}
    {interfaces : List TypeExpr} {oldSuper : Option TypeRef} {oldInterfaces : List TypeRef}
    {permits : List Name} {members : List Nat}
    (detail : member.detail = .class_ typeParams superclass interfaces oldSuper oldInterfaces
      permits members) :
    Pledges judgement declared patterned (Rereads declared id original scope symbol member) (do
      TypeSite.resolveBounds ⟨scope, id⟩ typeParams
      let superType ← superclass.mapM (TypeSite.resolve ⟨scope, id⟩)
      let interfaceTypes ← TypeSite.resolveArgs ⟨scope, id⟩ interfaces
      let type ← withClasses (·.selfType member.name)
      modify fun work =>
        { work with symbols := work.symbols.publishClass symbol superType interfaceTypes }
      publishSignature symbol { type, typeParams := typeParams.map (·.id) }
      setMember id { member with
        type
        detail := .class_ typeParams superclass interfaces superType interfaceTypes permits
          members }) := by
  have params : member.typeParams = typeParams := by simp [Member.typeParams, detail]
  have listed : member.writtenTypes = typeParams.flatMap (·.bounds) ++
      (superclass.toList ++ interfaces) := by
    simp [Member.writtenTypes, params, detail]
  have isClass (same : member.written = original.written) : original.isClass = true := by
    rw [← Member.isClass_of_written same]
    simp [Member.isClass, detail]
  apply Pledges.andThen (TypeSite.resolveBounds_scoped _ typeParams Rereads.names
    (fun reads param member bound written => reads.knows inside found bound
      (by rw [listed]; exact List.mem_append_left _ (List.mem_flatMap.mpr
        ⟨param, member, written⟩)))
    fun reads => params ▸ reads.home inside found)
  intro _
  apply Pledges.bind (superclass_scoped ⟨scope, id⟩ Rereads.names fun reads type above =>
    reads.knows inside found type (by simp [listed, Option.mem_def.mp above]))
  intro superType
  apply Pledges.bind (TypeSite.resolveArgs_scoped _ interfaces (fun both => both.1.names)
    fun both type above => both.1.knows inside found type (by simp [listed, above]))
  intro interfaceTypes
  apply Pledges.bind (.withClasses fun _ _ => ClassHierarchy.selfType_scoped And.right member.name)
  intro type
  have self (reads : Rereads declared id original scope symbol member)
      (ranges : judgement.Over (· ∈ judgement.typeParams member.name) type) :
      judgement.Over (declared.inScope original) type := by
    rw [Member.name_of_written reads.written] at ranges
    exact ranges.mono fun param listed =>
      (judgement.hidden declared inside id symbol original found (isClass reads.written)
        reads.symbol param listed).imp_left
        fun own => CompilationUnit.inScope_iff.mpr (.inr own)
  refine Pledges.andThen (.modify (fun _ => rfl) (fun _ => rfl) fun work facts scoped_ => ?_)
    fun _ => ?_
  · refine ⟨scoped_.program.publishClass fun record declaring same => ?_, scoped_.unit,
      scoped_.patterns⟩
    obtain ⟨⟨⟨reads, superOver⟩, _, interfacesOver⟩, _⟩ := facts
    obtain ⟨top, equal⟩ := judgement.linked.own record declaring declared inside id original
      (same ▸ reads.symbol) found
    intro type above
    rw [equal]
    have ranges : judgement.Over (declared.inScope original) type :=
      (List.mem_append.mp above).elim (fun super => superOver type (Option.mem_toList.mp super))
        fun interface => interfacesOver type interface
    exact ranges.widen fun param => (CompilationUnit.inScope_top top).mp
  · refine finish_scoped inside found (fun facts => facts.1.1.1.symbol) (fun facts => ?_)
      (fun facts => self facts.1.1.1 facts.2) (fun facts => ?_) fun facts =>
        ⟨self facts.1.1.1 facts.2, ?_⟩
    · rw [← facts.1.1.1.own, ← params]
      rfl
    · rw [← facts.1.1.1.written]
      simp [Member.written, detail]
    · simp [Member.params]

theorem methodTypes_scoped {typeParams : List GenericParam} {params : List Param}
    {body : Option ExprRef} (detail : member.detail = .method typeParams params body) :
    Pledges judgement declared patterned (Rereads declared id original scope symbol member) (do
      TypeSite.resolveBounds ⟨scope, id⟩ typeParams
      let types ← TypeSite.resolveArgs ⟨scope, id⟩ (params.map (·.declared))
      let type ← match member.declared with
        | .infer => pure TypeRef.void
        | declared => TypeSite.resolve ⟨scope, id⟩ declared
      publishSignature symbol { type, params := types, typeParams := typeParams.map (·.id) }
      setMember id { member with
        type, detail := .method typeParams (Param.typed params types) body }) := by
  have generic : member.typeParams = typeParams := by simp [Member.typeParams, detail]
  have listed : member.writtenTypes = typeParams.flatMap (·.bounds) ++ member.declared :: params.map
      (·.declared) := by
    simp [Member.writtenTypes, generic, detail]
  apply Pledges.andThen (TypeSite.resolveBounds_scoped _ typeParams Rereads.names
    (fun reads param member bound written => reads.knows inside found bound
      (by rw [listed]; exact List.mem_append_left _ (List.mem_flatMap.mpr
        ⟨param, member, written⟩)))
    fun reads => generic ▸ reads.home inside found)
  intro _
  apply Pledges.bind (TypeSite.resolveArgs_scoped _ (params.map (·.declared)) Rereads.names
    fun reads type above => reads.knows inside found type
      (by rw [listed]; exact List.mem_append_right _ (List.mem_cons_of_mem _ above)))
  intro types
  have result : ∀ type : TypeRef,
      Pledges judgement declared patterned ((Rereads declared id original scope symbol member ∧
        types.length = (params.map (·.declared)).length ∧
        ∀ type ∈ types, judgement.Over (declared.inScope original) type) ∧
          judgement.Over (declared.inScope original) type) (do
      publishSignature symbol { type, params := types, typeParams := typeParams.map (·.id) }
      setMember id { member with
        type, detail := .method typeParams (Param.typed params types) body }) := by
    intro type
    refine finish_scoped inside found (fun facts => facts.1.1.symbol) (fun facts => ?_) And.right
      (fun facts => ?_)
      fun facts => ⟨facts.2, ?_⟩
    · rw [← facts.1.1.own, Member.ownParams, generic]
    · rw [← facts.1.1.written]
      simp only [Member.written, detail]
      rw [Param.map_typed (by simpa using facts.1.2.1) _ fun _ _ => rfl]
    · intro param inside
      obtain ⟨entry, zipped, rfl⟩ := List.mem_map.mp inside
      exact facts.1.2.2 _ (List.of_mem_zip zipped).2
  split
  · exact (result .void).assume fun both => ⟨both, .primitive rfl⟩
  · exact .bind (TypeSite.resolve_scoped _ _ (fun both => both.1.names) fun both =>
      both.1.knows inside found _ (by simp [listed])) result

/-- The first stage on a member. -/
theorem resolveTypes_scoped : Pledges judgement declared patterned given (resolveTypes id) := by
  apply Pledges.get
  intro work
  let start := given ∧ work.pool.Prefix judgement.pool ∧ work.Scoped judgement declared patterned
  have original_of (holds : start) {member : Member}
      (read : work.unit.members.get id = .ok member) : member.written = original.written :=
    holds.2.2.unit.written_eq found (MemberArena.lookup_of_get read)
  have scopes : Pledges judgement declared patterned start
      (liftM (TypeScope.forMember work.unit.members id)) (· = declared.scopeOf original) := by
    refine .lift fun scope answered holds => ?_
    exact Except.ok.inj (answered.symm.trans (holds.2.2.unit.forMember_eq inside found))
  apply Pledges.bind scopes
  intro scope
  have declaring : Pledges judgement declared patterned (start ∧ scope = declared.scopeOf original)
      (liftM (work.unit.symbol id)) fun symbol => declared.symbols[id]? = some symbol := by
    refine .lift fun symbol answered known => ?_
    unfold CompilationUnit.symbol at answered
    rw [known.1.2.2.unit.symbols] at answered
    split at answered
    · cases answered
      assumption
    · cases answered
  apply Pledges.bind declaring
  intro symbol
  have read : Pledges judgement declared patterned ((start ∧ scope = declared.scopeOf original) ∧
      declared.symbols[id]? = some symbol) (liftM (work.unit.members.get id)) fun member =>
        member.written = original.written := .lift fun _ answered both =>
          original_of both.1.1 answered
  apply Pledges.bind read
  intro member
  apply Pledges.assume (show _ → Rereads declared id original scope symbol member from
    fun facts => ⟨facts.1.1.2, facts.1.2, facts.2⟩)
  split
  · rename_i detail
    exact classTypes_scoped inside found detail
  · rename_i init detail
    apply Pledges.bind (TypeSite.resolve_scoped _ member.declared Rereads.names fun reads =>
      reads.knows inside found _ (by simp [Member.writtenTypes, detail]))
    intro type
    refine finish_scoped inside found (fun holding => holding.1.symbol) (fun holding => ?_)
      And.right (fun holding => ?_)
      fun holding => ⟨holding.2, ?_⟩
    · rw [← holding.1.own]
      simp [Member.ownParams, Member.typeParams, detail]
    · rw [← holding.1.written]
      simp [Member.written, detail]
    · simp [Member.params, detail]
  · rename_i detail
    exact methodTypes_scoped inside found detail

end

end StageM
end ClassLang
