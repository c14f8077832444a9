import ClassLang.Proofs.Stage.Lookup
import ClassLang.Proofs.Stage.Overriding

/-! What the third stage reports about inherited methods: only two of its rules say anything about
them, one for the classes and one for the methods. -/

namespace ClassLang

namespace StageM
variable {allowed : Diagnostic → Prop}

/-- Everything that the action reports is allowed. -/
def reporting (allowed : Diagnostic → Prop) : Promise StageM where
  holds action post := ∀ work, Ensures action work fun result after =>
    after.Reported allowed work.reports ∧ post result
  pure promised work := Ensures.pure ⟨⟨[], by simp, by simp⟩, promised⟩
  bind first rest work := Ensures.bind <|
    (first work).mono fun result between ⟨reported, promised⟩ =>
      (rest result promised between).mono fun _ _ ⟨more, holds⟩ => ⟨reported.trans more, holds⟩

abbrev Reports (allowed : Diagnostic → Prop) (action : StageM α) : Prop :=
  (reporting allowed).Meets action

/-- What leaves the reports alone reports nothing. -/
theorem reports_of_silent {action : StageM α}
    (silent : ∀ work, Ensures action work fun _ after => after.reports = work.reports) :
    Reports allowed action :=
  fun work => (silent work).mono fun _ after same => ⟨⟨[], by simp [same], by simp⟩, trivial⟩

theorem lift_reports {answer : Except Abort α} : Reports allowed (liftM answer : StageM α) :=
  reports_of_silent fun _ _ _ ran => congrArg (·.reports) (lift_eq_ok ran).2.symm

theorem get_reports : Reports allowed (get : StageM Workspace) :=
  reports_of_silent fun _ _ _ ran => by cases ran; rfl

theorem inspect_reports {query : Workspace → Except Abort α} : Reports allowed (inspect query) :=
  .bind get_reports fun _ => lift_reports

theorem onPool_reports {action : PoolM α} : Reports allowed (onPool action) := by
  refine reports_of_silent fun work result after ran => ?_
  obtain ⟨_, _, same⟩ := Except.bind_eq_ok ran
  cases same
  rfl

theorem withClasses_reports {action : ClassHierarchy → PoolM α} : Reports allowed
    (withClasses action) :=
  .bind get_reports fun _ => onPool_reports

theorem modifyUnit_reports (change : CompilationUnit → CompilationUnit) : Reports allowed
    (modifyUnit change) :=
  reports_of_silent fun _ _ _ ran => by cases ran; rfl

theorem reportAll_reports {diagnostics : List Diagnostic}
    (all : ∀ report ∈ diagnostics, allowed report) : Reports allowed (reportAll diagnostics) := by
  intro work _ after ran
  cases ran
  exact ⟨⟨diagnostics, rfl, all⟩, trivial⟩

theorem report_reports {diagnostic : Diagnostic} (holds : allowed diagnostic) : Reports allowed
    (report diagnostic) := by
  intro work _ after ran
  cases ran
  exact ⟨⟨[diagnostic], rfl, by simpa using holds⟩, trivial⟩

end StageM

theorem MatchGroup.compile_codes {group : MatchGroup} {hierarchy : ClassHierarchy}
    {store : PatternStore} {pool : TypePool} :
    Ensures (group.compile hierarchy store) pool fun result _ =>
      ∀ report ∈ result.1.2, report.code.concernsInherited = false := by
  have codes (coverage : Coverage) : ∀ report ∈ group.coverageReports coverage,
      report.code.concernsInherited = false := by
    have unreachable : ∀ report ∈ coverage.unreachable.filterMap (fun index =>
      (group.arms[index]?).map fun arm =>
        ({ code := .unreachablePattern, span := arm.span } : Diagnostic)),
          report.code.concernsInherited = false := by
      intro report member
      obtain ⟨index, _, found⟩ := List.mem_filterMap.mp member
      obtain ⟨arm, _, rfl⟩ := Option.map_eq_some_iff.mp found
      rfl
    unfold coverageReports
    dsimp only
    split
    · exact unreachable
    · exact List.forall_mem_append.mpr ⟨unreachable, by simp [Code.concernsInherited]⟩
  have checks : Ensures (group.check hierarchy store) pool fun result _ =>
      ∀ report ∈ result.2, report.code.concernsInherited = false := by
    refine Ensures.after fun coverage _ => ?_
    refine Ensures.after fun excused _ => ?_
    refine Ensures.after fun switchable _ => ?_
    exact Ensures.pure (codes _)
  refine Ensures.bind (checks.mono fun result _ refused => ?_)
  exact Ensures.after fun lowered _ => Ensures.pure refused

namespace StageM

/-- The action reports nothing about inherited methods. -/
abbrev Discreet (action : StageM α) : Prop := Reports Diagnostic.IsDiscreet action

/-- What any stage may report. -/
theorem Confined.discreet {action : StageM α} (confined : Confined .resolve 0 action) :
    Discreet action :=
  fun work result after ran =>
    ⟨((confined work).2 result after ran).2.2.mono fun _ mayReport => mayReport nofun, trivial⟩

end StageM

namespace Conformance
open StageM

variable {member classMember : Member}

theorem lowerMatch_discreet (index : Nat) : Discreet (lowerMatch index) := by
  refine .bind get_reports fun work => ?_
  dsimp only
  split
  · refine .bind get_reports fun between => ?_
    refine Promise.bind _ (fun start result after ran => ?_) fun outcome isDiscreet =>
      Promise.andThen _ (reportAll_reports isDiscreet) fun _ => modifyUnit_reports _
    obtain ⟨⟨_, _⟩, compiled, same⟩ := Except.bind_eq_ok ran
    cases same
    exact ⟨⟨[], by simp, by simp⟩, MatchGroup.compile_codes _ _ compiled⟩
  · exact .pure

theorem lowerMatches_discreet : Discreet (lowerMatches member) := by
  unfold lowerMatches
  split
  · refine .bind get_reports fun _ => ?_
    refine .bind lift_reports fun _ => ?_
    refine .bind lift_reports fun _ => ?_
    exact .forM fun index => lowerMatch_discreet index
  · exact .pure

/-- A type may be used where it is expected itself. -/
theorem isSupertype_self (allowed : Diagnostic → Prop) (type : TypeRef) :
    (reporting allowed).holds (withClasses (·.isSupertype type type)) (· = true) := by
  intro work answer after ran
  obtain ⟨⟨_, _⟩, asked, same⟩ := Except.bind_eq_ok ran
  cases same
  refine ⟨⟨[], by simp, by simp⟩, ?_⟩
  have related : (triviallyRelated type type).run work.pool = .ok (true, work.pool) := by
    simp [triviallyRelated]
  obtain ⟨⟨_, _⟩, first, continued⟩ := Except.bind_eq_ok asked
  cases related.symm.trans first
  cases continued
  rfl

/-- What a method overrides may be final, and its result or access may not fit; with the same result
and access only the former is reported. -/
theorem overrideRules_reports {allowed : Diagnostic → Prop} (owner : Name) {symbol : Symbol}
    {result : TypeRef} (final : ∀ report : Diagnostic, report.code = .overridesFinal →
      allowed report)
    (fits :
      (∀ args, allowed { code := .badOverride, span := member.span, args := member.name :: args }) ∨
      result = member.type ∧ member.access.weaker symbol.access = false) :
    Reports allowed (overrideRules member owner symbol result) := by
  have compatible : (reporting allowed).holds (withClasses (·.isSupertype result member.type))
      fun answer => answer = true ∨ ∀ args,
      allowed { code := .badOverride, span := member.span, args := member.name :: args } := by
    rcases fits with bad | ⟨rfl, -⟩
    · exact Promise.mono _ withClasses_reports fun _ _ => .inr bad
    · exact Promise.mono _ (isSupertype_self allowed _) fun _ => .inl
  have accessible : Reports allowed (do
      if member.access.weaker symbol.access then violation member.span .badOverride [member.name,
        owner ++ "." ++ symbol.name, "weaker access; was " ++ symbol.access.render] :
          StageM PUnit) := by
    split
    · rename_i weaker
      refine report_reports (fits.elim (· _) fun fitting =>
        absurd weaker (Bool.eq_false_iff.mp fitting.2))
    · exact .pure
  unfold overrideRules
  dsimp only
  split
  on_goal 1 => refine .bind (report_reports (final _ rfl)) fun _ => ?_
  all_goals
    refine Promise.bind _ compatible fun answer either => ?_
    cases answer with
    | true => exact accessible
    | false =>
      refine Promise.andThen _ inspect_reports fun own => ?_
      refine Promise.andThen _ inspect_reports fun other => ?_
      exact Promise.andThen _ (report_reports (either.resolve_left nofun _)) fun _ => accessible

end Conformance

/-- The types that tell what a member inherits: that of the class it stands in, of its parameters,
and its own. -/
structure MemberTrees where
  owner : TypeTree
  params : List TypeTree
  type : TypeTree

namespace Member

/-- The method has the result of the one that it overrides, wherever that is inherited, and no
weaker access. -/
structure Fits (member : Member) (pool : TypePool) (types : MemberTrees)
    (symbol : Symbol) : Prop where
  result : ∀ signature, symbol.signature = some signature →
    ∀ subst : TreeSubstitution, (pool.tree signature.type).instantiate subst = types.type
  access : member.access.weaker symbol.access = false

/-- What accounts for a report about inherited methods: a class lacks one, a method marked as
overriding has none to override, or does not fit the nearest one. -/
inductive Explains (member : Member) (table : SymbolTable) (pool : TypePool) (types : MemberTrees)
    (report : Diagnostic) : Prop
  | missing (isClass : member.isClass = true) (isConcrete : member.isConcrete = true)
      {method : SeenMethod} (lacks : method ∈ table.missingMethods pool types.type)
      (same : report.key = (method.missing member).key)
  | nothing (isMethod : member.isMethod = true) (shared : member.modifiers.isStatic = false)
      (same : report.key = (.overridesNothing, member.span, [member.name]))
      (none : table.overridden? pool types.owner member.name types.params = none)
  | misfit (isMethod : member.isMethod = true) (shared : member.modifiers.isStatic = false)
      {args : List String} (same : report.key = (.badOverride, member.span, member.name :: args))
      (fails : ∀ method, table.overridden? pool types.owner member.name types.params = some method →
        ¬ member.Fits pool types method.symbol)

/-- The types of a member of the pool. -/
def trees (member class_ : Member) (pool : TypePool) : MemberTrees where
  owner := pool.tree class_.type
  params := member.params.map (pool.tree ·.type)
  type := pool.tree member.type

/-- If the report is about inherited methods, the member explains it. -/
abbrev Accounts (member : Member) (table : SymbolTable) (pool : TypePool) (types : MemberTrees)
    (report : Diagnostic) : Prop :=
  report.code.concernsInherited = true → member.Explains table pool types report

end Member

namespace Conformance
open StageM TypePool Workspace

variable {work : Workspace} {member classMember : Member} {id : Nat}

/-- A violation is all that is added to the reports. -/
theorem violation_reported {accounts : Diagnostic → Prop} {floor : List Diagnostic}
    (same : work.reports = floor) (span : Span) (code : Code) (args : List String)
    (all : ∀ after, Leads Eq work after → after.Sound → after.pool.Small →
      accounts { code := code, span, args }) :
    Asks False (violation span code args) work fun _ after => after.pool.Small →
    after.Reported accounts floor := by
  have told : Ensures (violation span code args) work fun _ after =>
    after.reports = work.reports ++ [{ code := code, span, args }] := by
    intro _ after ran
    cases ran
    rfl
  refine ((violation_asks span code args).also fun _ => told).mono ?_
  rintro _ after final soundAfter ⟨_, added⟩ small
  exact ⟨_, added.trans (congrArg (· ++ _) same), by simpa using all after final soundAfter small⟩

variable {start : TypePool} {table : SymbolTable} {floor : List Diagnostic}

/-- What is reported of a method against the one that it overrides is explained: it does not fit
it. -/
theorem overrideRules_explains (valid : start.Valid) (grown : start.Growth work.pool)
    (soundNow : work.Sound) (same : work.reports = floor) (isMethod : member.isMethod = true)
    (shared : member.modifiers.isStatic = false) (typed : member.Typed start) {owner : Name}
    {symbol : Symbol} {result : TypeRef}
    (overridden : SymbolTable.OverriddenResult start symbol result work.pool)
    (nearest : work.pool.Small → some (owner, symbol) =
      (table.overridden? start (start.tree classMember.type) member.name
        (member.params.map (start.tree ·.type))).map
        fun method => (method.owner, method.symbol)) :
    Asks False (overrideRules member owner symbol result) work fun _ after => after.pool.Small →
      after.Reported (member.Accounts table start (member.trees classMember start)) floor := by
  obtain ⟨held, signature, published, subst, seen⟩ := overridden
  have rules : Ensures (overrideRules member owner symbol result) work fun _ after =>
    ∀ allowed : Diagnostic → Prop,
      (∀ report : Diagnostic, report.code = .overridesFinal → allowed report) →
      ((∀ args,
        allowed { code := .badOverride, span := member.span, args := member.name :: args }) ∨
        result = member.type ∧ member.access.weaker symbol.access = false) →
        after.Reported allowed floor := by
    intro _ after ran allowed final fits
    exact same ▸ (overrideRules_reports owner final fits work _ after ran).1
  refine ((overrideRules_asks (grown.has typed.type) owner symbol held).also fun _ => rules).mono ?_
  rintro _ after last soundAfter ⟨-, reported⟩ small
  have smallNow := (last.growth soundAfter).small small
  obtain ⟨method, found, equal⟩ := Option.map_eq_some_iff.mp (nearest smallNow).symm
  obtain ⟨rfl, rfl⟩ := Prod.mk.inj equal
  refine reported _ (fun report code concerns => ?_) ?_
  · rw [code] at concerns
    cases concerns
  · by_cases fits : member.Fits start (member.trees classMember start) method.symbol
    · refine .inr ⟨soundNow.valid.tree_injective result member.type held (grown.has typed.type) ?_,
        fits.access⟩
      rw [seen smallNow, grown.tree_eq valid typed.type]
      exact fits.result signature published subst
    · refine .inl fun args _ => .misfit isMethod shared rfl fun other answer => ?_
      cases found.symm.trans answer
      exact fits

/-- What is reported of a method against the inherited ones is explained by the nearest one, if
there is one. -/
theorem overriding_reports (valid : start.Valid) (held : work.symbols.HeldBy start)
    (grown : start.Growth work.pool) (sized : work.symbols.Sized)
    (isMethod : member.isMethod = true) (typed : member.Typed start)
    (classTyped : start.Has classMember.type) :
    Asks False (overriding member classMember) work fun _ after => after.pool.Small →
      after.Reported (member.Accounts work.symbols start (member.trees classMember start))
        work.reports := by
  let types := member.trees classMember start
  have silent {α : Type} {action : PoolM α} {work : Workspace} :
      Ensures (StageM.onPool action) work fun _ after => after.reports = work.reports := by
    intro _ after ran
    obtain ⟨_, _, same⟩ := Except.bind_eq_ok ran
    cases same
    rfl
  unfold overriding
  split
  · exact Works.pure fun _ => ⟨[], by simp, by simp⟩
  rename_i instance_
  have shared : member.modifiers.isStatic = false := Bool.eq_false_iff.mpr instance_
  refine Works.ofSound fun sound => Works.get ?_
  have listing := ClassHierarchy.ancestors_denotes valid (held.hierarchy valid) grown
    ((Denotes.self classTyped).grow valid grown)
  refine Works.bind (Works.get ((Works.builds listing).also fun _ => silent)) ?_
  rintro ancestors first led soundFirst ⟨listed, sameFirst⟩
  have growth := grown.trans (led.growth soundFirst)
  have above : first.pool.DenotesAll (ancestors.drop 1)
      (((work.hierarchy.unfold start).ancestors types.owner).drop 1) :=
    ⟨fun ancestor member => listed.has ancestor (List.mem_of_mem_drop member), fun small => by
      rw [List.map_drop, listed.reads small]; rfl⟩
  have given : first.pool.DenotesAll (member.params.map (·.type)) types.params := by
    refine DenotesAll.grow ⟨fun type present => ?_, fun _ => List.map_map⟩ valid growth
    obtain ⟨param, own, rfl⟩ := List.mem_map.mp present
    exact typed.params param own
  have searching := @SymbolTable.findOverridden?_reads work.symbols start first.pool member.name
    (member.params.map (·.type)) types.params valid held sized growth _ _ above given
  refine Works.bind ((Works.builds searching).also fun _ => silent) ?_
  rintro found second more soundSecond ⟨⟨inside, reads⟩, sameSecond⟩
  have floorSecond : second.reports = work.reports := sameSecond.trans sameFirst
  have answer (small : second.pool.Small) : found.map (fun entry => (entry.1, entry.2.1)) =
      (work.symbols.overridden? start types.owner member.name types.params).map fun method =>
        (method.owner, method.symbol) :=
    reads small
  rcases found with _ | ⟨owner, symbol, result⟩
  · have nearest (small : second.pool.Small) :
        work.symbols.overridden? start types.owner member.name types.params = none :=
      Option.map_eq_none_iff.mp (answer small).symm
    dsimp only
    split
    · have asking : PoolM.Settles (work.symbols.hasOverridable member.name
          (member.params.map (·.type)).length (ancestors.drop 1)) second.pool :=
        SymbolTable.hasOverridable_settles _ _ fun ancestor member =>
          (more.growth soundSecond).has (above.has ancestor member)
      refine Works.bind ((Works.builds asking).also fun _ => silent)
        fun overridable third last soundThird ⟨_, sameThird⟩ => ?_
      have none (after : Workspace) (final : Leads Eq third after) (soundAfter : after.Sound)
          (small : after.pool.Small) :=
        nearest (((last.growth soundThird).trans (final.growth soundAfter)).small small)
      cases overridable with
      | true =>
        refine violation_reported (sameThird.trans floorSecond) _ _ _
          fun after final soundAfter small _ => ?_
        refine .misfit isMethod shared rfl fun method known => ?_
        cases (none after final soundAfter small).symm.trans known
      | false =>
        exact violation_reported (sameThird.trans floorSecond) _ _ _
          fun after final soundAfter small _ =>
            .nothing isMethod shared rfl (none after final soundAfter small)
    · exact Works.pure fun _ => ⟨[], by simp [floorSecond], by simp⟩
  · exact overrideRules_explains valid (growth.trans (more.growth soundSecond)) soundSecond
      floorSecond isMethod shared typed (inside _ rfl) answer

/-- What is done for every kind of member says nothing about inherited methods. -/
theorem checkRest_discreet (unit : CompilationUnit) : Discreet (do
    access member (← unit.classOf id)
    bounds id
    lowerMatches member) := by
  refine .bind lift_reports fun _ => ?_
  refine .bind access_confined.discreet fun _ => ?_
  refine .bind (bounds_confined id).discreet fun _ => ?_
  exact lowerMatches_discreet

end Conformance

namespace StageM
open Conformance CompilationUnit Workspace

variable {work : Workspace} {id : Nat} {member class_ : Member}

section Rest
variable {accounts : Diagnostic → Prop} {floor : List Diagnostic}
    (plain : ∀ report : Diagnostic, report.IsDiscreet → accounts report)
  (sound : work.Sound) (found : work.unit.members.members[id]? = some member)
  (typed : work.unit.Typed work.pool) {second : Workspace} (more : Leads Lowers work second)
  (same : second.unit = work.unit) (reported : ∀ after, Leads Lowers second after → after.Sound →
    after.pool.Small → second.Reported accounts floor)
include plain sound found typed more same reported

/-- What follows for every kind of member accounts for itself. -/
theorem checkRest_reported : Works False (Leads Lowers) (do
      access member (← work.unit.classOf id)
      bounds id
      lowerMatches member) second fun _ after => after.pool.Small →
        after.Reported accounts floor := by
  refine ((checkRest_works sound found typed ⟨False.elim, False.elim⟩ False.elim more same).also
    fun _ => checkRest_discreet work.unit second).mono ?_
  rintro _ after last soundAfter ⟨-, reportedRest, -⟩ small
  exact (reported after last soundAfter small).trans (reportedRest.mono plain)

/-- So does what follows for fields and methods. -/
theorem checkTypes_reported (owned : work.unit.classOf id = .ok class_)
    (soundSecond : second.Sound) : Works False (Leads Lowers) (do
      assignability member
      variance member (← work.unit.classOf id)
      access member (← work.unit.classOf id)
      bounds id
      lowerMatches member) second fun _ after => after.pool.Small →
        after.Reported accounts floor := by
  have own := (typed id member found).grow (more.growth soundSecond).within
  refine Works.bind ((Works.asking (assignability_asks own.type False.elim)).also fun _ =>
    assignability_confined.discreet second) ?_
  rintro _ third ledThird soundThird ⟨⟨sameThird, -⟩, reportedThird, -⟩
  refine Works.lift (fun _ => ⟨class_, owned⟩) fun read again => ?_
  cases owned.symm.trans again
  refine Works.bind
    ((Works.asking (variance_asks (own.grow (ledThird.growth soundThird).within) class_)).also
    fun _ => variance_confined.discreet third) ?_
  rintro _ fourth ledFourth soundFourth ⟨⟨sameFourth, -⟩, reportedFourth, -⟩
  refine checkRest_reported plain sound found typed
    (trans_of _ more (trans_of _ ledThird ledFourth)) (sameFourth.trans (sameThird.trans same)) ?_
  intro after last soundAfter small
  have before := reported after (trans_of _ ledThird (trans_of _ ledFourth last)) soundAfter small
  exact before.trans ((reportedThird.trans reportedFourth).mono plain)

end Rest

/-- When a member is checked, it explains what is reported about inherited methods. -/
theorem checkMember_explains (sized : work.symbols.Sized)
    (found : work.unit.members.members[id]? = some member) (typed : work.unit.Typed work.pool)
    (owned : work.unit.classOf id = .ok class_) :
    Works False (Leads Lowers) (checkMember id) work fun _ after => after.pool.Small →
      after.Reported (member.Accounts work.symbols work.pool (member.trees class_ work.pool))
        work.reports := by
  refine Works.ofSound fun sound => Works.get ?_
  refine Works.lift (fun _ => ⟨member, MemberArena.get_eq found⟩) fun read same => ?_
  cases (MemberArena.get_eq found).symm.trans same
  have own := typed id member found
  have symbols := sound.program.symbols
  have plain (report : Diagnostic) (discreet : report.IsDiscreet) :
      member.Accounts work.symbols work.pool (member.trees class_ work.pool) report :=
    fun concerns => absurd (discreet.symm.trans concerns) nofun
  obtain ⟨top, there⟩ : ∃ top, work.unit.members.members[top]? = some class_ := by
    obtain ⟨top, other, ran, there⟩ := sound.laid.classOf_eq found
    cases owned.symm.trans ran
    exact ⟨top, there⟩
  have classTyped := (typed top class_ there).type
  refine Works.bind ((Works.asking (duplicates_asks found)).also fun _ =>
    (duplicates_confined id).discreet work) ?_
  rintro _ first led soundFirst ⟨⟨sameFirst, -⟩, reportedFirst, -⟩
  have growth := led.growth soundFirst
  dsimp only
  cases detail : member.detail with
  | class_ =>
    have isClass : member.isClass = true := by simp [Member.isClass, detail]
    have held : work.pool.Has member.type := own.type
    have reports := fun sound => implementation_reports sound (growth.has held)
    refine Works.bind (Works.asking ((implementation_asks (growth.has held)).also reports)) ?_
    rintro _ second more soundSecond ⟨sameSecond, -, told⟩
    refine checkRest_reported plain sound found typed (trans_of _ led more)
      (sameSecond.trans sameFirst) ?_
    intro after last soundAfter small
    refine (reportedFirst.mono plain).trans
      ⟨_, told ((last.growth soundAfter).small small), fun report listed _ => ?_⟩
    split at listed
    · rename_i isConcrete
      obtain ⟨method, missing, rfl⟩ := List.mem_map.mp listed
      rw [led.symbols, SymbolTable.missingMethods_eq symbols sound.valid growth,
        growth.tree_eq sound.valid held] at missing
      exact .missing isClass isConcrete missing rfl
    · cases listed
  | method =>
    have isMethod : member.isMethod = true := by simp [Member.isMethod, detail]
    refine Works.lift (fun _ => ⟨class_, owned⟩) fun read same => ?_
    cases owned.symm.trans same
    have overrides := overriding_reports sound.valid (led.symbols ▸ symbols) growth
      (led.symbols ▸ sized) isMethod own classTyped
    refine Works.bind (Works.asking overrides) ?_
    rintro _ second more soundSecond ⟨sameSecond, told⟩
    refine checkTypes_reported plain sound found typed (trans_of _ led more)
      (sameSecond.trans sameFirst) ?_ owned soundSecond
    intro after last soundAfter small
    rw [led.symbols] at told
    exact (reportedFirst.mono plain).trans (told ((last.growth soundAfter).small small))
  | field =>
    exact checkTypes_reported plain sound found typed led sameFirst
      (fun _ _ _ _ => reportedFirst.mono plain) owned soundFirst

end StageM
end ClassLang
