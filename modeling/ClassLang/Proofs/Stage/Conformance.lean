import ClassLang.Proofs.Source.Walk
import ClassLang.Proofs.Stage.Bodies
import ClassLang.Stage.Conformance

/-! The third stage: the rules are checked to their end, whatever they find, and a match that is not
reported covers the classes of its subject. -/

namespace ClassLang

/-- A match whose arms all take classes apart names every class of its subject. -/
def Program.Covers (program : Program) (arena : Arena) (groups : IdMap MatchGroup) (index : Nat) :
    Prop :=
  ∀ group scrutinee arms span, groups.get? index = some group →
    arena.exprs[index]? = some ⟨.matchOn scrutinee arms, span⟩ →
    (∀ arm ∈ arms, ∃ class_, arena.TakesClass arm.pattern class_) →
    ∀ name, program.pool.types[group.subject.raw]? = some (.class_ name) →
    ∀ root ∈ program.symbols.hierarchy.roots name, ∃ arm ∈ arms, arena.TakesClass arm.pattern root

theorem Program.Covers.grow {before after : Program} {arena : Arena} {groups : IdMap MatchGroup}
    {index : Nat} (covers : before.Covers arena groups index)
    (types : TypePool.Prefix before.pool after.pool) (symbols : after.symbols = before.symbols)
    (held : ∀ group, groups.get? index = some group → before.pool.Has group.subject) :
    after.Covers arena groups index := by
  intro group scrutinee arms span found read classes name stored root member
  obtain ⟨node, old⟩ := (held group found).lookup
  have same := (types.entries _ _ old).symm.trans stored
  cases same
  rw [symbols] at member
  exact covers group scrutinee arms span found read classes name old root member

/-- Only the patterns are marked and code is recorded. -/
structure CompilationUnit.Lowers (before after : CompilationUnit) : Prop where
  rest : after = { before with patterns := after.patterns, lowered := after.lowered }
  patterns : before.patterns.Keeps after.patterns

namespace CompilationUnit

instance : IsPreorder CompilationUnit Lowers where
  refl unit := ⟨rfl, .refl _⟩
  trans _ _ _ earlier later := by
    refine ⟨?_, earlier.patterns.trans later.patterns⟩
    rw [later.rest, earlier.rest]

variable {before after : CompilationUnit}

theorem Lowers.evolves (lowers : before.Lowers after) : before.Evolves after := by
  rw [lowers.rest]
  exact ⟨rfl, fun _ member found => ⟨member, found, .refl member⟩, rfl, rfl, rfl,
    fun _ isSome => isSome⟩

theorem Lowers.members (lowers : before.Lowers after) : after.members = before.members := by
  rw [lowers.rest]

theorem Lowers.groups (lowers : before.Lowers after) : after.matchGroups = before.matchGroups := by
  rw [lowers.rest]

/-- The type recorded for an expression is in the pool. -/
theorem Recorded.has_typeOf {unit : CompilationUnit} {pool : TypePool} {symbols : Nat}
    (recorded : unit.Recorded pool symbols) (valid : pool.Valid) (ref : ExprRef) :
    pool.Has (unit.typeOf ref) := by
  cases ref with
  | missing => exact valid.has_any
  | node index =>
    cases found : unit.exprTypes.get? index with
    | none => simpa [typeOf, found] using valid.has_any
    | some type => simpa [typeOf, found] using recorded.types index type found

end CompilationUnit

namespace Conformance
open TypePool Workspace CompilationUnit StageM

variable {total : Prop} {work : Workspace} {id : Nat} {member classMember : Member}

theorem violation_asks (span : Span) (code : Code) (args : List String) :
    Asks total (violation span code args) work fun _ _ => True :=
  Works.report rfl

theorem duplicates_asks (found : work.unit.members.members[id]? = some member) :
    Asks total (duplicates id member) work fun _ _ => True := by
  refine Works.ofSound fun sound => Works.get ?_
  have judge : ∀ (duplicate : Bool) (between : Workspace), Asks total
      (if duplicate then violation member.span .duplicate [member.name] else Pure.pure ()) between
      fun _ _ => True := by
    intro duplicate between
    split
    · exact violation_asks _ _ _
    · exact Works.pure trivial
  dsimp only
  cases detail : member.detail with
  | class_ =>
    obtain ⟨symbol, ran, _⟩ := sound.laid.symbol_ok (Array.getElem?_eq_some_iff.mp found).1
    exact Works.lift (fun _ => ⟨symbol, ran⟩) fun own _ => judge _ work
  | field init | method =>
    -- A field or a method is compared with the members before it in its class.
    cases owner : member.owner with
    | none => exact judge false work
    | some outer =>
      obtain ⟨class_, there, _⟩ := sound.laid.owners id member found outer owner
      refine Works.lift (fun _ => ⟨class_, MemberArena.get_eq there⟩) fun read same => ?_
      rw [MemberArena.get_eq there] at same
      cases same
      refine Works.bind (Works.anyM fun sibling listed between _ _ => ?_)
        fun duplicate between _ _ _ => judge duplicate between
      have inside := sound.laid.members outer class_ there sibling (List.takeWhile_subset _ listed)
      exact Works.lift (fun _ => MemberArena.get_ok inside) fun _ _ => Works.pure trivial

theorem implementation_asks (typed : work.pool.Has member.type) :
    Asks total (implementation member) work fun _ _ => True := by
  unfold implementation
  split
  · exact Works.pure trivial
  · refine Works.ofSound fun sound => Works.get ?_
    refine Works.bind
      (Works.builds (SymbolTable.inheritedMethods_settles sound.program.symbols typed))
      fun methods _ _ _ _ => ?_
    exact Works.forM trivial fun method _ _ _ _ _ => violation_asks _ _ _

theorem overrideRules_asks (typed : work.pool.Has member.type) (owner : Name) (symbol : Symbol)
    {result : TypeRef} (held : work.pool.Has result) :
    Asks total (overrideRules member owner symbol result) work fun _ _ => True := by
  have judgeAccess : ∀ between : Workspace,
      Asks total (if member.access.weaker symbol.access then
        violation member.span .badOverride [member.name, owner ++ "." ++ symbol.name,
          "weaker access; was " ++ symbol.access.render]
      else Pure.pure ()) between fun _ _ => True := by
    intro between
    split
    · exact violation_asks _ _ _
    · exact Works.pure trivial
  have judgeResult : ∀ between : Workspace, work.Leads Eq between → between.Sound → Asks total (do
      unless ← StageM.withClasses (·.isSupertype result member.type) do
        let own ← StageM.display member.type
        let other ← StageM.display result
        violation member.span .badOverride [member.name, owner ++ "." ++ symbol.name,
          "return type `" ++ own ++ "` is not compatible with `" ++ other ++ "`"]
      if member.access.weaker symbol.access then
        violation member.span .badOverride [member.name, owner ++ "." ++ symbol.name,
          "weaker access; was " ++ symbol.access.render]) between fun _ _ => True := by
    intro between led sound
    have growth := led.growth sound
    refine Works.bind (BodyM.isSupertype_asks (growth.has held) (growth.has typed))
      fun fits first more soundFirst _ => ?_
    have whole := growth.trans (more.growth soundFirst)
    cases fits with
    | true => exact judgeAccess first
    | false =>
      refine Works.bind (Works.display (whole.has typed)) fun own second last soundSecond _ => ?_
      refine Works.bind (Works.display ((last.growth soundSecond).has (whole.has held)))
        fun other third _ _ _ => ?_
      exact Works.bind (violation_asks _ _ _) fun _ fourth _ _ _ => judgeAccess fourth
  refine Works.ofSound fun sound => ?_
  unfold overrideRules
  dsimp only
  split
  · exact Works.bind (violation_asks _ _ _) fun _ between led soundBetween _ =>
      judgeResult between led soundBetween
  · exact judgeResult work (refl_of _ _) sound

theorem overriding_asks (typed : work.pool.Has member.type)
    (classTyped : work.pool.Has classMember.type) :
    Asks total (overriding member classMember) work fun _ _ => True := by
  unfold overriding
  split
  · exact Works.pure trivial
  refine Works.ofSound fun sound => Works.get ?_
  have listing : PoolM.Builds (work.hierarchy.ancestors classMember.type) work.pool
      fun ancestors after => ∀ ancestor ∈ ancestors, after.Has ancestor :=
    (PoolM.Builds.ancestors classTyped sound.hierarchy).mono fun _ _ _ listed => listed.has
  refine Works.bind (Works.withClasses (listing.works total))
    fun ancestors first led soundFirst listed => ?_
  have growth := led.growth soundFirst
  have above : ∀ ancestor ∈ ancestors.drop 1, first.pool.Has ancestor :=
    fun ancestor member => listed ancestor (List.mem_of_mem_drop member)
  have tableHere : work.symbols.HeldBy first.pool := sound.program.symbols.grow growth.within
  have searching := SymbolTable.findOverridden?_builds tableHere member.name
    (member.params.map (·.type)) above
  refine Works.bind (Works.builds searching) fun found second more soundSecond resultHere => ?_
  have whole := growth.trans (more.growth soundSecond)
  rcases found with _ | ⟨owner, symbol, result⟩
  · dsimp only
    split
    · have asking : PoolM.Settles (work.symbols.hasOverridable member.name
          (member.params.map (·.type)).length (ancestors.drop 1)) second.pool :=
        SymbolTable.hasOverridable_settles _ _
          fun ancestor listed => (more.growth soundSecond).has (above ancestor listed)
      refine Works.bind (Works.builds asking) fun overridable _ _ _ _ => ?_
      cases overridable <;> exact violation_asks _ _ _
    · exact Works.pure trivial
  · exact overrideRules_asks (whole.has typed) owner symbol (resultHere (owner, symbol, result) rfl)

theorem assignability_asks (typed : work.pool.Has member.type)
    (inside : total → member.BodyIn work.unit.arena) :
    Asks total (assignability member) work fun _ _ => True := by
  unfold assignability
  cases hasBody : member.body with
  | none => exact Works.pure trivial
  | some body =>
    dsimp only
    split
    · exact Works.pure trivial
    refine Works.ofSound fun sound => Works.get ?_
    have found := sound.recorded.has_typeOf sound.valid body
    refine Works.bind (BodyM.isSupertype_asks typed found) fun fits first led soundFirst _ => ?_
    have growth := led.growth soundFirst
    cases fits with
    | true => exact Works.pure trivial
    | false =>
      refine Works.bind (BodyM.spanOf_works fun sure => ?_) fun span second more soundSecond _ => ?_
      · rw [← led.unit]
        exact inside sure body hasBody
      · have whole := growth.trans (more.growth soundSecond)
        exact Works.mismatch (whole.has typed) (whole.has found) span

theorem variance_asks (typed : member.Typed work.pool) (classMember : Member) :
    Asks total (variance member classMember) work fun _ _ => True := by
  unfold variance
  split
  · exact Works.pure trivial
  refine Works.ofSound fun sound => Works.get ?_
  have positions : ∀ entry ∈ signaturePositions member, work.pool.Has entry.1 := by
    intro entry listed
    unfold signaturePositions at listed
    split at listed
    · rw [List.mem_singleton.mp listed]
      exact typed.type
    · rename_i params _ detail
      rcases List.mem_append.mp listed with param | result
      · obtain ⟨declared, present, rfl⟩ := List.mem_map.mp param
        exact typed.params declared (by simpa [Member.params, detail] using present)
      · rw [List.mem_singleton.mp result]
        exact typed.type
    · cases listed
  have judge : Asks total ((signaturePositions member).mapM fun entry =>
      liftM (work.pool.varianceConflicts work.hierarchy entry.1 entry.2)) work
      fun faults after => ∀ list ∈ faults, ∀ fault ∈ list, fault.HeldBy after.pool := by
    refine Works.mapM (fun list before after led soundAfter held fault present =>
      (held fault present).grow (led.growth soundAfter))
        fun entry listed between led soundBetween => ?_
    obtain ⟨faults, read, held⟩ :=
      sound.valid.varianceConflicts_ok sound.hierarchy (positions entry listed) entry.2
    intro _
    refine Works.lift_runs (fun _ => ⟨faults, read⟩) fun answer same => ?_
    cases read.symm.trans same
    exact ⟨refl_of _ _, soundBetween, fun fault present =>
      (held fault present).grow (led.growth soundBetween)⟩
  refine Works.bind judge fun faults first _ _ held => ?_
  refine Works.forM trivial fun fault listed between led soundBetween _ => ?_
  obtain ⟨list, present, inList⟩ := List.mem_flatten.mp listed
  exact Works.reportFault ((held list present fault inList).grow (led.growth soundBetween)) _

theorem mayAccess_asks (unit : Nat) (classTyped : work.pool.Has classMember.type)
    (symbol : Symbol) : Asks total (mayAccess unit classMember symbol) work fun _ _ => True := by
  unfold mayAccess
  dsimp only
  split
  any_goals exact Works.pure trivial
  split
  · exact Works.pure trivial
  · refine Works.bind (Works.builds (PoolM.Builds.class_ _))
      fun ownerType first led sound denotes => ?_
    have asked := ClassHierarchy.isSuperclass_settles sound.hierarchy denotes.has
      ((led.growth sound).has classTyped)
    exact Works.get (Works.builds asked)

theorem access_asks (ready : work.Ready total) (inside : total → member.BodyIn work.unit.arena)
    (classTyped : work.pool.Has classMember.type) :
    Asks total (access member classMember) work fun _ _ => True := by
  unfold access
  cases hasBody : member.body with
  | none => exact Works.pure trivial
  | some body =>
    refine Works.ofSound fun sound => Works.get ?_
    refine Works.lift (fun sure => ?_) fun visited walked => ?_
    · obtain ⟨index, below, rfl⟩ := inside sure body hasBody
      exact (ready.arena sure).walk_ok below
    refine Works.forM trivial fun index listed between led soundBetween _ => ?_
    cases refers : (work.unit.resolutions.get? index).bind (·.symbol?) with
    | none => exact Works.pure trivial
    | some symbolId =>
      obtain ⟨resolution, stored, names⟩ := Option.bind_eq_some_iff.mp refers
      have present : symbolId < between.symbols.size := by
        rw [led.symbols]
        exact sound.recorded.resolutions index resolution symbolId stored names
      refine Works.inspect (fun _ => SymbolTable.get_ok present) fun symbol _ => ?_
      refine Works.bind (mayAccess_asks _ ((led.growth soundBetween).has classTyped) symbol)
        fun allowed _ _ _ _ => ?_
      cases allowed with
      | true => exact Works.pure trivial
      | false =>
        obtain ⟨expr, found⟩ := Arena.lookup_of_walk walked listed
        refine Works.lift (fun _ => ⟨expr.span, ?_⟩) fun _ _ => violation_asks _ _ _
        simp [Arena.span, Arena.expr_eq found, Except.map]

theorem bounds_asks (id : Nat) : Asks total (bounds id) work fun _ _ => True := by
  refine Works.ofSound fun sound => Works.get ?_
  refine Works.forM trivial fun usage listed first led soundFirst _ => Works.get ?_
  have usageHere := (led.growth soundFirst).has
    (sound.recorded.boundUses usage (List.mem_filter.mp listed).1)
  have binding : PoolM.Builds (first.symbols.ancestorBindings usage.type) first.pool
      fun found after => ∀ entry ∈ found, entry.2.HeldBy after :=
    SymbolTable.ancestorBindings_builds usageHere
  refine Works.bind (Works.builds binding) fun found second more soundSecond bound => ?_
  rcases found with _ | ⟨base, subst⟩
  · exact Works.pure trivial
  have growth := more.growth soundSecond
  obtain ⟨args, read, argsHere, _⟩ := soundSecond.valid.args_eq (growth.has usageHere)
  refine Works.inspect (fun _ => ⟨args, read⟩) fun answer same => ?_
  cases read.symm.trans same
  refine Works.forM trivial fun entry paired third further soundThird _ => ?_
  obtain ⟨param, argument⟩ := entry
  obtain ⟨declared, given⟩ := List.of_mem_zip paired
  have later := further.growth soundThird
  have paramHere :=
    later.declares (growth.declares (soundFirst.hierarchy.params base param declared))
  have argumentHere := later.has (argsHere argument given)
  have judging := ClassHierarchy.violatedBound?_builds soundThird.hierarchy paramHere argumentHere
    ((bound (base, subst) rfl).grow later)
  refine Works.bind (Works.withClasses (judging.works total))
    fun violated fourth last soundFourth boundHere => ?_
  cases violated with
  | none => exact Works.pure trivial
  | some type =>
    have final := last.growth soundFourth
    have held : (TypeFault.outsideBound param argument type).HeldBy fourth.pool :=
      ⟨final.declares paramHere, final.has argumentHere, boundHere type rfl⟩
    exact Works.reportFault held _

/-- A node is judged when an error is reported, or its classes are covered. -/
def Judged (work : Workspace) (index : Nat) : Prop :=
  (∃ report ∈ work.reports, report.isError) ∨
    work.toProgram.Covers work.unit.arena work.unit.matchGroups index

theorem Judged.lead {before after : Workspace} {index : Nat} (judged : Judged before index)
    (sound : before.Sound) (led : before.Leads Lowers after) : Judged after index := by
  rcases judged with ⟨report, present, severe⟩ | covers
  · obtain ⟨added, same, _⟩ := led.reports
    exact .inl ⟨report, by simp [same, present], severe⟩
  · refine .inr ?_
    rw [led.unit.evolves.arena, led.unit.groups]
    exact covers.grow led.pool.types led.symbols
      fun group found => (sound.recorded.groups index group found).subject

/-- The classes of the typed arms are those of the written ones. -/
theorem covers_of_coversRoots {index : Nat} {group : MatchGroup} (sound : work.Sound)
    (found : work.unit.matchGroups.get? index = some group)
    (covers : work.hierarchy.CoversRoots work.pool work.unit.patterns (group.arms.map (·.pattern))
      group.subject) : work.toProgram.Covers work.unit.arena work.unit.matchGroups index := by
  intro other scrutinee arms span same read classes name stored root member
  rw [found] at same
  cases same
  have copies := sound.recorded.copies index group scrutinee arms span found read
  have typed : ∀ id, some id ∈ group.arms.map (·.pattern) → ∃ arm ∈ arms, ∃ class_,
      work.unit.arena.TakesClass arm.pattern class_ ∧ work.unit.patterns.TakesClass id class_ := by
    intro id present
    obtain ⟨arm, listed, takes⟩ := copies id present
    obtain ⟨class_, written⟩ := classes arm listed
    exact ⟨arm, listed, class_, written, takes class_ written⟩
  obtain ⟨id, present, takes⟩ := covers name stored (fun id present => by
    obtain ⟨_, _, class_, _, copied⟩ := typed id present
    exact ⟨class_, copied⟩) root member
  obtain ⟨arm, listed, class_, written, copied⟩ := typed id present
  cases copied.unique takes
  exact ⟨arm, listed, written⟩

theorem lowerMatch_works (grounded : total → work.pool.Grounded) (index : Nat) :
    Works total (Leads Lowers) (lowerMatch index) work fun _ after => Judged after index := by
  refine Works.ofSound fun sound => Works.get ?_
  cases found : work.unit.matchGroups.get? index with
  | none =>
    refine Works.pure (.inr fun group _ _ _ stored => ?_)
    rw [found] at stored
    cases stored
  | some group =>
    refine Works.get ?_
    have compiling := MatchGroup.compile_works sound.hierarchy grounded sound.recorded.patterns
      (sound.recorded.groups index group found)
    refine Works.bind (Works.asking (Works.withClasses compiling)) ?_
    rintro ⟨⟨analysis, reports⟩, lowered, patterns⟩ first led soundFirst
      ⟨sameFirst, marked, standard, covers⟩
    refine Works.bind (Works.asking (Works.reportAll standard)) ?_
    rintro _ second more soundSecond ⟨sameSecond, reported⟩
    have growth := (led.growth soundFirst).trans (more.growth soundSecond)
    have sameUnit := sameSecond.trans sameFirst
    have judged : Judged second index := by
      by_cases severe : ∃ report ∈ reports, report.isError
      · obtain ⟨report, present, isError⟩ := severe
        exact .inl ⟨report, by simp [reported, present], isError⟩
      · have mild : ∀ report ∈ reports, report.isError = false := fun report present =>
          Bool.eq_false_iff.mpr fun isError => severe ⟨report, present, isError⟩
        have judgement : Judged work index := .inr (covers_of_coversRoots sound found (covers mild))
        exact judgement.lead sound (trans_of _ led more)
    intro _
    refine (Completes.modify ?_).runs total
    have lowers : second.unit.Lowers
        { second.unit with patterns, lowered := second.unit.lowered.insert index lowered } := by
      refine ⟨rfl, ?_⟩
      rw [sameUnit]
      exact marked.keeps
    have patternsSound : patterns.Sound second.pool :=
      (sound.recorded.patterns.marked marked).grow growth.grown.types
    have soundAfter : Workspace.Sound { second with
        unit :=
          { second.unit with patterns, lowered := second.unit.lowered.insert index lowered } } :=
      ⟨soundSecond.program, soundSecond.laid.evolve lowers.evolves,
        { soundSecond.recorded.enter (.refl _) lowers.patterns patternsSound with }⟩
    exact ⟨⟨.refl _, rfl, lowers, .refl _⟩, soundAfter, judged⟩

theorem isMatch_eq {arena : Arena} {index : Nat} {expr : Expr}
    (found : arena.exprs[index]? = some expr) : ∃ answer, isMatch arena index = .ok answer ∧
    (arena.IsMatch index → answer = true) := by
  obtain ⟨kind, span⟩ := expr
  cases kind with
  | matchOn scrutinee arms =>
    exact ⟨true, by simp [isMatch, Arena.kind, Arena.expr_eq found, Except.map], fun _ => rfl⟩
  | _ =>
    refine ⟨false, by simp [isMatch, Arena.kind, Arena.expr_eq found, Except.map], ?_⟩
    rintro ⟨_, _, _, read⟩
    rw [found] at read
    cases read

/-- Every match in the bodies of the member is judged. -/
def JudgesAll (work : Workspace) (member : Member) : Prop :=
  ∀ body ∈ member.body, ∀ index, work.unit.arena.Contains body index →
    work.unit.arena.IsMatch index → Judged work index

theorem lowerMatches_works (ready : work.Ready total)
    (inside : total → member.BodyIn work.unit.arena) :
    Works total (Leads Lowers) (lowerMatches member) work fun _ after =>
      JudgesAll after member := by
  unfold lowerMatches
  cases hasBody : member.body with
  | none => exact Works.pure fun body present => by simp [hasBody] at present
  | some body =>
    refine Works.ofSound fun sound => Works.get ?_
    refine Works.lift (fun sure => ?_) fun visited walked => ?_
    · obtain ⟨index, below, rfl⟩ := inside sure body hasBody
      exact (ready.arena sure).walk_ok below
    have asked : ∀ index ∈ visited, ∃ answer, isMatch work.unit.arena index = .ok answer := by
      intro index listed
      obtain ⟨expr, found⟩ := Arena.lookup_of_walk walked listed
      exact (isMatch_eq found).imp fun _ facts => facts.1
    refine Works.lift (fun _ => Except.filterM_ok asked) fun matchNodes filtered => ?_
    have judging : Works total (Leads Lowers) (matchNodes.forM lowerMatch) work fun _ after =>
        ∀ index ∈ matchNodes, Judged after index :=
      Works.forEach (fun index before after led soundBefore judged => judged.lead soundBefore led)
        fun index _ between led soundBetween => lowerMatch_works
          (ready.led sound.valid led soundBetween led.unit.evolves.arena).grounded index
    refine judging.mono ?_
    intro _ after led _ judged other present index contained match_
    cases hasBody.symm.trans present
    rw [led.unit.evolves.arena] at contained match_
    have listed := Arena.mem_walk walked contained
    obtain ⟨expr, found⟩ := Arena.lookup_of_walk walked listed
    obtain ⟨answer, ran, yes⟩ := isMatch_eq found
    rw [yes match_] at ran
    exact judged index (Except.mem_filterM filtered listed ran)

end Conformance

namespace StageM
open TypePool Workspace CompilationUnit Conformance

variable {total : Prop} {work : Workspace} {id : Nat} {member : Member}

section
variable (sound : work.Sound) (found : work.unit.members.members[id]? = some member)
  (typed : work.unit.Typed work.pool) (ready : work.Ready total)
  (inside : total → member.BodyIn work.unit.arena)
include sound found typed ready inside

/-- What is done for every kind of member, after the rules for its kind. -/
theorem checkRest_works {between : Workspace} (led : work.Leads Lowers between)
    (sameUnit : between.unit = work.unit) : Works total (Leads Lowers) (do
      let class_ ← liftM (work.unit.classOf id)
      access member class_
      bounds id
      lowerMatches member) between fun _ after => JudgesAll after member := by
  refine Works.ofSound fun soundBetween => ?_
  obtain ⟨top, class_, ran, there⟩ := sound.laid.classOf_eq found
  have insideStill : ∀ between : Workspace, between.unit = work.unit →
      total → member.BodyIn between.unit.arena := fun between same => same ▸ inside
  refine Works.lift (fun _ => ⟨class_, ran⟩) fun read same => ?_
  cases ran.symm.trans same
  have readyBetween := ready.led sound.valid led soundBetween (congrArg _ sameUnit)
  refine Works.bind (Works.asking (access_asks readyBetween (insideStill _ sameUnit)
    ((led.growth soundBetween).has (typed top class_ there).type))) ?_
  rintro _ first ledFirst soundFirst ⟨sameFirst, _⟩
  refine Works.bind (Works.asking (bounds_asks id)) ?_
  rintro _ second ledSecond soundSecond ⟨sameSecond, _⟩
  have same := sameSecond.trans (sameFirst.trans sameUnit)
  exact lowerMatches_works (ready.led sound.valid (trans_of _ led (trans_of _ ledFirst ledSecond))
    soundSecond (congrArg _ same)) (insideStill _ same)

end

/-- Checking a member judges its matches and changes no member. -/
theorem checkMember_works (found : work.unit.members.members[id]? = some member)
    (typed : work.unit.Typed work.pool) (ready : work.Ready total)
    (inside : total → member.BodyIn work.unit.arena) :
    Works total (Leads Lowers) (checkMember id) work fun _ after => JudgesAll after member := by
  refine Works.ofSound fun sound => Works.get ?_
  refine Works.lift (fun _ => ⟨member, MemberArena.get_eq found⟩) fun read same => ?_
  cases (MemberArena.get_eq found).symm.trans same
  obtain ⟨top, class_, ran, there⟩ := sound.laid.classOf_eq found
  have own := typed id member found
  have classTyped := (typed top class_ there).type
  have insideStill : ∀ between : Workspace, between.unit = work.unit →
      total → member.BodyIn between.unit.arena := fun between same => same ▸ inside
  have signature : ∀ between : Workspace, work.Leads Lowers between → between.unit = work.unit →
      between.Sound → Works total (Leads Lowers) (do
        assignability member
        let class_ ← liftM (work.unit.classOf id)
        variance member class_
        let class_ ← liftM (work.unit.classOf id)
        access member class_
        bounds id
        lowerMatches member) between fun _ after => JudgesAll after member := by
    intro between led sameUnit soundBetween
    have ownBetween := own.grow (led.growth soundBetween).within
    refine Works.bind (Works.asking (assignability_asks ownBetween.type (insideStill _ sameUnit)))
      ?_
    rintro _ first ledFirst soundFirst ⟨sameFirst, _⟩
    refine Works.lift (fun _ => ⟨class_, ran⟩) fun read same => ?_
    cases ran.symm.trans same
    refine Works.bind (Works.asking (variance_asks (ownBetween.grow
      (ledFirst.growth soundFirst).within) class_)) ?_
    rintro _ second ledSecond soundSecond ⟨sameSecond, _⟩
    exact checkRest_works sound found typed ready inside
      (trans_of _ led (trans_of _ ledFirst ledSecond)) (sameSecond.trans (sameFirst.trans sameUnit))
  refine Works.bind (Works.asking (duplicates_asks found)) ?_
  rintro _ first led soundFirst ⟨sameFirst, _⟩
  have growth := led.growth soundFirst
  dsimp only
  cases detail : member.detail with
  | class_ =>
    refine Works.bind (Works.asking (implementation_asks (growth.has own.type))) ?_
    rintro _ second more soundSecond ⟨sameSecond, _⟩
    exact checkRest_works sound found typed ready inside (trans_of _ led more)
      (sameSecond.trans sameFirst)
  | method =>
    refine Works.lift (fun _ => ⟨class_, ran⟩) fun read same => ?_
    cases ran.symm.trans same
    refine Works.bind (Works.asking (overriding_asks (growth.has own.type)
      (growth.has classTyped))) ?_
    rintro _ second more soundSecond ⟨sameSecond, _⟩
    exact signature second (trans_of _ led more) (sameSecond.trans sameFirst) soundSecond
  | field => exact signature first led sameFirst soundFirst

end StageM
end ClassLang
