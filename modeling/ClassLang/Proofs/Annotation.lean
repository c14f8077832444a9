import ClassLang.Proofs.ErrorLimit
import ClassLang.Proofs.Session
import ClassLang.Proofs.Stage.Folding

/-! The annotated tree: what each stage adds to what is recorded about a unit, and that nothing is
missing when all stages have run. -/

namespace ClassLang
open CompilationUnit

/-- What is noted of a member stays while a stage works on another one. -/
theorem CompilationUnit.Wrote.lasts {before after : CompilationUnit} {stage : Stage}
    {id other : Nat} {note : ExprRef → Note} (wrote : before.Wrote note other)
    (spared : Spares stage id before after) (open_ : stage ≠ .foldConstants) (apart : other ≠ id) :
    after.Wrote note other := by
  intro member body found written
  rw [spared.others other apart] at found
  exact spared.has open_ (wrote member body found written)

/-- Closing a unit after a stage forgets nothing. -/
theorem CompilationUnit.Wrote.close {unit : CompilationUnit} {note : ExprRef → Note} {id : Nat}
    {stage : Stage} {reports : List Diagnostic} (wrote : unit.Wrote note id) :
    (unit.close stage reports).Wrote note id := by
  intro member body found written
  have noted := wrote member body found written
  cases same : note body with
  | tree ref =>
    rw [same] at noted
    exact fun index contained => { noted index contained with }
  | _ =>
    rw [same] at noted
    exact noted

namespace StageM
variable {reliance : Reliance} {prior due : List (ExprRef → Note)} {stage : Stage} {id : Nat}
    {work final : Workspace}

/-- Given what a stage relies on and the notes made before, its work on a member makes the notes
that are due, and leaves what it relied on. -/
def Writes (stage : Stage) (reliance : Reliance) (prior due : List (ExprRef → Note)) : Prop :=
  ∀ id work, work.unit.Offers reliance → (∀ note ∈ prior, work.unit.Wrote note id) →
    Ensures (perform stage id) work fun _ after => after.unit.Offers reliance ∧ ∀ note ∈ due,
      after.unit.Wrote note id

theorem resolveTypes_writes : Writes .resolveTypes
    (fun _ groups codes => groups = {} ∧ codes = {}) [] [] :=
  fun _ work offered _ => ((Notes.spared resolveTypes_confined) work offered).mono
    fun _ _ ⟨_, offers, _⟩ => ⟨offers, by simp⟩

theorem resolve_writes (arena : Arena) : Writes .resolve (BodyM.binding arena) [] [.tree] :=
  fun _ _ offered _ => (resolveBody_wrote offered).mono fun _ _ ⟨_, offers, wrote⟩ =>
    ⟨offers, by simpa using wrote⟩

theorem check_writes (arena : Arena) (groups : IdMap MatchGroup) :
    Writes .check (Conformance.lowering arena groups) [.tree] [.tree, .compiled] := by
  intro id work offered given result after ran
  have bound := given .tree (List.mem_singleton_self _)
  obtain ⟨_, offers, compiled⟩ := checkMember_wrote offered bound result after ran
  have apart : Confined .check (id + 1) (checkMember id) := checkMember_confined id
  have lasting := bound.lasts ((apart work).2 result after ran).1.unit nofun
    (Nat.ne_of_lt id.lt_succ_self)
  exact ⟨offers, by simpa using ⟨lasting, compiled⟩⟩

section
variable (working : stage ≠ .foldConstants) (writes : Writes stage reliance prior due)
include working writes

theorem runMember_writes (offered : work.unit.Offers reliance)
    (given : ∀ note ∈ prior, work.unit.Wrote note id) :
    Ensures (runMember stage id) work fun _ after =>
      after.unit.Offers reliance ∧ ∀ note ∈ due, after.unit.Wrote note id := by
  rw [runMember_eq]
  refine Ensures.bind (Ensures.bind (Ensures.get (lift_ensures fun admitted asked => ?_)))
  cases admitted with
  | false =>
    obtain ⟨member, _, asked⟩ := Except.bind_eq_ok asked
    rw [if_neg fun folded => working folded.1] at asked
    split at asked <;> cases asked
  | true =>
    refine Ensures.bind ((writes id work offered given).mono ?_)
    rintro - middle ⟨offers, wrote⟩
    refine Ensures.bind (Ensures.bind (Ensures.get (lift_ensures fun member read => ?_)))
    have found := MemberArena.lookup_of_get read
    intro _ after ran
    cases ran
    refine ⟨offers, fun note listed later body present written => ?_⟩
    have marked := (MemberArena.lookup_set found).symm.trans present
    rw [if_pos rfl] at marked
    cases marked
    have spared : Spares .resolveTypes id middle.unit
        { middle.unit with members :=
      middle.unit.members.set id { member with progress := stage.target } } :=
      .set middle.unit _
    exact spared.has nofun (wrote note listed member body found written)

/-- A run over members makes the notes that are due of each, and loses none of the others. -/
theorem runMembers_writes : ∀ {ids : List Nat} {work : Workspace}, ids.Nodup →
    work.unit.Offers reliance → (∀ id ∈ ids, ∀ note ∈ prior, work.unit.Wrote note id) →
    (ids.forM (runMember stage)).run work = .ok ((), final) →
      final.unit.Offers reliance ∧ final.unit.members.size = work.unit.members.size ∧
        (∀ id ∉ ids, ∀ note, work.unit.Wrote note id → final.unit.Wrote note id) ∧
        ∀ id ∈ ids, ∀ note ∈ due, final.unit.Wrote note id
  | [], _, _, offered, _, ran => by
    cases ran
    exact ⟨offered, rfl, fun _ _ _ wrote => wrote, by simp⟩
  | first :: rest, work, distinct, offered, given, ran => by
    obtain ⟨fresh, distinct⟩ := List.nodup_cons.mp distinct
    change (runMember stage first >>= fun _ => rest.forM (runMember stage)).run work = _ at ran
    rw [StateT.run_bind] at ran
    obtain ⟨⟨⟨⟩, middle⟩, opened, ran⟩ := Except.bind_eq_ok ran
    have spared := (runMember_spares opened).unit
    obtain ⟨offers, wrote⟩ :=
      runMember_writes working writes offered (given first List.mem_cons_self) () middle opened
    obtain ⟨offersFinal, size, others, made⟩ :=
      runMembers_writes distinct offers (fun id member note inside =>
      (given id (List.mem_cons_of_mem _ member) note inside).lasts spared working
        (ne_of_mem_of_not_mem member fresh)) ran
    refine ⟨offersFinal, size.trans spared.size, fun id apart note written => ?_,
      fun id member note listed => ?_⟩
    · obtain ⟨different, later⟩ := not_or.mp (mt List.mem_cons.mpr apart)
      exact others id later note (written.lasts spared working different)
    · rcases List.mem_cons.mp member with rfl | later
      · exact others id fresh note (wrote note listed)
      · exact made id later note listed

end
end StageM

namespace Program
variable {program final : Program} {unit after : CompilationUnit} {reliance : Reliance}
  {prior due : List (ExprRef → Note)} {stage : Stage}

/-- A whole stage makes the notes that are due of every member. -/
theorem runStage_writes (working : stage ≠ .foldConstants)
    (writes : StageM.Writes stage reliance prior due) (offered : unit.Offers reliance)
    (given : ∀ note ∈ prior, ∀ id, unit.Wrote note id)
    (ran : program.runStage stage unit = .ok (final, after)) : after.Offers reliance ∧ ∀ note ∈ due,
    ∀ id, after.Wrote note id := by
  obtain ⟨work, acted, rfl, rfl⟩ := runStage_eq_ok ran
  obtain ⟨offers, size, -, wrote⟩ :=
    StageM.runMembers_writes working writes List.nodup_range offered
    (fun id _ note contained => given note contained id) acted
  refine ⟨offers, fun note listed id => Wrote.close fun member body found written => ?_⟩
  have inside : id < work.unit.members.size := (Array.getElem?_eq_some_iff.mp found).1
  exact wrote id (List.mem_range.mpr (size ▸ inside)) note listed member body found written

end Program

/-- Nodes below a node of the arena are in the arena. -/
theorem Arena.WellFormed.contains_lt {arena : Arena} (wellFormed : arena.WellFormed)
    {start index : Nat} (there : start < arena.size)
    (contained : arena.Contains (.node start) index) : index < arena.size := by
  obtain ⟨_, same, path⟩ := contained
  cases same
  rcases path.cases_tail with rfl | ⟨parent, _, step⟩
  · exact there
  · exact wellFormed.children parent index step

namespace CompilationUnit
variable {unit : CompilationUnit}

/-- What the stages so far have recorded, depending on how far the unit is. -/
def AnnotatedAt (unit : CompilationUnit) : Progress → Prop
  | .unresolved | .typesResolved => unit.matchGroups = {} ∧ unit.lowered = {}
  | .resolved => unit.Offers (BodyM.binding unit.arena) ∧ ∀ id, unit.Wrote .tree id
  | .checked => unit.Offers (Conformance.lowering unit.arena unit.matchGroups) ∧
    unit.arena.Groups unit.matchGroups ∧ ∀ id, unit.Wrote .tree id ∧ unit.Wrote .compiled id
  | .constantsFolded => ∃ due, unit.Settled due

/-- The node is below the body of a member. -/
def InBody (unit : CompilationUnit) (index : Nat) : Prop :=
  ∃ (id : Nat) (member : Member) (body : ExprRef), unit.members.members[id]? = some member ∧
    member.body = some body ∧ unit.arena.Contains body index

/-- What is recorded when all members are checked settles the nodes below their bodies. -/
theorem AnnotatedAt.settled (annotated : unit.AnnotatedAt .checked) :
    unit.Settled fun index => unit.InBody index ∨ unit.arena.size ≤ index := by
  obtain ⟨⟨-, -, labelled⟩, prepared, wrote⟩ := annotated
  refine ⟨⟨?_, ?_, fun index => .inr, rfl⟩, ?_⟩
  · rintro parent child (⟨id, member, body, found, written, start, same, path⟩ | outside) step
    · exact .inl ⟨id, member, body, found, written, start, same, path.tail step⟩
    · obtain ⟨expr, read, _⟩ := step
      exact absurd (Array.getElem?_eq_some_iff.mp read).1 (Nat.not_lt.mpr outside)
  · rintro index ⟨kind, span⟩ (⟨id, member, body, found, written, contained⟩ | outside) read
    · have noted := (wrote id).1 member body found written index contained
      refine ⟨noted.type, fun name same => ?_, fun scrutinee arms same => ?_⟩
      · cases same
        exact noted.resolution name span read
      · cases same
        have coded := (wrote id).2 member body found written index contained
          ⟨scrutinee, arms, span, read⟩
        obtain ⟨code, stored⟩ := Option.isSome_iff_exists.mp coded
        obtain ⟨group, grouped, labels⟩ := labelled index code stored
        exact ⟨group, code, grouped, stored,
          prepared index group scrutinee arms span grouped read, labels⟩
    · exact absurd (Array.getElem?_eq_some_iff.mp read).1 (Nat.not_lt.mpr outside)
  · rintro id member body found written index rfl
    exact .inl ⟨id, member, _, found, written, index, rfl, .refl⟩

/-- All that is emitted from a node is there: it has its type, an identifier what it refers to, and
a match a group and code, with an entry prepared from each arm and a target for it, in the order of
the arms. -/
structure Complete (unit : CompilationUnit) (index : Nat) (kind : ExprKind) : Prop where
  type : (unit.exprTypes.get? index).isSome
  resolution : ∀ name, kind = .ident name → (unit.resolutions.get? index).isSome
  code : ∀ scrutinee arms, kind = .matchOn scrutinee arms → ∃ group code,
    unit.matchGroups.get? index = some group ∧ unit.lowered.get? index = some code ∧
      List.Forall₂ (fun arm entry => entry.Prepared unit.arena.patterns group.subject arm) arms
        group.arms ∧
      code.arms.map (·.label) = (List.range arms.length).map MatchGroup.armLabel

/-- The nodes below the body of a member are complete when it is settled. -/
theorem Settled.complete {due : Nat → Prop} (settled : unit.Settled due) {member : Member}
    {body : ExprRef} (listed : member ∈ unit.members.toList) (written : member.body = some body)
    {index : Nat} {expr : Expr} (contained : unit.arena.Contains body index)
    (found : unit.arena.exprs[index]? = some expr) : unit.Complete index expr.kind := by
  obtain ⟨id, present⟩ := List.mem_iff_getElem?.mp listed
  rw [MemberArena.toList, Array.getElem?_toList] at present
  obtain ⟨start, rfl, path⟩ := contained
  have holds : due index := by
    clear found
    induction path with
    | refl => exact settled.bodies id member _ present written start rfl
    | tail _ step ih => exact settled.nodes.closed _ _ ih step
  obtain ⟨typed, explained⟩ := settled.nodes.typed index expr holds found
  refine ⟨typed, explained.resolution, fun scrutinee arms same => ?_⟩
  obtain ⟨group, code, grouped, coded, prepared, labels⟩ := explained.code scrutinee arms same
  refine ⟨group, code, grouped, coded, prepared, ?_⟩
  rw [prepared.length_eq]
  exact labels

end CompilationUnit

namespace Program
variable {program final : Program} {unit after : CompilationUnit} {stage : Stage}

theorem runStage_progress (ran : program.runStage stage unit = .ok (final, after)) :
    after.progress = stage.target := by
  obtain ⟨_, _, closed⟩ := Except.bind_eq_ok ran
  cases closed
  rfl

/-- A stage records what is due of it. -/
theorem runStage_annotated (ready : unit.progress = stage.required)
    (annotated : unit.AnnotatedAt unit.progress)
    (ran : program.runStage stage unit = .ok (final, after)) : after.AnnotatedAt stage.target := by
  rw [ready] at annotated
  cases stage with
  | resolveTypes =>
    exact (runStage_writes (by decide) StageM.resolveTypes_writes annotated (by simp) ran).1
  | resolve =>
    have blank : unit.Offers (BodyM.binding unit.arena) :=
      ⟨rfl, fun index group _ _ _ found => by simp [annotated.1, IdMap.get?] at found, annotated.2⟩
    obtain ⟨offers, wrote⟩ :=
      runStage_writes (by decide) (StageM.resolve_writes _) blank (by simp) ran
    refine ⟨⟨rfl, ?_, offers.2.2⟩, wrote .tree (List.mem_singleton_self _)⟩
    rw [offers.1]
    exact offers.2.1
  | check =>
    obtain ⟨⟨-, prepared, none⟩, bound⟩ := annotated
    have blank : unit.Offers (Conformance.lowering unit.arena unit.matchGroups) :=
      ⟨rfl, rfl, fun index code found => by simp [none, IdMap.get?] at found⟩
    obtain ⟨offers, wrote⟩ :=
      runStage_writes (by decide) (StageM.check_writes _ _) blank (by simpa using bound) ran
    refine ⟨⟨rfl, rfl, ?_⟩, ?_, fun id => ⟨wrote .tree (by simp) id, wrote .compiled (by simp) id⟩⟩
    · rw [offers.2.1]
      exact offers.2.2
    · rw [offers.1, offers.2.1]
      exact prepared
  | foldConstants =>
    obtain ⟨work, acted, rfl, rfl⟩ := runStage_eq_ok ran
    have folding (due : Nat → Prop) : (StageM.settling due).holds
        (unit.members.ids.forM (StageM.runMember .foldConstants)) fun _ => True :=
      (StageM.settling due).forM fun id _ => StageM.runMember_settles id
    obtain ⟨settled, -⟩ := folding _ _ annotated.settled () work acted
    exact ⟨_, settled.nodes, settled.bodies⟩

end Program

namespace PhaseState
variable {state final : PhaseState} {stage : Stage} {unit : CompilationUnit}

/-- All units are annotated as far as they have come. -/
def Annotated (state : PhaseState) : Prop := ∀ unit ∈ state.units, unit.AnnotatedAt unit.progress

theorem runUnit_annotated (annotated : state.Annotated)
    (annotatedAt : unit.AnnotatedAt unit.progress) (ran : runUnit stage state unit = .ok final) :
    final.Annotated := by
  unfold runUnit at ran
  split at ran
  · cases ran
    intro other member
    rcases List.mem_append.mp member with earlier | own
    · exact annotated other earlier
    · cases List.mem_singleton.mp own
      exact annotatedAt
  · rename_i ready
    obtain ⟨⟨program, done⟩, staged, same⟩ := Except.bind_eq_ok ran
    cases same
    intro other member
    rcases List.mem_append.mp member with earlier | own
    · exact annotated other earlier
    · cases List.mem_singleton.mp own
      rw [Program.runStage_progress staged]
      exact Program.runStage_annotated (not_not.mp ready) annotatedAt staged

theorem runUnits_annotated : ∀ {units : List CompilationUnit} {state : PhaseState},
    state.Annotated → (∀ unit ∈ units, unit.AnnotatedAt unit.progress) →
    units.foldlM (runUnit stage) state = .ok final → final.Annotated
  | [], _, annotated, _, ran => by
    cases ran
    exact annotated
  | first :: rest, state, annotated, annotatedAt, ran => by
    rw [List.foldlM_cons] at ran
    obtain ⟨next, answered, ran⟩ := Except.bind_eq_ok ran
    exact runUnits_annotated
      (runUnit_annotated annotated (annotatedAt first List.mem_cons_self) answered)
      (fun unit member => annotatedAt unit (List.mem_cons_of_mem _ member)) ran

theorem Schedule.annotated {stages started : List Stage}
    (schedule : state.Schedule stages started final) (annotated : state.Annotated) :
    final.Annotated := by
  induction schedule with
  | done | stop => exact annotated
  | start free ran rest ih =>
    rw [runPhase, if_neg (by simp [free])] at ran
    exact ih (runUnits_annotated (by simp [Annotated]) annotated ran)

end PhaseState

namespace Session

theorem declareUnits_unstarted (session : Session) : ∀ unit ∈ session.declareUnits.1,
    unit.Unstarted := by
  have declares (entries : List (SourceUnit × Nat)) (state : List CompilationUnit × Program)
      (unstarted : ∀ unit ∈ state.1, unit.Unstarted) : ∀ unit ∈ (entries.foldl (fun state entry =>
        let declared := state.2.declareUnit entry.2 entry.1
        (state.1 ++ [{ declared.1 with diagnostics := { config := session.config.diagnostics } }],
          declared.2))
        state).1, unit.Unstarted := by
    induction entries generalizing state with
    | nil => exact unstarted
    | cons entry rest ih =>
      refine ih _ fun unit member => ?_
      rcases List.mem_append.mp member with earlier | own
      · exact unstarted unit earlier
      · cases List.mem_singleton.mp own
        exact { Program.declareUnit_unstarted state.2 entry.2 entry.1 with }
  exact declares _ _ (by simp)

/-- Nothing is due of declared units. -/
theorem opened_annotated (session : Session) : session.opened.Annotated := by
  intro unit member
  have unstarted := declareUnits_unstarted session unit member
  rw [unstarted.progress]
  exact ⟨unstarted.matchGroups, unstarted.lowered⟩

/-- Well-formed units that go through all stages leave nothing out: every node below the body of a
member as it was folded is there and complete. All stages run when there is no limit on errors. -/
theorem annotation_complete (config : SessionConfig) (sources : List SourceUnit)
    (wellFormed : ∀ source ∈ sources, source.WellFormed) :
    ∃ final started, compile { config, sources } = .ok (.ok final) ∧
      (opened { config, sources }).Schedule Stage.all started final.closed ∧
      (config.errorLimit = 0 → started = Stage.all) ∧
      (started = Stage.all → ∀ unit ∈ final.units, ∀ member ∈ unit.members.toList, ∀ body,
        member.body = some body → ∀ index, unit.arena.Contains body index →
          ∃ expr, unit.arena.exprs[index]? = some expr ∧ unit.Complete index expr.kind) := by
  have answers := run_holds config fun _ : True => wellFormed
  obtain ⟨final, ran⟩ := answers.ends trivial
  obtain ⟨_, rank, started, schedule, holds, complete⟩ := answers.ensures final ran
  refine ⟨final, started, congrArg Except.ok ran, schedule, fun unlimited => ?_,
    fun all unit listed => ?_⟩
  · refine complete.resolve_right fun full => ?_
    have limit : final.budget.limit = config.errorLimit := schedule.limit_eq
    simp [ErrorBudget.limitReached, limit, unlimited] at full
  · subst all
    have annotated := schedule.annotated (opened_annotated _) unit listed
    obtain ⟨source, _, stands, reached⟩ := holds.units.exists_source listed
    rw [reached] at annotated
    obtain ⟨due, settled⟩ : ∃ due, unit.Settled due := annotated
    intro member present body written index contained
    obtain ⟨id, found⟩ := List.mem_iff_getElem?.mp present
    rw [MemberArena.toList, Array.getElem?_toList] at found
    obtain ⟨start, there, rfl⟩ := stands.inside trivial id member found body written
    have inside : index < unit.arena.size := (stands.arena trivial).contains_lt there contained
    exact ⟨_, Array.getElem?_eq_getElem inside,
      settled.complete present written contained (Array.getElem?_eq_getElem inside)⟩

theorem annotation_complete_pick : ∃ done unit,
    compile { config := { errorLimit := 0 }, sources := [pickUnit] } = .ok (.ok done) ∧
    unit ∈ done.units ∧
      unit.Complete 4 (.matchOn (.node 5) [⟨0, .node 2, ⟨28, 35⟩⟩, ⟨1, .node 3, ⟨36, 41⟩⟩]) := by
  obtain ⟨final, started, compiled, _, unlimited, complete⟩ :=
    annotation_complete { errorLimit := 0 } [pickUnit] (by simpa using pickUnit_wellFormed)
  obtain ⟨done, ran, unit, listed, ⟨member, present, written⟩, found⟩ :=
    exists_run { config := { errorLimit := 0 }, sources := [pickUnit] }
      (fun done => ∃ unit ∈ done.units,
        (∃ member ∈ unit.members.toList, member.body = some (.node 4)) ∧ unit.arena.exprs[4]? =
        some ⟨.matchOn (.node 5) [⟨0, .node 2, ⟨28, 35⟩⟩, ⟨1, .node 3, ⟨36, 41⟩⟩], ⟨20, 42⟩⟩)
          (by decide +kernel)
  have same : done = final := Except.ok.inj (ran.symm.trans (Except.ok.inj compiled))
  subst same
  obtain ⟨expr, read, whole⟩ :=
    complete (unlimited rfl) unit listed member present _ written 4 ⟨4, rfl, .refl⟩
  cases found.symm.trans read
  exact ⟨done, unit, compiled, listed, whole⟩

end Session
end ClassLang
