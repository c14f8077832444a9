import ClassLang.Proofs.Stage.ConfinedMembers

/-! The order of the stages, whoever runs them: a stage runs on a member in its turn only, and what
took effect on a member is always an initial part of the stages. -/

namespace ClassLang

namespace Workspace

/-- Whether the stage has work to do on the member. A member that is not ready for it breaches the
order. -/
def admits (work : Workspace) (stage : Stage) (id : Nat) : Except Abort Bool := do
  let member ← work.unit.members.get id
  if stage = .foldConstants ∧ member.progress.isTerminal then return false
  if member.progress ≠ stage.required then
    throw (.stageOrder stage member.name work.unit.name member.progress)
  return true

variable {work : Workspace} {stage : Stage} {id : Nat} {member : Member}

theorem admits_idle (found : work.unit.members.members[id]? = some member)
    (fold : stage = .foldConstants) (folded : member.progress = .constantsFolded) :
    work.admits stage id = .ok false := by
  simp [admits, MemberArena.get_eq found, fold, folded, Progress.isTerminal]

theorem admits_ready (found : work.unit.members.members[id]? = some member)
    (ready : member.progress = stage.required) : work.admits stage id = .ok true := by
  have unfinished : ¬ (stage = .foldConstants ∧ member.progress.isTerminal = true) := by
    rw [ready]
    rintro ⟨rfl, impossible⟩
    cases impossible
  simp [admits, MemberArena.get_eq found, ready ▸ unfinished, ready]

theorem admits_breach (found : work.unit.members.members[id]? = some member)
    (waiting : member.progress ≠ stage.required)
    (unfinished : ¬ (stage = .foldConstants ∧ member.progress = .constantsFolded)) :
    work.admits stage id = .error
      (.stageOrder stage member.name work.unit.name member.progress) := by
  have working : ¬ (stage = .foldConstants ∧ member.progress.isTerminal = true) := by
    simpa [Progress.isTerminal] using unfinished
  simp only [admits, MemberArena.get_eq found, ok_bind, if_neg working, if_pos waiting]
  rfl

end Workspace

namespace StageM

/-- Work on a member that is ready, and mark it. -/
def complete (stage : Stage) (id : Nat) : StageM PUnit := do
  perform stage id
  let member ← inspect (·.unit.members.get id)
  setMember id { member with progress := stage.target }

variable {stage : Stage} {id : Nat} {work final : Workspace} {member : Member}

theorem lift_run {α : Type} (answer : Except Abort α) :
    (liftM answer : StageM α).run work = answer.map (·, work) := by
  cases answer <;> rfl

theorem inspect_run {α : Type} (query : Workspace → Except Abort α) :
    (inspect query).run work = (query work).map (·, work) :=
  lift_run (query work)

/-- A stage first asks whether the member is ready, without changing anything. -/
theorem runMember_eq (stage : Stage) (id : Nat) :
    runMember stage id = (do if ← inspect (·.admits stage id) then complete stage id) := by
  refine StateT.ext fun work => ?_
  unfold runMember
  rw [StateT.run_bind, StateT.run_bind, inspect_run, StateT.run_get]
  simp only [pure_eq_ok, ok_bind]
  rw [StateT.run_bind, lift_run]
  cases read : work.unit.members.get id with
  | error fault => simp [Workspace.admits, read]; rfl
  | ok member =>
    have found := MemberArena.lookup_of_get read
    by_cases folded : stage = .foldConstants ∧ member.progress = .constantsFolded
    · rw [Workspace.admits_idle found folded.1 folded.2]
      simp [Except.map, folded.1, folded.2, Progress.isTerminal]
    have working : ¬ (stage = .foldConstants ∧ member.progress.isTerminal = true) := by
      simpa [Progress.isTerminal] using folded
    by_cases ready : member.progress = stage.required
    · rw [Workspace.admits_ready found ready]
      simp only [Except.map, ok_bind, if_neg working, if_neg (not_not.mpr ready)]
      rfl
    · rw [Workspace.admits_breach found ready folded]
      simp only [Except.map, ok_bind, if_neg working, if_pos ready]
      rfl

/-- A run that returns has done its work, unless there was nothing to fold. -/
theorem runMember_cases (ran : (runMember stage id).run work = .ok ((), final)) :
    stage = .foldConstants ∧ final = work ∨ (complete stage id).run work = .ok ((), final) := by
  rw [runMember_eq, StateT.run_bind, inspect_run] at ran
  cases asked : work.admits stage id with
  | error fault => rw [asked] at ran; cases ran
  | ok admitted =>
    rw [asked] at ran
    cases admitted with
    | true => exact .inr ran
    | false =>
      cases ran
      refine .inl ⟨?_, rfl⟩
      by_contra other
      obtain ⟨member, _, answered⟩ := Except.bind_eq_ok asked
      rw [if_neg fun fold => other fold.1] at answered
      dsimp only at answered
      split at answered <;> cases answered

section
variable (found : work.unit.members.members[id]? = some member)
include found

/-- Folding a folded member does nothing. -/
theorem runMember_idle (folded : stage = .foldConstants ∧ member.progress = .constantsFolded) :
    (runMember stage id).run work = .ok ((), work) := by
  rw [runMember_eq, StateT.run_bind, inspect_run, Workspace.admits_idle found folded.1 folded.2]
  rfl

theorem runMember_ready (ready : member.progress = stage.required) :
    (runMember stage id).run work = (complete stage id).run work := by
  rw [runMember_eq, StateT.run_bind, inspect_run, Workspace.admits_ready found ready]
  rfl

theorem runMember_breach (waiting : member.progress ≠ stage.required)
    (unfinished : ¬ (stage = .foldConstants ∧ member.progress = .constantsFolded)) :
    (runMember stage id).run work =
      .error (.stageOrder stage member.name work.unit.name member.progress) := by
  rw [runMember_eq, StateT.run_bind, inspect_run, Workspace.admits_breach found waiting unfinished]
  rfl

end

theorem complete_confined : Confined stage id (complete stage id) := by
  refine .bind (perform_confined stage) fun _ => ?_
  refine .bind (inspect_confined fun work => work.unit.members.get_orderly id) fun _ => ?_
  exact setMember_confined _

/-- Working on a member breaches no order. -/
theorem complete_orderly {fault : Abort} (raised : (complete stage id).run work = .error fault) :
    fault.isStageOrder = false :=
  (complete_confined work).1 fault raised

theorem runMember_spares (ran : (runMember stage id).run work = .ok ((), final)) :
    work.Spares stage id final := by
  rcases runMember_cases ran with ⟨_, rfl⟩ | completed
  · exact .refl _
  · exact ((complete_confined work).2 () final completed).1

/-- Work that is completed marks the member and spares the others. -/
theorem complete_marks (ran : (complete stage id).run work = .ok ((), final)) :
    CompilationUnit.Spares stage id work.unit final.unit ∧ ∃ later,
      final.unit.members.members[id]? = some later ∧ later.progress = stage.target := by
  refine ⟨((complete_confined work).2 () final ran).1.unit, ?_⟩
  unfold complete at ran
  rw [StateT.run_bind] at ran
  obtain ⟨⟨⟨⟩, middle⟩, _, ran⟩ := Except.bind_eq_ok ran
  rw [StateT.run_bind, inspect_run] at ran
  obtain ⟨⟨performed, same⟩, read, marked⟩ := Except.bind_eq_ok ran
  cases answered : middle.unit.members.get id with
  | error fault => rw [answered] at read; cases read
  | ok member =>
    rw [answered] at read
    cases read
    cases marked
    exact ⟨_, (MemberArena.lookup_set (MemberArena.lookup_of_get answered)).trans (if_pos rfl), rfl⟩

/-- A run that returns did nothing to a folded member, or it was the member's turn. -/
theorem runMember_ok (ran : (runMember stage id).run work = .ok ((), final)) :
    ∃ member, work.unit.members.members[id]? = some member ∧
      ((stage = .foldConstants ∧ member.progress = .constantsFolded) ∧ final = work ∨
        member.progress = stage.required ∧ CompilationUnit.Spares stage id work.unit final.unit ∧
          ∃ later, final.unit.members.members[id]? = some later ∧
          later.progress = stage.target) := by
  cases read : work.unit.members.get id with
  | error fault =>
    rw [runMember_eq, StateT.run_bind, inspect_run] at ran
    simp [Workspace.admits, read] at ran
    cases ran
  | ok member =>
    have found := MemberArena.lookup_of_get read
    refine ⟨member, found, ?_⟩
    by_cases folded : stage = .foldConstants ∧ member.progress = .constantsFolded
    · rw [runMember_idle found folded] at ran
      cases ran
      exact .inl ⟨folded, rfl⟩
    by_cases ready : member.progress = stage.required
    · rw [runMember_ready found ready] at ran
      exact .inr ⟨ready, complete_marks ran⟩
    · rw [runMember_breach found ready folded] at ran
      cases ran

end StageM

/-- The stages of the log that took effect on a member, in order. -/
def stagesOn (log : List (Nat × Stage)) (id : Nat) : List Stage :=
  (log.filter (·.1 == id)).map (·.2)

theorem stagesOn_append (first second : List (Nat × Stage)) (id : Nat) :
    stagesOn (first ++ second) id = stagesOn first id ++ stagesOn second id := by
  simp [stagesOn]

theorem Stage.take_target (stage : Stage) :
    Stage.all.take stage.target.rank = Stage.all.take stage.required.rank ++ [stage] := by
  cases stage <;> rfl

theorem Stage.rank_le_target (stage : Stage) : stage.required.rank ≤ stage.target.rank := by
  cases stage <;> decide

namespace CompilationUnit

/-- The stage does something to the member; folding a folded one does not. -/
def takesEffect (unit : CompilationUnit) (stage : Stage) (id : Nat) : Bool :=
  !(stage == .foldConstants && (unit.members.members[id]?).any (·.progress.isTerminal))

/-- What running the stage on the members has an effect on, in order. -/
def effects (unit : CompilationUnit) (stage : Stage) (ids : List Nat) : List (Nat × Stage) :=
  (ids.filter (unit.takesEffect stage)).map (·, stage)

/-- What has an effect does not depend on the members that are spared. -/
theorem Spares.effects {before after : CompilationUnit} {id : Nat} {ids : List Nat} {stage : Stage}
    (spared : Spares stage id before after) (apart : id ∉ ids) :
    after.effects stage ids = before.effects stage ids := by
  unfold CompilationUnit.effects
  rw [List.filter_congr fun other member => ?_]
  unfold takesEffect
  rw [spared.others other (ne_of_mem_of_not_mem member apart)]

/-- The stages that took effect on a member are the first ones, as many as its progress says, and
the unit is no further than any of its members. -/
structure InOrder (unit : CompilationUnit) (log : List (Nat × Stage)) : Prop where
  history : ∀ (id : Nat) (member : Member), unit.members.members[id]? = some member →
    stagesOn log id = Stage.all.take member.progress.rank
  progress : ∀ (id : Nat) (member : Member), unit.members.members[id]? = some member →
    unit.progress.rank ≤ member.progress.rank

end CompilationUnit

namespace StageM
open CompilationUnit

variable {stage : Stage} {work final : Workspace} {log : List (Nat × Stage)}

/-- A run on one member keeps the order. -/
theorem runMember_inOrder {id : Nat} (ordered : work.unit.InOrder log)
    (ran : (runMember stage id).run work = .ok ((), final)) :
    final.unit.InOrder (log ++ work.unit.effects stage [id]) := by
  obtain ⟨member, found, ⟨⟨rfl, folded⟩, rfl⟩ | ⟨ready, spared, later, present, marked⟩⟩ :=
    runMember_ok ran
  · have idle : final.unit.effects .foldConstants [id] = [] := by
      simp [effects, takesEffect, found, folded, Progress.isTerminal]
    rw [idle, List.append_nil]
    exact ordered
  · have effect : work.unit.effects stage [id] = [(id, stage)] := by
      have working : work.unit.takesEffect stage id = true := by
        cases stage <;> simp [takesEffect, found, ready, Stage.required, Progress.isTerminal]
      simp [effects, working]
    rw [effect]
    refine ⟨fun other entry stored => ?_, fun other entry stored => ?_⟩
    · rw [stagesOn_append]
      by_cases same : other = id
      · subst same
        cases present.symm.trans stored
        rw [marked, Stage.take_target, ordered.history other member found, ready]
        simp [stagesOn]
      · have apart : id ≠ other := Ne.symm same
        rw [spared.others other same] at stored
        rw [ordered.history other entry stored]
        simp [stagesOn, apart]
    · rw [spared.progress]
      by_cases same : other = id
      · subst same
        cases present.symm.trans stored
        have before := ordered.progress other member found
        rw [ready] at before
        exact marked ▸ before.trans stage.rank_le_target
      · rw [spared.others other same] at stored
        exact ordered.progress other entry stored

theorem runMember_reaches {id : Nat} {member : Member}
    (ran : (runMember stage id).run work = .ok ((), final))
    (present : final.unit.members.members[id]? = some member) : member.progress = stage.target := by
  obtain ⟨before, found, ⟨⟨rfl, folded⟩, rfl⟩ | ⟨_, _, later, stored, marked⟩⟩ := runMember_ok ran
  · cases found.symm.trans present
    exact folded
  · cases stored.symm.trans present
    exact marked

/-- Runs on several members, each once, keep the order and take all of them to the stage. -/
theorem runMembers_inOrder :
    ∀ {ids : List Nat} {log : List (Nat × Stage)} {work : Workspace}, ids.Nodup →
    work.unit.InOrder log → (ids.forM (runMember stage)).run work = .ok ((), final) →
      final.unit.InOrder (log ++ work.unit.effects stage ids) ∧
        final.unit.members.size = work.unit.members.size ∧
        (∀ id ∉ ids, final.unit.members.members[id]? = work.unit.members.members[id]?) ∧
        ∀ id ∈ ids, ∀ member, final.unit.members.members[id]? = some member →
        member.progress = stage.target
  | [], _, _, _, ordered, ran => by
    cases ran
    exact ⟨by simpa [effects] using ordered, rfl, fun _ _ => rfl, by simp⟩
  | first :: rest, log, work, distinct, ordered, ran => by
    obtain ⟨fresh, distinct⟩ := List.nodup_cons.mp distinct
    change (runMember stage first >>= fun _ => rest.forM (runMember stage)).run work = _ at ran
    rw [StateT.run_bind] at ran
    obtain ⟨⟨⟨⟩, middle⟩, opened, ran⟩ := Except.bind_eq_ok ran
    have spared := (runMember_spares opened).unit
    obtain ⟨orderedNow, size, others, reached⟩ :=
      runMembers_inOrder distinct (runMember_inOrder ordered opened) ran
    refine ⟨?_, size.trans spared.size, fun other apart => ?_, fun other member entry present => ?_⟩
    · rw [spared.effects fresh, List.append_assoc] at orderedNow
      have split : work.unit.effects stage (first :: rest) =
          work.unit.effects stage [first] ++ work.unit.effects stage rest := by
        simp only [effects, ← List.map_append, ← List.filter_append, List.singleton_append]
      rw [split]
      exact orderedNow
    · obtain ⟨different, later⟩ := not_or.mp (mt List.mem_cons.mpr apart)
      exact (others other later).trans (spared.others other different)
    · by_cases again : other ∈ rest
      · exact reached other again entry present
      · have same : other = first := (List.mem_cons.mp member).resolve_right again
        subst same
        exact runMember_reaches opened ((others other again).symm.trans present)

end StageM

namespace Program
variable {program final : Program} {unit after : CompilationUnit} {action : StageM PUnit}
  {reports : List Diagnostic} {stage : Stage} {log : List (Nat × Stage)}

/-- An action on a unit that returned. -/
theorem runOn_ok (ran : program.runOn unit action = .ok (final, after, reports)) :
    ∃ work, action.run { toProgram := program, unit } = .ok ((), work) ∧ work.unit = after := by
  obtain ⟨⟨⟨⟩, work⟩, acted, rest⟩ := Except.bind_eq_ok ran
  cases rest
  exact ⟨work, acted, rfl⟩

theorem runMember_inOrder {id : Nat} (ordered : unit.InOrder log)
    (ran : program.runMember stage unit id = .ok (final, after, reports)) :
    after.InOrder (log ++ unit.effects stage [id]) := by
  obtain ⟨work, acted, rfl⟩ := runOn_ok ran
  have kept := @StageM.runMember_inOrder stage { toProgram := program, unit } work log id
    ordered acted
  exact kept

section
variable {id : Nat} {member : Member} (found : unit.members.members[id]? = some member)
include found

theorem runMember_breach (waiting : member.progress ≠ stage.required)
    (unfinished : ¬ (stage = .foldConstants ∧ member.progress = .constantsFolded)) :
    program.runMember stage unit id =
      .error (.stageOrder stage member.name unit.name member.progress) := by
  unfold runMember runOn
  rw [StageM.runMember_breach found waiting unfinished]
  rfl

theorem runMember_idle (folded : stage = .foldConstants ∧ member.progress = .constantsFolded) :
    program.runMember stage unit id = .ok (program, unit, []) := by
  unfold runMember runOn
  rw [StageM.runMember_idle found folded]
  rfl

/-- Nothing but a run out of turn breaches the order. -/
theorem waits_of_breach {fault : Abort} (raised : program.runMember stage unit id = .error fault)
    (breach : fault.isStageOrder = true) : member.progress ≠ stage.required ∧
      ¬ (stage = .foldConstants ∧ member.progress = .constantsFolded) := by
  refine ⟨fun ready => ?_, fun folded => ?_⟩
  · unfold runMember runOn at raised
    rw [StageM.runMember_ready found ready] at raised
    cases completed : (StageM.complete stage id).run { toProgram := program, unit } with
    | ok ran => rw [completed] at raised; cases raised
    | error other =>
      rw [completed] at raised
      cases raised
      exact absurd (StageM.complete_orderly completed) (by rw [breach]; decide)
  · rw [runMember_idle found folded] at raised
    cases raised

end

/-- A whole stage keeps the order. -/
theorem runStage_inOrder (ordered : unit.InOrder log)
    (ran : program.runStage stage unit = .ok (final, after)) :
    after.InOrder (log ++ unit.effects stage unit.members.ids) := by
  obtain ⟨⟨shared, closing, reports⟩, worked, closed⟩ := Except.bind_eq_ok ran
  obtain ⟨work, acted, rfl⟩ := runOn_ok worked
  cases closed
  obtain ⟨orderedNow, size, _, reached⟩ := StageM.runMembers_inOrder List.nodup_range ordered acted
  refine ⟨orderedNow.history, fun id member found => le_of_eq ?_⟩
  have inside : id < work.unit.members.size := (Array.getElem?_eq_some_iff.mp found).1
  exact congrArg Progress.rank (reached id (List.mem_range.mpr (size ▸ inside)) member found).symm

end Program

/-- No stage has run on the unit. -/
structure CompilationUnit.Unstarted (unit : CompilationUnit) : Prop where
  progress : unit.progress = .unresolved
  members : ∀ member ∈ unit.members.members, member.progress = .unresolved
  matchGroups : unit.matchGroups = {}
  lowered : unit.lowered = {}

theorem CompilationUnit.Unstarted.inOrder {unit : CompilationUnit} (unstarted : unit.Unstarted) :
    unit.InOrder [] := by
  refine ⟨fun id member found => ?_, fun id member found => ?_⟩
  · rw [unstarted.members member (Array.mem_of_getElem? found)]
    rfl
  · rw [unstarted.progress]
    exact Nat.zero_le _

namespace Declaration
open CompilationUnit

/-- Declaring runs no stage. -/
def starting : Promise DeclareM where
  holds action post := ∀ work : Workspace, work.unit.Unstarted →
    (action.run work).2.unit.Unstarted ∧ post (action.run work).1
  pure promised _ unstarted := ⟨unstarted, promised⟩
  bind first rest work unstarted :=
    rest _ (first work unstarted).2 _ (first work unstarted).1

abbrev Starts {α : Type} (action : DeclareM α) : Prop := starting.Meets action

/-- A step that leaves the progress of the unit and its members. -/
theorem starts_modifyGet {α : Type} {change : Workspace → α × Workspace}
    (keeps : ∀ work, work.unit.Unstarted → (change work).2.unit.Unstarted) :
    Starts (modifyGet change) :=
  fun work unstarted => ⟨keeps work unstarted, trivial⟩

theorem get_starts : Starts get := fun _ unstarted => ⟨unstarted, trivial⟩

theorem typeParams_starts (owner : Name) (decls : List TypeParamDecl) :
    Starts (typeParams owner decls) :=
  .mapM fun _ => starts_modifyGet fun _ unstarted => unstarted

theorem alloc_starts {added : Member} (fresh : added.progress = .unresolved) :
    Starts (alloc added) := by
  refine starts_modifyGet fun work unstarted =>
    { unstarted with members := fun other present => ?_ }
  rcases Array.mem_push.mp present with old | rfl
  · exact unstarted.members other old
  · exact fresh

theorem publish_starts (declare : SymbolTable → Nat × SymbolTable) : Starts (publish declare) :=
  starts_modifyGet fun _ unstarted => { unstarted with }

theorem member_starts (owner class_ : Nat) (className : Name) (kind : SymbolKind) (arity : Nat)
    {added : Member} (fresh : added.progress = .unresolved) :
    Starts (member owner class_ className kind arity added) := by
  refine .bind (alloc_starts fresh) fun _ => ?_
  refine .bind get_starts fun _ => ?_
  refine .bind (publish_starts _) fun _ => ?_
  exact .pure

theorem method_starts (owner class_ : Nat) (className : Name) (inInterface : Bool)
    (decl : MethodDecl) : Starts (method owner class_ className inInterface decl) :=
  .bind (typeParams_starts _ _) fun _ => member_starts _ _ _ _ _ rfl

theorem class_starts (decl : ClassDecl) : Starts (class_ decl) := by
  refine .bind (typeParams_starts _ _) fun params => ?_
  refine .bind (alloc_starts rfl) fun id => ?_
  refine .bind get_starts fun _ => ?_
  refine .bind (publish_starts _) fun symbol => ?_
  refine .bind (starts_modifyGet fun _ unstarted => { unstarted with }) fun _ => ?_
  refine .bind (.mapM fun field => member_starts _ _ _ _ _ rfl) fun fields => ?_
  refine .bind (.mapM fun method => method_starts _ _ _ _ method) fun methods => ?_
  refine starts_modifyGet fun work unstarted =>
    { unstarted with members := fun other present => ?_ }
  rcases Array.mem_or_eq_of_mem_setIfInBounds present with old | rfl
  · exact unstarted.members other old
  · rfl

end Declaration

/-- A declared unit stands at the beginning. -/
theorem Program.declareUnit_unstarted (program : Program) (id : Nat) (source : SourceUnit) :
    (program.declareUnit id source).1.Unstarted :=
  have declared : Declaration.Starts (source.classes.forM Declaration.class_) :=
    .forM Declaration.class_starts
  (declared _ ⟨rfl, by simp, rfl, rfl⟩).1

/-- The unit after finished calls on it, one after the other, and what took effect, in order. Other
units may change the shared parts between two calls. A stage on the unit that is broken off is a
number of calls on its members. -/
inductive Called (start : CompilationUnit) : List (Nat × Stage) → CompilationUnit → Prop
  | declared : Called start [] start
  | run {log : List (Nat × Stage)} {unit after : CompilationUnit} {shared final : Program}
      {stage : Stage} {id : Nat} {reports : List Diagnostic} (before : Called start log unit)
      (ran : shared.runMember stage unit id = .ok (final, after, reports)) :
      Called start (log ++ unit.effects stage [id]) after
  | stage {log : List (Nat × Stage)} {unit after : CompilationUnit} {shared final : Program}
      {stage : Stage} (before : Called start log unit)
      (ran : shared.runStage stage unit = .ok (final, after)) :
      Called start (log ++ unit.effects stage unit.members.ids) after

/-- Calls keep the order, whatever they are. -/
theorem Called.inOrder {start unit : CompilationUnit} {log : List (Nat × Stage)}
    (ordered : start.InOrder []) (called : Called start log unit) : unit.InOrder log := by
  induction called with
  | declared => exact ordered
  | run _ ran ih => exact Program.runMember_inOrder ih ran
  | stage _ ran ih => exact Program.runStage_inOrder ih ran

/-- Whatever calls ended on a declared unit, the next run of a stage on one of its members breaches
the order exactly if it is not the member's turn, and before anything is changed; only folding a
folded member is let pass, and does nothing. A run that returns leaves the other members alone. What
took effect on a member so far are the first stages, each once and in order, as many as its progress
says, and the unit is no further than the member. -/
theorem runs_in_stage_order (program : Program) (unitId : Nat) (source : SourceUnit)
    (log : List (Nat × Stage)) (unit : CompilationUnit)
    (called : Called (program.declareUnit unitId source).1 log unit) (shared : Program)
    (stage : Stage) (id : Nat) (member : Member) (found : unit.members.members[id]? = some member) :
    (shared.runMember stage unit id =
        .error (.stageOrder stage member.name unit.name member.progress) ↔
      stage.target.predecessor? ≠ some member.progress ∧
        ¬ (stage = .foldConstants ∧ member.progress = .constantsFolded)) ∧
    (∀ fault, shared.runMember stage unit id = .error fault → fault.isStageOrder = true →
      fault = .stageOrder stage member.name unit.name member.progress) ∧
    (stage = .foldConstants ∧ member.progress = .constantsFolded →
      shared.runMember stage unit id = .ok (shared, unit, [])) ∧
    (StageM.runMember stage id =
        (do if ← StageM.inspect (·.admits stage id) then StageM.complete stage id) ∧
      ∀ work fault, (StageM.complete stage id).run work = .error fault →
      fault.isStageOrder = false) ∧
    (∀ final after reports, shared.runMember stage unit id = .ok (final, after, reports) →
      after.progress = unit.progress ∧
        ∀ other ≠ id, after.members.members[other]? = unit.members.members[other]?) ∧
    stagesOn log id = Stage.all.take member.progress.rank ∧
    unit.progress.rank ≤ member.progress.rank := by
  have ordered := called.inOrder (program.declareUnit_unstarted unitId source).inOrder
  have turn : stage.target.predecessor? ≠ some member.progress ↔
      member.progress ≠ stage.required := by
    rw [Stage.predecessor?_target, ne_eq, Option.some.injEq, eq_comm]
  refine ⟨⟨fun raised => ?_, fun ⟨early, unfinished⟩ => ?_⟩, fun fault raised breach => ?_,
    Program.runMember_idle found,
      ⟨StageM.runMember_eq stage id, fun _ _ => StageM.complete_orderly⟩,
    fun final after reports ran => ?_, ordered.history id member found,
      ordered.progress id member found⟩
  · obtain ⟨waiting, unfinished⟩ := Program.waits_of_breach found raised rfl
    exact ⟨turn.mpr waiting, unfinished⟩
  · exact Program.runMember_breach found (turn.mp early) unfinished
  · obtain ⟨waiting, unfinished⟩ := Program.waits_of_breach found raised breach
    exact Except.error.inj (raised.symm.trans (Program.runMember_breach found waiting unfinished))
  · obtain ⟨work, acted, rfl⟩ := Program.runOn_ok ran
    have spared := (StageM.runMember_spares acted).unit
    exact ⟨spared.progress, spared.others⟩

/-- A class of its own, declared and with its types resolved, cannot be checked yet. -/
theorem runs_in_stage_order_box :
    let source : SourceUnit := { name := "main", classes := [{ name := "Box", span := ⟨0, 1⟩ }] }
    let declared := ({} : Program).declareUnit 0 source
    ∃ (final : Program) (after : CompilationUnit) (member : Member),
      declared.2.runMember .resolveTypes declared.1 0 = .ok (final, after, []) ∧
      Called declared.1 [(0, .resolveTypes)] after ∧ after.members.members[0]? = some member ∧
      final.runMember .check after 0 = .error (.stageOrder .check "Box" "main" .typesResolved) ∧
      stagesOn [(0, .resolveTypes)] 0 = Stage.all.take member.progress.rank := by
  intro source declared
  obtain ⟨⟨final, after, reports⟩, ran, rfl, unitName, boxed⟩ :=
    Except.exists_ok (declared.2.runMember .resolveTypes declared.1 0) (fun ran =>
      ran.2.2 = [] ∧ ran.2.1.name = "main" ∧ ran.2.1.members.members[0]?.any (fun member =>
        member.name = "Box" ∧ member.progress = .typesResolved) = true) (by decide +kernel)
  obtain ⟨member, found, accepted⟩ := Option.any_eq_true _ _ |>.mp boxed
  obtain ⟨name, progress⟩ := of_decide_eq_true accepted
  have called : Called declared.1 [(0, .resolveTypes)] after := Called.run .declared ran
  have ordered := runs_in_stage_order {} 0 source _ after called final .check 0 _ found
  refine ⟨final, after, member, ran, called, found, ?_, ordered.2.2.2.2.2.1⟩
  rw [progress, unitName, name] at ordered
  exact ordered.1.mpr (by decide)

end ClassLang
