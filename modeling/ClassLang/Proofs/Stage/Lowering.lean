import ClassLang.Proofs.Stage.Annotation
import ClassLang.Proofs.Stage.Conformance

/-! What is noted when a member is checked: every match of its body has code, with a label for each
arm of its group. -/

namespace ClassLang
open CompilationUnit

namespace MatchGroup
variable {group : MatchGroup} {code : LoweredMatch}

theorem compile_labels {hierarchy : ClassHierarchy} {store after : PatternStore}
    {pool final : TypePool} {known : GroupAnalysis × List Diagnostic}
    (ran : (group.compile hierarchy store).run pool = .ok ((known, code, after), final)) :
    group.Labels code := by
  unfold compile at ran
  rw [StateT.run_bind] at ran
  obtain ⟨⟨⟨analysis, reports⟩, middle⟩, -, ran⟩ := Except.bind_eq_ok ran
  rw [StateT.run_bind] at ran
  obtain ⟨⟨lowered, between⟩, lowering, ran⟩ := Except.bind_eq_ok ran
  cases ran
  cases answered : group.lower analysis store with
  | error fault => rw [answered] at lowering; cases lowering
  | ok result =>
    rw [answered] at lowering
    cases lowering
    exact lower_labels answered

end MatchGroup

/-- Work on the pool changes nothing a stage relies on. -/
theorem StageM.Notes.withClasses {reliance : Reliance} {α : Type}
    {action : ClassHierarchy → PoolM α} {post : α → Prop}
    (answers : ∀ classes pool result final, (action classes).run pool = .ok (result, final) →
      post result) :
    Notes reliance (StageM.withClasses action) [] post := by
  intro work offered result after ran
  obtain ⟨⟨_, pool⟩, worked, same⟩ := Except.bind_eq_ok ran
  cases same
  exact ⟨fun _ noted => noted, offered, by simp, answers _ _ _ pool worked⟩

namespace Conformance
open StageM

variable {arena : Arena} {groups : IdMap MatchGroup} {member : Member} {id : Nat}

/-- The expressions and the groups are those given, and code labels the arms of its group. -/
def lowering (arena : Arena) (groups : IdMap MatchGroup) : Reliance := fun here idMap codes =>
  here = arena ∧ idMap = groups ∧ ∀ index code, codes.get? index = some code →
    ∃ group, groups.get? index = some group ∧ group.Labels code

/-- The code of a match is recorded. -/
theorem recordCode_notes {index : Nat} {group : MatchGroup} {code : LoweredMatch}
    {patterns : PatternStore} (found : groups.get? index = some group)
    (labels : group.Labels code) : Notes (lowering arena groups) (StageM.modifyUnit fun unit =>
      { unit with patterns, lowered := unit.lowered.insert index code }) [.code index] := by
  refine .modifyUnit fun unit ⟨same, equal, labelled⟩ => ?_
  have spared : Spares .check 0 unit
      { unit with patterns, lowered := unit.lowered.insert index code } :=
    { Spares.refl unit with
      lowered := fun other => absurd rfl other, coded := fun _ isSome =>
        IdMap.isSome_insert isSome }
  refine ⟨fun note => spared.has nofun, ⟨same, equal, fun other entry recorded => ?_⟩,
    fun note member => ?_⟩
  · rw [IdMap.get?_insert] at recorded
    split at recorded
    · rename_i own
      cases recorded
      exact ⟨group, own ▸ found, labels⟩
    · exact labelled other entry recorded
  · cases List.mem_singleton.mp member
    change ((unit.lowered.insert index code).get? index).isSome
    rw [IdMap.get?_insert, if_pos rfl]
    rfl

/-- A match with a group has code when it is lowered. -/
theorem lowerMatch_notes (index : Nat) : Notes (lowering arena groups) (lowerMatch index)
    (if (groups.get? index).isSome then [.code index] else []) := by
  intro work offered
  refine Ensures.bind (Ensures.get ?_)
  rw [offered.2.1]
  cases found : groups.get? index with
  | none => exact Notes.pure trivial work offered
  | some group =>
    refine Ensures.bind (Ensures.get ?_)
    have compiling : Notes (lowering arena groups) (do
        let compiled ← StageM.withClasses (group.compile · work.unit.patterns)
        StageM.reportAll compiled.1.2
        StageM.modifyUnit fun unit => { unit with
          patterns := compiled.2.2
          lowered := unit.lowered.insert index compiled.2.1 }) [.code index] :=
      Notes.bind (Notes.withClasses fun _ _ _ _ => MatchGroup.compile_labels) fun result labels =>
        Notes.bind .reportAll fun _ _ => recordCode_notes found labels
    exact compiling work offered

/-- All matches of a body whose groups are known have code when they are lowered. -/
theorem lowerMatches_notes (grouped : ∀ body ∈ member.body, ∀ index, arena.Contains body index →
      arena.IsMatch index → (groups.get? index).isSome) :
    Notes (lowering arena groups) (lowerMatches member) (member.body.toList.map .compiled) := by
  intro work offered
  unfold lowerMatches
  cases written : member.body with
  | none => exact Notes.pure trivial work offered
  | some body =>
    refine Ensures.bind (Ensures.get (Ensures.bind (lift_ensures fun visited walked =>
      Ensures.bind (lift_ensures fun matchNodes filtered => ?_))))
    rw [offered.1] at walked filtered
    have lowers : Notes (lowering arena groups) (matchNodes.forM lowerMatch) _ :=
      .forM fun index _ => lowerMatch_notes index
    refine lowers.gather (fun unit offers noted note member => ?_) work offered
    cases List.mem_singleton.mp member
    intro index contained match_
    rw [offers.1] at contained match_
    have listed := Arena.mem_walk walked contained
    obtain ⟨expr, found⟩ := Arena.lookup_of_walk walked listed
    obtain ⟨answer, ran, yes⟩ := isMatch_eq found
    rw [yes match_] at ran
    refine noted (.code index)
      (List.mem_flatMap.mpr ⟨index, Except.mem_filterM filtered listed ran, ?_⟩)
    rw [if_pos (grouped body written index contained match_)]
    exact List.mem_singleton_self _

end Conformance

/-- The matches in the body of a member have code once it is checked. -/
theorem StageM.checkMember_wrote {arena : Arena} {groups : IdMap MatchGroup} {id : Nat}
    {work : Workspace} (offered : work.unit.Offers (Conformance.lowering arena groups))
    (bound : work.unit.Wrote .tree id) : Ensures (checkMember id) work fun _ after =>
      (∀ note, work.unit.Has note → after.unit.Has note) ∧
        after.unit.Offers (Conformance.lowering arena groups) ∧ after.unit.Wrote .compiled id := by
  intro result after ran
  obtain ⟨⟨member, _⟩, read, -⟩ := Except.bind_eq_ok ran
  obtain ⟨answered, rfl⟩ := lift_eq_ok read
  have found := MemberArena.lookup_of_get answered
  have grouped : ∀ body ∈ member.body, ∀ index, arena.Contains body index → arena.IsMatch index →
      (groups.get? index).isSome := by
    intro body written index contained match_
    rw [← offered.1] at contained match_
    rw [← offered.2.1]
    exact (bound member body found written index contained).group match_
  have classOf : Notes (Conformance.lowering arena groups)
      (liftM (work.unit.classOf id) : StageM Member) [] :=
    .confined (lift_confined (work.unit.classOf_orderly id))
  have rest : Notes (Conformance.lowering arena groups) (do
      Conformance.access member (← work.unit.classOf id)
      Conformance.bounds id
      Conformance.lowerMatches member) (member.body.toList.map .compiled) :=
    classOf.bind fun class_ _ => Notes.bind (.confined Conformance.access_confined) fun _ _ =>
      Notes.bind (.confined (Conformance.bounds_confined id)) fun _ _ =>
        Conformance.lowerMatches_notes grouped
  refine wrote found (checkMember_confined id) ?_ result after ran
  refine Ensures.bind (Ensures.get (Ensures.bind (lift_ensures fun same again => ?_)))
  cases answered.symm.trans again
  refine Notes.ensures (Notes.bind (.confined (Conformance.duplicates_confined id)) fun _ _ => ?_)
    offered
  dsimp only
  cases member.detail with
  | class_ =>
    have implementing : (confining .resolveTypes 0 fun _ => True).Meets
        (Conformance.implementation member) :=
      Conformance.implementation_confined fun _ => trivial
    exact Notes.bind (.spared implementing) fun _ _ => rest
  | method =>
    refine classOf.bind fun classMember _ => ?_
    have overriding : (confining .resolveTypes 0 fun _ => True).Meets
        (Conformance.overriding member classMember) :=
      Conformance.overriding_confined fun _ => trivial
    refine Notes.bind (.spared overriding) fun _ _ => ?_
    refine Notes.bind (.confined Conformance.assignability_confined) fun _ _ => ?_
    refine classOf.bind fun _ _ => ?_
    refine Notes.bind (.confined Conformance.variance_confined) fun _ _ => ?_
    exact rest
  | field =>
    refine Notes.bind (.confined Conformance.assignability_confined) fun _ _ => ?_
    refine classOf.bind fun _ _ => ?_
    refine Notes.bind (.confined Conformance.variance_confined) fun _ _ => ?_
    exact rest

end ClassLang
