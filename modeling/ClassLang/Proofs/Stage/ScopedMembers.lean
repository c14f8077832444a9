import ClassLang.Proofs.Stage.ScopedBodies
import ClassLang.Proofs.StageOrder

/-! Whole stages: the first two keep types in their scopes, and where checking reports no error
every class is the one that its name refers to. -/

namespace ClassLang

namespace StageM
variable {judgement : Judgement} {declared : CompilationUnit} {given : Prop}
    {stage : Stage} {id : Nat}
  {original : Member}

section
variable (inUnits : declared ∈ judgement.units) (early : stage = .resolveTypes ∨ stage = .resolve)
include inUnits early

/-- The first two stages on a member; marking it leaves its types alone. -/
theorem complete_scoped (found : declared.members.members[id]? = some original) :
    Pledges judgement declared (fun _ => True) given (complete stage id) := by
  have performed : Pledges judgement declared (fun _ => True) given (perform stage id) := by
    rcases early with rfl | rfl
    · exact resolveTypes_scoped inUnits found
    · exact resolveBody_scoped inUnits found
  have read : Pledges judgement declared (fun _ => True) given (inspect (·.unit.members.get id))
      fun member => member.written = original.written ∧
      member.Over judgement.toScoping (declared.inScope original) :=
    .inspect fun work member asked facts =>
      ⟨facts.2.2.unit.written_eq found (MemberArena.lookup_of_get asked),
        facts.2.2.unit.types id original member found (MemberArena.lookup_of_get asked)⟩
  apply Pledges.andThen performed
  intro _
  apply Pledges.bind read
  intro member
  exact .setMember found (fun both => both.2.1) fun both => both.2.2

theorem runMembers_scoped {ids : List Nat}
    (all : ∀ id ∈ ids, ∃ original, declared.members.members[id]? = some original) :
    Pledges judgement declared (fun _ => True) given (ids.forM (runMember stage)) := by
  refine (judged judgement declared fun _ => True).forM fun id member => ?_
  obtain ⟨original, found⟩ := all id member
  rw [runMember_eq]
  apply Pledges.andThen .ask
  intro admitted
  split
  · exact complete_scoped inUnits early found
  · exact .pure fun _ => trivial

end

end StageM

/-! Classes that are declared once. -/

theorem Workspace.Errs.mono {before after : Workspace} (errs : before.Errs)
    (reported : before.reports <+: after.reports) :
    after.Errs := by
  obtain ⟨report, listed, severe⟩ := errs
  exact ⟨report, reported.subset listed, severe⟩

/-- Where no error is reported, the class is the one that its name refers to. -/
theorem Conformance.duplicates_single {work final : Workspace} {id own first : Nat}
    {member : Member} (ran : (duplicates id member).run work = .ok ((), final))
    (clean : ¬ final.Errs) (class_ : member.isClass = true)
    (declared : work.unit.symbols[id]? = some own)
    (named : work.symbols.lookupClass? member.name = some first) :
    first = own := by
  have answered : work.unit.symbol id = .ok own := by simp [CompilationUnit.symbol, declared]
  by_contra apart
  have compared : (duplicates id member).run work =
      (violation member.span .duplicate [member.name]).run work := by
    unfold duplicates
    cases detail : member.detail with
    | class_ =>
      simp only [StateT.run_bind, StateT.run_get, pure_eq_ok, ok_bind, StageM.lift_run,
        answered, Except.map, SymbolTable.head?_declarations, named]
      simp [apart]
    | _ => simp [Member.isClass, detail] at class_
  rw [compared] at ran
  cases ran
  exact clean ⟨_, List.mem_append_right _ (List.mem_singleton_self _), rfl⟩

/-- If the member is a class, it is the one that its name refers to. -/
def Workspace.Single (work : Workspace) (id : Nat) : Prop :=
  ∀ (member : Member) (own first : Nat), work.unit.members.members[id]? = some member →
    member.isClass = true → work.unit.symbols[id]? = some own →
    work.symbols.lookupClass? member.name = some first → first = own

namespace StageM
variable {stage : Stage} {id : Nat} {work final : Workspace}

theorem runMember_reports (ran : (runMember stage id).run work = .ok ((), final)) :
    final.Reported stage.MayReport work.reports := by
  rcases runMember_cases ran with ⟨_, rfl⟩ | completed
  · exact .refl
  · exact ((complete_confined work).2 () final completed).2.2

/-- A stage reports what it may. -/
theorem runMembers_reports {ids : List Nat}
    (ran : (ids.forM (runMember stage)).run work = .ok ((), final)) :
    final.Reported stage.MayReport work.reports := by
  have keeps : (Keeping fun after : Workspace => after.Reported stage.MayReport work.reports).Meets
      (ids.forM (runMember stage)) :=
    .forM fun id start grown _ after answered => ⟨grown.trans (runMember_reports answered), trivial⟩
  exact (keeps work .refl () final ran).1

/-- Types of expressions change when names are bound and when constants are folded only. -/
theorem runMembers_exprTypes {ids : List Nat} (other : stage ≠ .resolve)
    (open_ : stage ≠ .foldConstants)
    (ran : (ids.forM (runMember stage)).run work = .ok ((), final)) :
    final.unit.exprTypes = work.unit.exprTypes := by
  have keeps : (Keeping fun after : Workspace => after.unit.exprTypes = work.unit.exprTypes).Meets
      (ids.forM (runMember stage)) :=
    .forM fun id start same _ after answered =>
      ⟨((runMember_spares answered).unit.exprTypes other open_).trans same, trivial⟩
  exact (keeps work rfl () final ran).1

theorem runMember_single (ran : (runMember .check id).run work = .ok ((), final))
    (clean : ¬ final.Errs) :
    work.Single id := by
  intro member own first found class_ declared named
  rcases runMember_cases ran with ⟨impossible, _⟩ | completed
  · cases impossible
  unfold complete at completed
  rw [StateT.run_bind] at completed
  obtain ⟨⟨⟨⟩, checked⟩, performed, marked⟩ := Except.bind_eq_ok completed
  rw [StateT.run_bind, inspect_run] at marked
  obtain ⟨⟨_, between⟩, asked, marked⟩ := Except.bind_eq_ok marked
  have same : checked.reports = final.reports := by
    cases read : checked.unit.members.get id with
    | error fault => rw [read] at asked; cases asked
    | ok later =>
      rw [read] at asked
      cases asked
      cases marked
      rfl
  change (checkMember id).run work = _ at performed
  rw [checkMember_eq, StateT.run_bind, StateT.run_get, pure_eq_ok, ok_bind,
    StateT.run_bind, lift_run, MemberArena.get_eq found] at performed
  simp only [Except.map, ok_bind] at performed
  rw [StateT.run_bind] at performed
  obtain ⟨⟨⟨⟩, compared⟩, first, rest⟩ := Except.bind_eq_ok performed
  have confined : Confined .check id (Conformance.rules work id member) :=
    Conformance.rules_confined work id member
  have later := ((confined compared).2 () checked rest).1.reports
  exact Conformance.duplicates_single first (fun errs => clean (errs.mono (same ▸ later))) class_
    declared named

/-- Checking all members of a unit without an error. -/
theorem runMembers_single : ∀ {ids : List Nat} {work : Workspace},
    (ids.forM (runMember .check)).run work = .ok ((), final) → ¬ final.Errs → ∀ id ∈ ids,
      work.Single id
  | [], _, _, _ => by simp
  | head :: rest, work, ran, clean => by
    change (runMember .check head >>= fun _ => rest.forM (runMember .check)).run work = _ at ran
    rw [StateT.run_bind] at ran
    obtain ⟨⟨⟨⟩, middle⟩, opened, ran⟩ := Except.bind_eq_ok ran
    have own : work.Single head :=
      runMember_single opened fun errs => clean (errs.mono (runMembers_reports ran).grows)
    intro id member
    by_cases same : id = head
    · exact same ▸ own
    have later := runMembers_single ran clean id ((List.mem_cons.mp member).resolve_left same)
    have spared := runMember_spares opened
    intro class_ symbol first found isClass declared named
    exact later class_ symbol first ((spared.unit.others id same).trans found) isClass
      (spared.unit.symbols ▸ declared)
      ((congrArg (·.lookupClass? class_.name) (spared.symbols (by decide))).trans named)

end StageM
end ClassLang
