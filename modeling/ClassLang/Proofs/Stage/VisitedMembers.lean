import ClassLang.Proofs.Pipeline
import ClassLang.Proofs.Stage.VisitedBodies

/-! The second stage leaves coherent types: what is recorded for a node follows from what is
recorded for the slots that only it holds, and every node of a body has a type. -/

namespace ClassLang
open Relation

theorem StageM.Works.both {α : Type} {total : Prop} {frame other : Workspace → Workspace → Prop}
    {action : StageM α} {work : Workspace} {post also : α → Workspace → Prop}
    (earlier : Works total frame action work post) (later : Works total other action work also) :
    Works total frame action work fun result after =>
      post result after ∧ also result after :=
  fun sound => (earlier.and ((later sound).ensures.mono fun _ _ facts => facts.2.2)) sound

namespace CompilationUnit

/-- One slot of the node holds the child, and no other slot or body of the unit does. -/
structure Owns (unit : CompilationUnit) (index child : Nat) :
    Prop extends unit.arena.Owns index child where
  body : ∀ (id : Nat) (member : Member), unit.members.members[id]? = some member →
    member.body ≠ some (.node child)

instance (unit : CompilationUnit) (index child : Nat) : Decidable (unit.Owns index child) :=
  decidable_of_iff (unit.arena.Owns index child ∧
      ∀ id < unit.members.members.size, ∀ member ∈ unit.members.members[id]?,
        member.body ≠ some (.node child)) {
    mp := fun ⟨owns, bodies⟩ => ⟨owns, fun id member found =>
      bodies id (Array.getElem?_eq_some_iff.mp found).1 member found⟩
    mpr := fun owns => ⟨owns.toOwns, fun id _ => owns.body id⟩ }

/-- The types recorded for nodes that were declared follow from each other, in the eyes of every
later program. -/
structure Coheres (unit : CompilationUnit) (program : Program)
    (declared : CompilationUnit) : Prop where
  inside : ∀ index, (unit.exprTypes.get? index).isSome → index < declared.arena.size
  coherent : ∀ later, program.Enters later → declared.arena.Coherent later.typeRule declared.Owns
    (fun _ => False) unit.exprTypes

/-- All nodes of declared bodies have types. -/
def TypesBodies (unit declared : CompilationUnit) : Prop :=
  ∀ (id : Nat) (member : Member), declared.members.members[id]? = some member →
    ∀ body ∈ member.body, ∀ index, declared.arena.Contains body index →
    (unit.exprTypes.get? index).isSome

/-- The nodes and the bodies are those that were declared. -/
structure Written (unit declared : CompilationUnit) : Prop where
  arena : unit.arena = declared.arena
  members : unit.members.members.map Member.body = declared.members.members.map Member.body

variable {unit later declared : CompilationUnit} {program next : Program}

theorem coheres_empty (none : unit.exprTypes = {}) : unit.Coheres program declared := by
  constructor <;> rw [none]
  · intro index isSome
    simp [IdMap.get?] at isSome
  · exact fun _ _ => Arena.coherent_empty

theorem Coheres.enters (coheres : unit.Coheres program declared) (enters : program.Enters next) :
    unit.Coheres next declared :=
  ⟨coheres.inside, fun _ more => coheres.coherent _ (enters.trans more)⟩

theorem Written.exists_declared {id : Nat} {member : Member} (written : unit.Written declared)
    (found : unit.members.members[id]? = some member) :
    ∃ original, declared.members.members[id]? = some original ∧ original.body = member.body := by
  have read := congrArg (·[id]?) written.members
  simp only [Array.getElem?_map, found, Option.map_some] at read
  exact Option.map_eq_some_iff.mp read.symm

theorem Written.exists_member {id : Nat} {original : Member} (written : unit.Written declared)
    (found : declared.members.members[id]? = some original) :
    ∃ member, unit.members.members[id]? = some member ∧ original.body = member.body := by
  have read := congrArg (·[id]?) written.members
  simp only [Array.getElem?_map, found, Option.map_some] at read
  obtain ⟨member, present, same⟩ := Option.map_eq_some_iff.mp read
  exact ⟨member, present, same.symm⟩

theorem Written.evolve (written : unit.Written declared) (evolved : unit.Evolves later) :
    later.Written declared := by
  refine ⟨evolved.arena.trans written.arena,
    (Array.ext_getElem? fun id => ?_).trans written.members⟩
  simp only [Array.getElem?_map]
  cases found : unit.members.members[id]? with
  | none =>
    have size : later.members.members.size = unit.members.members.size := evolved.size
    have outside : later.members.members.size ≤ id := size ▸ Array.getElem?_eq_none_iff.mp found
    rw [Array.getElem?_eq_none outside]
  | some member =>
    obtain ⟨replaced, present, follows⟩ := evolved.members id member found
    rw [present, Option.map_some, Option.map_some, follows.body]

end CompilationUnit

namespace StageM
open BodyM TypePool Workspace CompilationUnit

variable {work between after : Workspace} {declared : CompilationUnit} {depth : Nat}
    {types : List TypeRef}

/-- A body that is visited keeps types coherent, since no node owns it. -/
theorem coheres_of_trail {id : Nat} {member : Member}
    (trail : Trail declared.arena depth between after member.body.toList types)
    (found : declared.members.members[id]? = some member)
    (enters : between.toProgram.Enters after.toProgram)
    (coheres : between.unit.Coheres between.toProgram declared) :
    after.unit.Coheres after.toProgram declared := by
  have visits := trail after.toProgram (.refl enters.pool.valid)
  constructor
  case inside =>
    exact visits.keep (fun types => ∀ index, (types.get? index).isSome →
      index < declared.arena.size) (fun _ _ _ _ _ visit => visit.inside) coheres.inside
  case coherent =>
    intro later more
    refine (trail later more).keep
      (declared.arena.Coherent later.typeRule declared.Owns fun _ => False)
      (fun ref listed type first last visit consistent => ?_)
      (coheres.coherent later (enters.trans more))
    refine (visit.coherent (fun _ _ own => own.toOwns) consistent).weaken ?_
    rintro index (impossible | ⟨child, rfl, own⟩)
    · exact impossible
    · exact own.body id member found (Option.mem_toList.mp listed)

/-- The second stage on the members of a unit that has no types yet. -/
theorem resolve_members_coheres (sound : work.Sound) (typed : work.unit.Typed work.pool)
    (waiting : work.unit.members.Advanced .resolve 0) (written : work.unit.Written declared)
    (fresh : work.unit.exprTypes = {}) :
    Ensures (work.unit.members.ids.forM (runMember .resolve)) work fun _ after =>
      work.Leads Evolves after ∧ after.Sound ∧ after.unit.Coheres after.toProgram declared ∧
        after.unit.TypesBodies declared := by
  let done (member : Member) (after : Workspace) : Prop := ∀ body ∈ member.body, ∀ index,
    declared.arena.Contains body index → (after.unit.exprTypes.get? index).isSome
  have finished := @members_keep False .resolve work
    (fun after => after.unit.Coheres after.toProgram declared) done
    sound waiting typed (coheres_empty fresh)
    (fun _ _ cohering => ⟨cohering.inside, cohering.coherent⟩) (fun _ _ _ holds => holds) ?_
  · refine finished.ensures.mono ?_
    rintro _ after ⟨led, soundAfter, _, _, coheres, visited⟩
    refine ⟨led, soundAfter, coheres, fun id original there body hasBody => ?_⟩
    obtain ⟨member, found, same⟩ := written.exists_member there
    exact visited id member found body (same ▸ hasBody)
  intro id original member between led soundBetween typedBetween coheres started found follows
  obtain ⟨origin, there, same⟩ := written.exists_declared started
  have arena : between.unit.arena = declared.arena := led.unit.arena.trans written.arena
  refine ((resolveBody_works found typedBetween ⟨False.elim, False.elim⟩ False.elim).both
    (resolveBody_visits found typedBetween)).mono ?_
  rintro _ after ledAfter soundAfter ⟨⟨later, kept, _⟩, depth, types, trail⟩
  rw [arena, follows.body, ← same] at trail
  have enters := ledAfter.enters soundAfter
  have visits := trail after.toProgram (.refl soundAfter.valid)
  refine ⟨later, kept.members,
    kept.typed _ ((typedBetween id member found).grow (ledAfter.growth soundAfter).within),
    coheres_of_trail trail there enters coheres, fun body hasBody index contained => ?_,
    fun other holds body hasBody index contained => ?_⟩
  · have listed : body ∈ origin.body.toList := Option.mem_toList.mpr (same ▸ hasBody)
    exact visits.reach (fun types => (types.get? index).isSome) listed
      (fun _ _ _ visit => visit.records contained) fun _ _ _ _ _ visit => visit.isSome
  · exact visits.keep (fun types => (types.get? index).isSome) (fun _ _ _ _ _ visit => visit.isSome)
      (holds body hasBody index contained)

end StageM
end ClassLang
