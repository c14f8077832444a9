import ClassLang.Proofs.Linkage
import ClassLang.Proofs.Session
import ClassLang.Proofs.Stage.Replacements
import ClassLang.Proofs.Stage.ScopedMembers

/-! The types of a session cohere: what is recorded for a node follows from what is recorded for the
slots that only it holds, and later stages and other units leave it so. -/

namespace ClassLang
open CompilationUnit

/-- What the stages so far make of a declared unit: there are no types until bodies are resolved,
and then all nodes of bodies have one. They cohere in the eyes of every later program. Nodes and
bodies are those that were declared until constants are folded. -/
structure CompilationUnit.Derives (unit : CompilationUnit) (program : Program)
    (declared : CompilationUnit) : Prop where
  coherent : ∀ later, program.Enters later → declared.arena.Coherent later.typeRule declared.Owns
    (fun _ => False) unit.exprTypes
  fresh : unit.progress.rank < Progress.resolved.rank → unit.exprTypes = {}
  recorded : Progress.resolved.rank ≤ unit.progress.rank → unit.TypesBodies declared
  open_ : unit.progress ≠ .constantsFolded → unit.Written declared ∧
    ∀ index, (unit.exprTypes.get? index).isSome → index < declared.arena.size
  folded : unit.progress = .constantsFolded → unit.Refolds declared unit.exprTypes

namespace CompilationUnit.Derives
variable {unit declared : CompilationUnit} {program next : Program} {stage : Stage}
    {reports : List Diagnostic}

/-- After a stage that folds no constants. -/
theorem of_close (working : stage ≠ .foldConstants) (written : unit.Written declared)
    (coheres : unit.Coheres program declared) (fresh : stage = .resolveTypes → unit.exprTypes = {})
    (recorded : stage ≠ .resolveTypes → unit.TypesBodies declared) :
    (unit.close stage reports).Derives program declared where
  coherent := coheres.coherent
  fresh early := by
    change stage.target.rank < _ at early
    cases stage with
    | resolveTypes => exact fresh rfl
    | resolve | check | foldConstants => exact absurd early (by decide)
  recorded late := by
    change _ ≤ stage.target.rank at late
    cases stage with
    | resolveTypes => exact absurd late (by decide)
    | resolve | check | foldConstants => exact recorded nofun
  open_ _ := ⟨⟨written.arena, written.members⟩, coheres.inside⟩
  folded impossible := by
    change stage.target = _ at impossible
    cases stage with
    | foldConstants => exact absurd rfl working
    | resolveTypes | resolve | check => cases impossible

theorem coheres (derives : unit.Derives program declared)
    (open_ : unit.progress ≠ .constantsFolded) :
    unit.Coheres program declared :=
  ⟨(derives.open_ open_).2, derives.coherent⟩

/-- So it is while types are entered, and until bodies are resolved whatever is done. -/
theorem grow (derives : unit.Derives program declared)
    (enters : Progress.resolved.rank ≤ unit.progress.rank → program.Enters next) :
    unit.Derives next declared := by
  refine { derives with coherent := fun later more => ?_ }
  by_cases resolved : Progress.resolved.rank ≤ unit.progress.rank
  · exact derives.coherent later ((enters resolved).trans more)
  · rw [derives.fresh (Nat.lt_of_not_le resolved)]
    exact Arena.coherent_empty

end CompilationUnit.Derives

namespace Program
variable {rank : ParamRef → Nat} {config : BufferConfig} {program next : Program}
    {source : SourceUnit}
  {unit done declared : CompilationUnit} {stage : Stage}

/-- A stage keeps the types coherent, and only the first one does more to the program than enter
types. -/
theorem runStage_derives (sound : program.Sound)
    (stands : unit.Stands False rank config program source) (ready : unit.progress = stage.required)
    (derives : unit.Derives program declared)
    (ran : program.runStage stage unit = .ok (next, done)) :
    done.Derives next declared ∧ (stage ≠ .resolveTypes → program.Enters next) := by
  have open_ := open_of_ready ready
  obtain ⟨work, acted, rfl, rfl⟩ := runStage_eq_ok ran
  obtain ⟨written, -⟩ := derives.open_ open_
  have coheres := derives.coheres open_
  have past := past_of_ready ready
  cases stage with
  | resolveTypes =>
    have fresh : unit.exprTypes = {} := derives.fresh (by rw [ready]; decide)
    have ranked : False → program.pool.Ranked rank := False.elim
    obtain ⟨led, -⟩ :=
      (StageM.resolveTypes_members (stands.sound sound open_) (stands.waiting ready)
      (fun sure => stands.descends sure ready) ranked).ensures ⟨⟩ work acted
    have same := @StageM.runMembers_exprTypes .resolveTypes { toProgram := program, unit } work _
      nofun nofun acted
    have types : work.unit.exprTypes = {} := same.trans fresh
    exact ⟨.of_close nofun (written.evolve led.unit) (coheres_empty types) (fun _ => types)
      (absurd rfl),
      fun impossible => absurd rfl impossible⟩
  | resolve =>
    have fresh : unit.exprTypes = {} := derives.fresh (by rw [ready]; decide)
    obtain ⟨led, soundAfter, coheresAfter, visited⟩ :=
      StageM.resolve_members_coheres (stands.sound sound open_) (stands.typed (past nofun) open_)
        (stands.waiting ready) written fresh ⟨⟩ work acted
    exact ⟨.of_close nofun (written.evolve led.unit) coheresAfter nofun fun _ => visited, fun _ =>
      led.enters soundAfter⟩
  | check =>
    obtain ⟨led, soundAfter, -⟩ :=
      (StageM.check_members (stands.sound sound open_) (stands.typed (past nofun) open_)
      (stands.ready False.elim) stands.inside (stands.waiting ready)).ensures ⟨⟩ work acted
    have types := @StageM.runMembers_exprTypes .check { toProgram := program, unit } work _
      nofun nofun acted
    have enters : program.Enters work.toProgram := led.enters soundAfter
    have coheresAfter : work.unit.Coheres work.toProgram declared := by
      obtain ⟨inside, coherent⟩ := coheres.enters enters
      exact ⟨types ▸ inside, types ▸ coherent⟩
    refine ⟨.of_close nofun (written.evolve led.unit) coheresAfter nofun fun _ => ?_,
      fun _ => enters⟩
    unfold TypesBodies
    rw [types]
    exact derives.recorded (by rw [ready]; decide)
  | foldConstants =>
    obtain ⟨_, _, _, rfl, -⟩ := (@StageM.foldConstants_members False { toProgram := program, unit }
      (stands.waiting ready) stands.arena stands.inside).ensures ⟨⟩ work acted
    have folding : (StageM.refolding declared unit.exprTypes).holds
        (unit.members.ids.forM (StageM.runMember .foldConstants)) fun _ => True :=
      (StageM.refolding declared unit.exprTypes).forM fun id _ => StageM.runMember_refolds id
    obtain ⟨refolds, -⟩ := folding _ (written.refolds coheres) ⟨⟩ _ acted
    refine ⟨⟨refolds.coheres coheres, fun early => absurd early (by decide : ¬ 4 < 2),
      fun _ id member found body hasBody index contained => ?_, fun impossible =>
        absurd rfl impossible,
      fun _ => ⟨refolds.nodes, fun _ _ => rfl, refolds.bodies⟩⟩, fun _ => .refl sound.pool⟩
    have isSome := derives.recorded (by rw [ready]; decide) id member found body hasBody
      index contained
    exact (refolds.types index (coheres.inside index isSome)).symm ▸ isSome

end Program

/-- The units derive from the declared ones, and have come to one progress. -/
def DeriveAll (program : Program) (progress : Progress) : List CompilationUnit →
    List CompilationUnit → Prop :=
  List.Forall₂ fun declared unit => unit.progress = progress ∧ unit.Derives program declared

theorem DeriveAll.grow {program next : Program} {progress : Progress}
    {declared units : List CompilationUnit} (derive : DeriveAll program progress declared units)
    (enters : Progress.resolved.rank ≤ progress.rank → program.Enters next) :
    DeriveAll next progress declared units :=
  derive.imp fun _ _ ⟨reached, derives⟩ => ⟨reached, derives.grow (reached ▸ enters)⟩

namespace PhaseState
variable {rank : ParamRef → Nat} {config : BufferConfig} {sources : List SourceUnit} {stage : Stage}
  {stages started : List Stage} {progress : Progress} {first last : Program}
  {waiting finished declared : List CompilationUnit} {state final : PhaseState}

/-- A phase leaves the types of all units coherent: those of the units that have had their turn, in
the program that the others lead to. -/
theorem Turns.derives (turns : Turns stage first waiting finished last) (sound : first.Sound)
    (stand : StandAll False rank config first stage.required sources waiting)
    (derive : DeriveAll first stage.required declared waiting) :
    (stage ≠ .resolveTypes → first.Enters last) ∧
    DeriveAll last stage.target declared finished := by
  induction turns generalizing sources declared with
  | done =>
    cases derive
    exact ⟨fun _ => .refl sound.pool, .nil⟩
  | @next first middle last unit done waiting others ran continues rest ih =>
    cases stand with
    | @cons source _ sources _ own later =>
      cases derive with
      | @cons origin _ origins _ facts derive =>
        have stages := (Program.runStage_stages sound False.elim own.1 own.2).ensures _ ran
        obtain ⟨derives, enters⟩ := Program.runStage_derives sound own.1 own.2 facts.2 ran
        obtain ⟨more, others⟩ := ih stages.sound (StandAll.grow later continues (.inl rfl))
          (DeriveAll.grow derive fun late =>
            enters (CompilationUnit.later_of_resolved (.inl rfl) late))
        refine ⟨fun working => (enters working).trans (more working),
          .cons ⟨stages.progress, ?_⟩ others⟩
        exact derives.grow fun late =>
          more (CompilationUnit.later_of_resolved (.inr stages.progress) late)

/-- So do all phases that are started. -/
theorem Schedule.derives (schedule : state.Schedule stages started final)
    (chained : Chained progress stages) (holds : state.Holds False rank config sources progress)
    (derive : DeriveAll state.program progress declared state.units) :
    final.program.Sound ∧
      DeriveAll final.program ((started.map Stage.target).getLastD progress) declared
        final.units := by
  induction schedule generalizing progress with
  | done | stop => exact ⟨holds.sound, derive⟩
  | start free ran _ ih =>
    obtain ⟨rfl, chained⟩ := chained
    obtain ⟨holdsNext, _, turns⟩ := (runPhase_holds holds free).ensures _ ran
    rw [List.map_cons, List.getLastD_cons]
    exact ih chained holdsNext (turns.derives holds.sound holds.units derive).2

end PhaseState

namespace Session
variable {config : SessionConfig} {sources : List SourceUnit} {done : Session}

/-- Before the first stage nothing is recorded. -/
theorem opened_derives : DeriveAll (declareUnits { config, sources }).2 .unresolved
    (declareUnits { config, sources }).1 (declareUnits { config, sources }).1 := by
  obtain ⟨_, assembled⟩ := declareUnits_assembled config sources
  obtain ⟨_, declares⟩ := @declareUnits_declares False sources config nofun
  refine List.forall₂_same.mpr fun unit listed => ?_
  obtain ⟨_, _, _, reached⟩ := declares.units.exists_source listed
  have types : unit.exprTypes = {} := assembled.untyped unit listed
  have empty := @coheres_empty unit unit (declareUnits { config, sources }).2 types
  refine ⟨reached, empty.coherent, fun _ => types, fun late => ?_, fun _ =>
    ⟨⟨rfl, rfl⟩, empty.inside⟩, fun folded => ?_⟩
  · exact absurd (reached ▸ late) (by decide)
  · cases reached.symm.trans folded

/-- Whatever stages were started, and whatever errors they reported, the units of a session derive
from the declared ones. -/
theorem run_derives (ran : compile { config, sources } = .ok (.ok done)) : done.program.Sound ∧
    ∃ progress, DeriveAll done.program progress (declareUnits { config, sources }).1
      done.units := by
  obtain ⟨_, opens⟩ := @opened_holds False sources config nofun
  obtain ⟨_, _, started, schedule, _, _⟩ :=
    (@run_holds False sources config nofun).ensures done (Except.ok.inj ran)
  have chained : PhaseState.Chained .unresolved Stage.all := ⟨rfl, rfl, rfl, rfl, trivial⟩
  obtain ⟨sound, derive⟩ := schedule.derives chained opens opened_derives
  exact ⟨sound, _, derive⟩

end Session
end ClassLang
