import ClassLang.Proofs.Coherence
import ClassLang.Proofs.ErrorLimit

/-! What the third stage establishes for each member holds of the session at its end: later members,
units and stages only enter types, add reports and replace bodies. -/

namespace ClassLang
open CompilationUnit

/-- Everything that is reported is said by one of the diagnostics that are kept. -/
def Echoes (kept reports : List Diagnostic) : Prop := ∀ report ∈ reports, ∃ other ∈ kept,
    other.key = report.key

theorem echoes_of_subset {reports kept : List Diagnostic} (subset : reports ⊆ kept) :
    Echoes kept reports :=
  fun report member => ⟨report, subset member, rfl⟩

namespace DiagnosticBuffer
variable {buffer : DiagnosticBuffer}

/-- What the buffer takes for reported is there. -/
def Recalls (buffer : DiagnosticBuffer) : Prop :=
  ∀ key ∈ buffer.seen, ∃ diagnostic ∈ buffer.diagnostics, diagnostic.key = key

theorem promote_key (config : BufferConfig) (diagnostic : Diagnostic) :
    (promote config diagnostic).key = diagnostic.key := by
  unfold promote
  split <;> rfl

theorem Recalls.report (recalls : buffer.Recalls) (diagnostic : Diagnostic) :
    (buffer.report diagnostic).Recalls ∧
    Echoes (buffer.report diagnostic).diagnostics [diagnostic] := by
  have last (others : List Diagnostic) : Echoes (others ++ [promote buffer.config diagnostic])
      [diagnostic] :=
    fun report member => ⟨_, List.mem_append_right _ (List.mem_singleton.mpr rfl),
      List.mem_singleton.mp member ▸ promote_key _ _⟩
  unfold DiagnosticBuffer.report
  dsimp only
  split
  · split
    · rename_i accepted
      refine ⟨recalls, fun report member => ?_⟩
      rw [List.mem_singleton.mp member]
      exact recalls _ (List.contains_iff_mem.mp accepted)
    · refine ⟨fun key member => ?_, last _⟩
      rcases List.mem_cons.mp member with rfl | old
      · exact ⟨_, List.mem_append_right _ (List.mem_singleton.mpr rfl), promote_key _ _⟩
      · obtain ⟨other, listed, same⟩ := recalls key old
        exact ⟨other, List.mem_append_left _ listed, same⟩
  · refine ⟨fun key member => ?_, last _⟩
    obtain ⟨other, listed, same⟩ := recalls key member
    exact ⟨other, List.mem_append_left _ listed, same⟩

/-- The buffer says what it had and what is reported to it. -/
theorem Recalls.reportAll (recalls : buffer.Recalls) (reports : List Diagnostic) :
    (buffer.reportAll reports).Recalls ∧
    Echoes (buffer.reportAll reports).diagnostics (buffer.diagnostics ++ reports) := by
  induction reports generalizing buffer with
  | nil => exact ⟨recalls, echoes_of_subset (by simp [DiagnosticBuffer.reportAll])⟩
  | cons first rest ih =>
    obtain ⟨recallsNow, first_⟩ := recalls.report first
    obtain ⟨recallsLast, later_⟩ := ih recallsNow
    refine ⟨recallsLast, fun report member => ?_⟩
    have either : report ∈ buffer.diagnostics ∨ report = first ∨ report ∈ rest := by
      simpa using member
    rcases either with old | rfl | later
    · exact later_ report (List.mem_append_left _ ((report_extends first).subset old))
    · obtain ⟨other, listed, same⟩ := first_ report (List.mem_singleton.mpr rfl)
      obtain ⟨last, there, again⟩ := later_ other (List.mem_append_left _ listed)
      exact ⟨last, there, again.trans same⟩
    · exact later_ report (List.mem_append_right _ later)

end DiagnosticBuffer

/-- The members differ in their progress and bodies only. -/
structure Member.Alike (before after : Member) : Prop where
  name : after.name = before.name
  span : after.span = before.span
  type : after.type = before.type
  modifiers : after.modifiers = before.modifiers
  isClass : after.isClass = before.isClass

theorem Member.alike_setBody (member : Member) (body : ExprRef) : member.Alike
    (member.setBody body) := by
  unfold Member.setBody
  split
  · rename_i detail
    exact ⟨rfl, rfl, rfl, rfl, by simp [Member.isClass, detail]⟩
  · rename_i detail
    exact ⟨rfl, rfl, rfl, rfl, by simp [Member.isClass, detail]⟩
  · exact ⟨rfl, rfl, rfl, rfl, rfl⟩

theorem Member.Alike.trans {first second third : Member} (earlier : first.Alike second)
    (later : second.Alike third) :
    first.Alike third :=
  ⟨later.name.trans earlier.name, later.span.trans earlier.span, later.type.trans earlier.type,
    later.modifiers.trans earlier.modifiers, later.isClass.trans earlier.isClass⟩

/-- The members are like those of the other unit at their places. -/
def CompilationUnit.Resembles (unit original : CompilationUnit) : Prop :=
  ∀ (id : Nat) (member : Member), unit.members.members[id]? = some member →
    ∃ before, original.members.members[id]? = some before ∧ before.Alike member

theorem CompilationUnit.Resembles.set {unit original : CompilationUnit}
    (resembles : unit.Resembles original) {id : Nat} {member later : Member}
    (found : unit.members.members[id]? = some member) (alike : member.Alike later) :
    { unit with members := unit.members.set id later }.Resembles original := by
  intro other entry present
  change (unit.members.set id later).members[other]? = some entry at present
  rw [MemberArena.lookup_set found] at present
  split at present
  · subst other
    cases present
    obtain ⟨before, there, likeness⟩ := resembles id member found
    exact ⟨before, there, likeness.trans alike⟩
  · exact resembles other entry present

namespace StageM
open Workspace

variable {work : Workspace} {original : CompilationUnit}

theorem foldConstants_resembles (id : Nat) :
    (Keeping fun work : Workspace => work.unit.Resembles original).holds (foldConstants id) fun _ =>
      True :=
  foldConstants_keeps (·.Resembles original) fun _ member _ root _ resembles found _ _ =>
    ⟨resembles, Resembles.set resembles found (member.alike_setBody root)⟩

/-- Folding constants replaces members by members that are alike. -/
theorem runMember_resembles (id : Nat) :
    (Keeping fun work : Workspace => work.unit.Resembles original).holds
      (runMember .foldConstants id) fun _ => True :=
  runMember_keeps (·.Resembles original) (foldConstants_resembles id) fun _ _ resembles found =>
    resembles.set found ⟨rfl, rfl, rfl, rfl, rfl⟩

end StageM

/-- Something about a member, given the diagnostics of its unit, that stays as types are entered,
diagnostics are added and bodies are replaced. -/
structure Lasting (holds : Program → List Diagnostic → Member → Prop) : Prop where
  enter : ∀ {program next reports member}, program.Sound → program.Enters next →
    holds program reports member → holds next reports member
  report : ∀ {program reports kept member}, Echoes kept reports → holds program reports member →
    holds program kept member
  alike : ∀ {program reports before after}, before.Alike after → holds program reports before →
    holds program reports after

/-- Checking a member establishes it. -/
def StageM.Establishes (holds : Program → List Diagnostic → Member → Prop) : Prop :=
  ∀ (work : Workspace) (id : Nat) (member : Member), work.Sound → work.unit.Typed work.pool →
    work.unit.members.members[id]? = some member →
      Ensures (checkMember id) work fun _ after => holds after.toProgram after.reports member

variable {holds : Program → List Diagnostic → Member → Prop}

/-- It is known of the members of a unit. -/
def CompilationUnit.Knows (unit : CompilationUnit)
    (holds : Program → List Diagnostic → Member → Prop) (program : Program)
    (reports : List Diagnostic) : Prop :=
  ∀ (id : Nat) (member : Member), unit.members.members[id]? = some member →
    holds program reports member

/-- The third stage on the members of a unit, one after the other: between them types are entered
and reports added only. -/
theorem StageM.check_members_keep {work : Workspace} {keeps : Nat → Workspace → Prop}
    (sound : work.Sound) (typed : work.unit.Typed work.pool)
    (waiting : work.unit.members.Advanced .check 0) (start : keeps 0 work)
    (each : ∀ (id : Nat) (member : Member) (between after : Workspace), work.Leads Evolves between →
      between.Sound → between.unit.Typed between.pool →
      between.unit.members.members[id]? = some member → keeps id between →
      between.Leads Lowers after → after.Sound → (checkMember id).run between = .ok (⟨⟩, after) →
      keeps (id + 1)
        (after.withMembers
          (between.unit.members.set id { member with progress := Stage.check.target }))) :
    Ensures (work.unit.members.ids.forM (runMember .check)) work fun _ =>
      keeps work.unit.members.size := by
  have finished := @members_advance False .check _ keeps _ (Nat.le_refl _) sound waiting
    typed start ?_
  · exact finished.ensures.mono fun _ _ ⟨_, _, _, _, kept⟩ => kept
  intro id _ member between led soundBetween typedBetween kept _ found _ soundNow
  have checked := checkMember_works found typedBetween ⟨False.elim, False.elim⟩ False.elim soundNow
  refine ⟨fun result after ran => ?_, False.elim⟩
  obtain ⟨lowers, soundAfter, _⟩ := checked.ensures result after ran
  have led' := lowers.widen fun _ _ => Lowers.evolves
  refine ⟨led', soundAfter, member, ?_,
    (typedBetween id member found).grow (led'.growth soundAfter).within,
    each id member between after led soundBetween typedBetween found kept lowers soundAfter ran⟩
  rw [lowers.unit.members, MemberArena.set_self found]

/-- Checking the members of a unit establishes it for all of them. -/
theorem StageM.check_members_know {work : Workspace} (lasting : Lasting holds)
    (establishes : StageM.Establishes holds) (sound : work.Sound)
    (typed : work.unit.Typed work.pool) (waiting : work.unit.members.Advanced .check 0) :
    Ensures (work.unit.members.ids.forM (runMember .check)) work fun _ after =>
      after.unit.Knows holds after.toProgram after.reports := by
  let upTo (count : Nat) (after : Workspace) : Prop :=
    after.unit.members.size = work.unit.members.size ∧
    ∀ (id : Nat) (member : Member), id < count → after.unit.members.members[id]? = some member →
      holds after.toProgram after.reports member
  refine (@StageM.check_members_keep work upTo sound typed waiting ⟨rfl, by simp⟩ ?_).mono ?_
  · rintro index member between after led soundBetween typedBetween found ⟨size, all⟩ lowers
      soundAfter ran
    have own : holds after.toProgram after.reports member :=
      establishes between index member soundBetween typedBetween found ⟨⟩ after ran
    refine ⟨MemberArena.size_set.trans size, fun id entry earlier present => ?_⟩
    replace present := (MemberArena.lookup_set found).symm.trans present
    change holds after.toProgram after.reports entry
    split at present
    · cases present
      have marked : member.Alike { member with progress := Stage.check.target } :=
        ⟨rfl, rfl, rfl, rfl, rfl⟩
      exact lasting.alike marked own
    · rename_i differs
      obtain ⟨added, more, _⟩ := lowers.reports
      have before := all id entry (Nat.lt_of_le_of_ne (Nat.lt_succ_iff.mp earlier) differs) present
      refine lasting.report (echoes_of_subset ?_)
        (lasting.enter soundBetween.program ⟨lowers.growth soundAfter, lowers.symbols⟩ before)
      exact more ▸ List.subset_append_left _ _
  · rintro _ after ⟨size, all⟩ id member found
    exact all id member (size ▸ (Array.getElem?_eq_some_iff.mp found).1) found

namespace CompilationUnit

/-- What is known of the members of a unit once they are checked. -/
structure Checked (unit : CompilationUnit) (holds : Program → List Diagnostic → Member → Prop)
    (program : Program) : Prop where
  recalls : unit.diagnostics.Recalls
  known : Progress.checked.rank ≤ unit.progress.rank →
    unit.Knows holds program unit.diagnostics.diagnostics

theorem Checked.grow {unit : CompilationUnit} {program next : Program} (lasting : Lasting holds)
    (checked : unit.Checked holds program) (sound : program.Sound)
    (enters : Progress.checked.rank ≤ unit.progress.rank → program.Enters next) :
    unit.Checked holds next :=
  { checked with known := fun late id member found =>
      lasting.enter sound (enters late) (checked.known late id member found) }

/-- The diagnostics of a unit say what they said before, and what is reported. -/
theorem Checked.close {unit : CompilationUnit} {program next : Program} {reports : List Diagnostic}
    {later : CompilationUnit} {stage : Stage} (lasting : Lasting holds)
    (checked : unit.Checked holds program) (diagnostics : later.diagnostics = unit.diagnostics)
    (either : Progress.checked.rank ≤ stage.target.rank →
      later.Knows holds next reports ∨ later.Knows holds next unit.diagnostics.diagnostics) :
    (later.close stage reports).Checked holds next := by
  obtain ⟨recalls, echoes⟩ := checked.recalls.reportAll reports
  have same : (later.close stage reports).diagnostics = unit.diagnostics.reportAll reports :=
    congrArg (·.reportAll reports) diagnostics
  refine ⟨same ▸ recalls, fun late id member found => ?_⟩
  rw [same]
  rcases either late with fresh | old
  · exact lasting.report (fun report listed => echoes report (List.mem_append_right _ listed))
      (fresh id member found)
  · exact lasting.report (fun report listed => echoes report (List.mem_append_left _ listed))
      (old id member found)

end CompilationUnit

namespace Program
variable {rank : ParamRef → Nat} {config : BufferConfig} {program next : Program}
    {source : SourceUnit}
  {unit done : CompilationUnit} {stage : Stage}

/-- A stage on a unit keeps what is known of its members, or establishes it. Only the first stage
does more to the program than enter types. -/
theorem runStage_checked (lasting : Lasting holds) (establishes : StageM.Establishes holds)
    (sound : program.Sound) (stands : unit.Stands False rank config program source)
    (ready : unit.progress = stage.required) (checked : unit.Checked holds program)
    (ran : program.runStage stage unit = .ok (next, done)) :
    done.Checked holds next ∧ (stage ≠ .resolveTypes → program.Enters next) := by
  have open_ := open_of_ready ready
  obtain ⟨work, acted, rfl, rfl⟩ := runStage_eq_ok ran
  have diagnostics : work.unit.diagnostics = unit.diagnostics := StageM.runMembers_diagnostics acted
  have past := past_of_ready ready
  cases stage with
  | resolveTypes => exact ⟨checked.close lasting diagnostics fun late => absurd late (by decide),
      fun other => absurd rfl other⟩
  | resolve =>
    obtain ⟨led, soundAfter, _⟩ :=
      (StageM.resolve_members (stands.sound sound open_) (stands.typed (past nofun) open_)
      (stands.ready False.elim) stands.inside (stands.waiting ready)).ensures ⟨⟩ work acted
    exact ⟨checked.close lasting diagnostics fun late => absurd late (by decide), fun _ =>
      ⟨led.growth soundAfter, led.symbols⟩⟩
  | check =>
    have soundHere := stands.sound sound open_
    have typed := stands.typed (past nofun) open_
    obtain ⟨led, soundAfter, _⟩ :=
      (StageM.check_members soundHere typed (stands.ready False.elim) stands.inside
      (stands.waiting ready)).ensures ⟨⟩ work acted
    have promised := StageM.check_members_know lasting establishes soundHere typed
      (stands.waiting ready) ⟨⟩ work acted
    exact ⟨checked.close lasting diagnostics fun _ => .inl promised, fun _ =>
      ⟨led.growth soundAfter, led.symbols⟩⟩
  | foldConstants =>
    obtain ⟨_, _, _, rfl, _⟩ := (@StageM.foldConstants_members False { toProgram := program, unit }
      (stands.waiting ready) stands.arena stands.inside).ensures ⟨⟩ work acted
    have keeping : (Keeping fun work : Workspace => work.unit.Resembles unit).holds
        (unit.members.ids.forM (StageM.runMember .foldConstants)) fun _ => True :=
      (Keeping _).forM fun id _ => StageM.runMember_resembles id
    have start : unit.Resembles unit := fun id member found =>
      ⟨member, found, rfl, rfl, rfl, rfl, rfl⟩
    obtain ⟨resembles, -⟩ := keeping _ start ⟨⟩ _ acted
    refine ⟨checked.close lasting diagnostics fun _ => .inr fun id member found => ?_, fun _ =>
      .refl sound.pool⟩
    obtain ⟨before, there, alike⟩ := resembles id member found
    exact lasting.alike alike (checked.known (by rw [ready]; decide) id before there)

end Program

namespace PhaseState
variable {rank : ParamRef → Nat} {config : BufferConfig} {sources : List SourceUnit} {stage : Stage}
  {stages started : List Stage} {progress : Progress} {first last : Program}
  {waiting finished : List CompilationUnit} {state final : PhaseState}

/-- A phase does so for all units. -/
theorem Turns.checked (lasting : Lasting holds) (establishes : StageM.Establishes holds)
    (turns : Turns stage first waiting finished last) (sound : first.Sound)
    (stand : StandAll False rank config first stage.required sources waiting)
    (checked : ∀ unit ∈ waiting, unit.Checked holds first) :
    (stage ≠ .resolveTypes → first.Enters last) ∧ ∀ unit ∈ finished, unit.Checked holds last := by
  induction turns generalizing sources with
  | done => exact ⟨fun _ => .refl sound.pool, nofun⟩
  | @next first middle last unit done waiting others ran continues rest ih =>
    cases stand with
    | @cons source _ sources _ own later =>
      obtain ⟨checkedUnit, others⟩ := List.forall_mem_cons.mp checked
      have stages := (Program.runStage_stages sound False.elim own.1 own.2).ensures _ ran
      obtain ⟨finishes, enters⟩ :=
        Program.runStage_checked lasting establishes sound own.1 own.2 checkedUnit ran
      have waits : ∀ unit ∈ waiting, unit.Checked holds middle := by
        intro unit listed
        obtain ⟨_, _, _, reached⟩ := StandAll.exists_source later listed
        exact (others unit listed).grow lasting sound fun late =>
          enters (later_of_checked (.inl reached) late)
      obtain ⟨more, all⟩ := ih stages.sound (StandAll.grow later continues (.inl rfl)) waits
      refine ⟨fun later => (enters later).trans (more later), List.forall_mem_cons.mpr ⟨?_, all⟩⟩
      exact finishes.grow lasting stages.sound fun late =>
        more (later_of_checked (.inr stages.progress) late)

/-- So do all phases that are started. -/
theorem Schedule.checked (lasting : Lasting holds) (establishes : StageM.Establishes holds)
    (schedule : state.Schedule stages started final) (chained : Chained progress stages)
    (held : state.Holds False rank config sources progress)
    (checked : ∀ unit ∈ state.units, unit.Checked holds state.program) :
    ∀ unit ∈ final.units, unit.Checked holds final.program := by
  induction schedule generalizing progress with
  | done | stop => exact checked
  | start free ran _ ih =>
    obtain ⟨rfl, chained⟩ := chained
    obtain ⟨heldNext, _, turns⟩ := (runPhase_holds held free).ensures _ ran
    exact ih chained heldNext (turns.checked lasting establishes held.sound held.units checked).2

end PhaseState

namespace Session
variable {config : SessionConfig} {sources : List SourceUnit} {done : Session}

/-- Nothing is reported before the first stage. -/
theorem declareUnits_diagnostics {session : Session} :
    ∀ unit ∈ session.declareUnits.1,
      unit.diagnostics = { config := session.config.diagnostics } := by
  have each : ∀ (entries : List (SourceUnit × Nat)) (state : List CompilationUnit × Program),
      (∀ unit ∈ state.1, unit.diagnostics = { config := session.config.diagnostics }) →
      ∀ unit ∈ (entries.foldl (fun state entry =>
        let declared := state.2.declareUnit entry.2 entry.1
        (state.1 ++ [{ declared.1 with diagnostics := { config := session.config.diagnostics } }],
          declared.2)) state).1,
        unit.diagnostics = { config := session.config.diagnostics } := by
    intro entries
    induction entries with
    | nil => exact fun _ same => same
    | cons entry entries ih =>
      refine fun state same => ih _ fun unit member => ?_
      rcases List.mem_append.mp member with old | new
      · exact same unit old
      · rw [List.mem_singleton.mp new]
  exact each _ _ (by simp)

/-- What checking a member establishes is known of all members of a session that are checked. -/
theorem run_checked (lasting : Lasting holds) (establishes : StageM.Establishes holds)
    (ran : compile { config, sources } = .ok (.ok done)) :
    done.program.Sound ∧ ∀ unit ∈ done.units, unit.Checked holds done.program := by
  obtain ⟨_, opens⟩ := @opened_holds False sources config nofun
  obtain ⟨_, _, started, schedule, heldAfter, _⟩ :=
    (@run_holds False sources config nofun).ensures done (Except.ok.inj ran)
  have chained : PhaseState.Chained .unresolved Stage.all := ⟨rfl, rfl, rfl, rfl, trivial⟩
  refine ⟨heldAfter.sound, schedule.checked lasting establishes chained opens fun unit listed => ?_⟩
  obtain ⟨_, _, _, reached⟩ := opens.units.exists_source listed
  refine ⟨?_, fun late => absurd (reached ▸ late) (by decide)⟩
  rw [declareUnits_diagnostics unit listed]
  exact fun _ member => absurd member List.not_mem_nil

end Session
end ClassLang
