import ClassLang.CompilationUnit
import ClassLang.Proofs.Pattern.Analysis
import ClassLang.Proofs.SymbolTable
import Mathlib.Order.Defs.Unbundled

/-! What the stages keep of a workspace, and a logic for the actions of a stage: an action that
starts in a sound workspace leaves a sound one and changes only what its frame allows. -/

namespace ClassLang

namespace MatchGroup

variable {group : MatchGroup} {pool larger : TypePool} {before after : PatternStore}

theorem HeldBy.grow (held : group.HeldBy pool before) (within : pool.Within larger)
    (kept : before.Keeps after) : group.HeldBy larger after := by
  refine ⟨within.has held.subject, fun id member => ?_⟩
  obtain ⟨tree, represents⟩ := held.arms id member
  exact ⟨tree, represents.keep kept⟩

/-- Every typed arm of the group is made from an arm of the match, and takes the class apart that
one takes apart. -/
def Copies (group : MatchGroup) (arena : Arena) (store : PatternStore) (arms : List MatchArm) :
    Prop :=
  ∀ id, some id ∈ group.arms.map (·.pattern) → ∃ arm ∈ arms, ∀ class_,
    arena.TakesClass arm.pattern class_ → store.TakesClass id class_

theorem Copies.keep {arena : Arena} {arms : List MatchArm} (copies : group.Copies arena before arms)
    (kept : before.Keeps after) : group.Copies arena after arms := by
  intro id member
  obtain ⟨arm, present, takes⟩ := copies id member
  exact ⟨arm, present, fun class_ written => (takes class_ written).keep kept⟩

end MatchGroup

/-- The resolved superclass and interfaces of a class; other members have none. -/
def Member.supertypes (member : Member) : List TypeRef :=
  match member.detail with
  | .class_ _ _ _ superType interfaceTypes _ _ => superType.toList ++ interfaceTypes
  | _ => []

/-- The types of the member, of its parameters and above it are in the pool. -/
structure Member.Typed (member : Member) (pool : TypePool) : Prop where
  type : pool.Has member.type
  params : ∀ param ∈ member.params, pool.Has param.type
  supertypes : ∀ type ∈ member.supertypes, pool.Has type

theorem Member.Typed.grow {member : Member} {before after : TypePool} (typed : member.Typed before)
    (within : before.Within after) : member.Typed after :=
  ⟨within.has typed.type, fun param present => within.has (typed.params param present),
    fun type present => within.has (typed.supertypes type present)⟩

namespace CompilationUnit

/-- The members are laid out: every member has a symbol, a member stands in a class that itself
stands in none, and the members and parameters that a class lists are there. -/
structure Laid (unit : CompilationUnit) (pool : TypePool) (symbols : Nat) : Prop where
  size : unit.symbols.size = unit.members.size
  symbols : ∀ (id symbol : Nat), unit.symbols[id]? = some symbol → symbol < symbols
  owners : ∀ (id : Nat) (member : Member), unit.members.members[id]? = some member →
    ∀ owner ∈ member.owner, ∃ class_, unit.members.members[owner]? = some class_ ∧
      class_.owner = none
  members : ∀ (id : Nat) (member : Member), unit.members.members[id]? = some member →
    ∀ inner ∈ member.members, inner < unit.members.size
  params : ∀ (id : Nat) (member : Member), unit.members.members[id]? = some member →
    ∀ param ∈ member.typeParams, pool.Declares param.id

/-- What is recorded about expressions refers to the pool, to the patterns of the unit and to
symbols. -/
structure Recorded (unit : CompilationUnit) (pool : TypePool) (symbols : Nat) : Prop where
  patterns : unit.patterns.Sound pool
  types : ∀ (index : Nat) (type : TypeRef), unit.exprTypes.get? index = some type → pool.Has type
  resolutions : ∀ (index : Nat) (resolution : Resolution) (symbol : Nat),
    unit.resolutions.get? index = some resolution → resolution.symbol? = some symbol →
    symbol < symbols
  groups : ∀ (index : Nat) (group : MatchGroup), unit.matchGroups.get? index = some group →
    group.HeldBy pool unit.patterns
  copies : ∀ (index : Nat) (group : MatchGroup) (scrutinee : ExprRef) (arms : List MatchArm)
    (span : Span), unit.matchGroups.get? index = some group →
    unit.arena.exprs[index]? = some ⟨.matchOn scrutinee arms, span⟩ →
    group.Copies unit.arena unit.patterns arms
  boundUses : ∀ usage ∈ unit.boundUses, pool.Has usage.type

def Typed (unit : CompilationUnit) (pool : TypePool) : Prop :=
  ∀ (id : Nat) (member : Member), unit.members.members[id]? = some member → member.Typed pool

variable {unit : CompilationUnit} {before after : TypePool} {fewer more : Nat}

theorem Laid.grow (laid : unit.Laid before fewer) (within : before.Within after)
    (le : fewer ≤ more) : unit.Laid after more :=
  { laid with
    symbols := fun id symbol found => Nat.lt_of_lt_of_le (laid.symbols id symbol found) le
    params := fun id member found param present =>
      within.declares (laid.params id member found param present) }

theorem Recorded.grow (recorded : unit.Recorded before fewer) (within : before.Within after)
    (le : fewer ≤ more) : unit.Recorded after more :=
  { recorded with
    patterns := recorded.patterns.grow within.types
    types := fun index type found => within.has (recorded.types index type found)
    resolutions := fun index resolution symbol found refers =>
      Nat.lt_of_lt_of_le (recorded.resolutions index resolution symbol found refers) le
    groups := fun index group found => (recorded.groups index group found).grow within (.refl _)
    boundUses := fun usage member => within.has (recorded.boundUses usage member) }

theorem Typed.grow (typed : unit.Typed before) (within : before.Within after) : unit.Typed after :=
  fun id member found => (typed id member found).grow within

end CompilationUnit

/-- The shared parts fit together. -/
structure Program.Sound (program : Program) : Prop where
  pool : program.pool.Valid
  symbols : program.symbols.HeldBy program.pool

/-- The shared parts fit together, and the unit refers to what is there. -/
structure Workspace.Sound (work : Workspace) : Prop where
  program : work.toProgram.Sound
  laid : work.unit.Laid work.pool work.symbols.size
  recorded : work.unit.Recorded work.pool work.symbols.size

namespace Workspace

variable {before after work : Workspace}

theorem Sound.valid (sound : work.Sound) : work.pool.Valid := sound.program.pool

theorem Sound.hierarchy (sound : work.Sound) : work.hierarchy.HeldBy work.pool :=
  sound.program.symbols.hierarchy sound.valid

/-- Reports are only added, and every one is as severe as its code. -/
def Reports (before after : Workspace) : Prop :=
  ∃ added, after.reports = before.reports ++ added ∧ ∀ report ∈ added, report.Standard

theorem Reports.refl (work : Workspace) : work.Reports work := ⟨[], by simp, by simp⟩

theorem Reports.trans {first second third : Workspace} (former : first.Reports second)
    (latter : second.Reports third) : first.Reports third := by
  obtain ⟨earlier, same, standard⟩ := former
  obtain ⟨later, again, also⟩ := latter
  refine ⟨earlier ++ later, by rw [again, same, List.append_assoc], fun report member => ?_⟩
  rcases List.mem_append.mp member with old | new
  · exact standard report old
  · exact also report new

/-- Types are entered, the unit is changed as `change` allows, and reports are added. -/
structure Leads (change : CompilationUnit → CompilationUnit → Prop) (before after : Workspace) :
    Prop where
  pool : before.pool.Extends after.pool
  symbols : after.symbols = before.symbols
  unit : change before.unit after.unit
  reports : before.Reports after

variable {change other : CompilationUnit → CompilationUnit → Prop}

instance [IsPreorder CompilationUnit change] : IsPreorder Workspace (Leads change) where
  refl work := ⟨.refl _, rfl, refl_of change _, .refl work⟩
  trans _ _ _ earlier later := ⟨earlier.pool.trans later.pool, later.symbols.trans earlier.symbols,
    trans_of change earlier.unit later.unit, earlier.reports.trans later.reports⟩

theorem Leads.widen (led : before.Leads change after)
    (wider : ∀ before after, change before after → other before after) :
    before.Leads other after :=
  ⟨led.pool, led.symbols, wider _ _ led.unit, led.reports⟩

theorem Leads.growth (led : before.Leads change after) (sound : after.Sound) :
    before.pool.Growth after.pool :=
  ⟨led.pool, sound.valid⟩

end Workspace

/-- An answer that does not depend on the workspace leaves it alone. -/
theorem StageM.lift_eq_ok {answer : Except Abort α} {start final : Workspace} {result : α}
    (ran : (liftM answer : StageM α).run start = .ok (result, final)) :
    answer = .ok result ∧ start = final := by
  cases answer with
  | ok value =>
    cases ran
    exact ⟨rfl, rfl⟩
  | error fault => cases ran

theorem StageM.lift_ensures {answer : Except Abort α} {work : Workspace}
    {post : α → Workspace → Prop} (holds : ∀ result, answer = .ok result → post result work) :
    Ensures (liftM answer : StageM α) work post := by
  intro result after ran
  obtain ⟨answered, rfl⟩ := StageM.lift_eq_ok ran
  exact holds result answered

/-- Whenever the action ends in a sound workspace, the workspace is sound again and has changed as
the frame allows, and `post` holds; if `total` holds it ends. -/
def StageM.Works (total : Prop) (frame : Workspace → Workspace → Prop) (action : StageM α)
    (work : Workspace) (post : α → Workspace → Prop) : Prop :=
  work.Sound → Runs total action work fun result after =>
    frame work after ∧ after.Sound ∧ post result after

/-- The action may enter types and report, and nothing else. -/
abbrev StageM.Asks (total : Prop) (action : StageM α) (work : Workspace)
    (post : α → Workspace → Prop) : Prop :=
  StageM.Works total (Workspace.Leads Eq) action work post

namespace StageM.Works
open Workspace

variable {total : Prop} {frame wider : Workspace → Workspace → Prop} {work : Workspace}
  {post : β → Workspace → Prop}

theorem mono {action : StageM α} {weak strong : α → Workspace → Prop}
    (works : Works total frame action work strong)
    (weaken : ∀ result after, frame work after → after.Sound → strong result after →
      weak result after) : Works total frame action work weak :=
  fun sound => (works sound).mono fun result after holds =>
    ⟨holds.1, holds.2.1, weaken result after holds.1 holds.2.1 holds.2.2⟩

theorem widen {action : StageM α} {post : α → Workspace → Prop}
    (works : Works total frame action work post)
    (allows : ∀ after, frame work after → wider work after) :
    Works total wider action work post :=
  fun sound => (works sound).mono fun _ after holds => ⟨allows after holds.1, holds.2⟩

/-- What is known of every end besides. -/
theorem also {action : StageM α} {post other : α → Workspace → Prop}
    (works : Works total frame action work post)
    (ensures : work.Sound → Ensures action work other) :
    Works total frame action work fun result after => post result after ∧ other result after :=
  fun sound => ((works sound).and (ensures sound)).mono fun _ _ ⟨⟨led, soundAfter, holds⟩, more⟩ =>
    ⟨led, soundAfter, holds, more⟩

/-- The soundness of the workspace may be used. -/
theorem ofSound {action : StageM β} (works : work.Sound → Works total frame action work post) :
    Works total frame action work post :=
  fun sound => works sound sound

theorem get {next : Workspace → StageM β} (rest : Works total frame (next work) work post) :
    Works total frame (MonadState.get >>= next) work post :=
  fun sound => Runs.bind ((Completes.get (rest sound)).runs total)

/-- An answer that does not depend on the workspace. -/
theorem lift_runs {answer : Except Abort α} {post : α → Workspace → Prop}
    (answers : total → ∃ result, answer = .ok result)
    (holds : ∀ result, answer = .ok result → post result work) :
    Runs total (liftM answer : StageM α) work post := by
  cases answer with
  | ok value => exact Completes.runs ⟨value, work, rfl, holds value rfl⟩ total
  | error fault =>
    refine Runs.never (fun sure => ?_) fun _ _ ran => nomatch ran
    obtain ⟨_, impossible⟩ := answers sure
    cases impossible

theorem lift {answer : Except Abort α} {next : α → StageM β}
    (answers : total → ∃ result, answer = .ok result)
    (rest : ∀ result, answer = .ok result → Works total frame (next result) work post) :
    Works total frame (liftM answer >>= next) work post :=
  fun sound => Runs.bind (lift_runs answers fun result found => rest result found sound)

theorem inspect {query : Workspace → Except Abort α} {next : α → StageM β}
    (answers : total → ∃ answer, query work = .ok answer)
    (rest : ∀ answer, query work = .ok answer → Works total frame (next answer) work post) :
    Works total frame (StageM.inspect query >>= next) work post :=
  fun sound => Runs.bind (Runs.bind ((Completes.get
    (lift_runs answers fun answer found => rest answer found sound)).runs total))

/-- A step that is not reached when `total` holds. -/
theorem fails {fault : Abort} {post : α → Workspace → Prop} (excluded : ¬ total) :
    Works total frame (throw fault) work post :=
  fun _ => Runs.never excluded fun _ _ ran => nomatch ran

section
variable [IsPreorder Workspace frame]

theorem pure {result : α} {post : α → Workspace → Prop} (holds : post result work) :
    Works total frame (Pure.pure result) work post :=
  fun sound => Runs.pure ⟨refl_of frame work, sound, holds⟩

theorem bind {action : StageM α} {next : α → StageM β} {middle : α → Workspace → Prop}
    (first : Works total frame action work middle)
    (rest : ∀ result between, frame work between → between.Sound → middle result between →
      Works total frame (next result) between post) :
    Works total frame (action >>= next) work post := by
  intro sound
  refine Runs.bind ((first sound).mono ?_)
  rintro result between ⟨led, soundBetween, promised⟩
  refine (rest result between led soundBetween promised soundBetween).mono ?_
  rintro value after ⟨more, soundAfter, holds⟩
  exact ⟨trans_of frame led more, soundAfter, holds⟩

/-- A question that is the last step. -/
theorem answer {query : Workspace → Except Abort α} {post : α → Workspace → Prop}
    (answers : total → ∃ answer, query work = .ok answer)
    (holds : ∀ answer, query work = .ok answer → post answer work) :
    Works total frame (StageM.inspect query) work post := by
  rw [← bind_pure (StageM.inspect query)]
  exact inspect answers fun answer found => pure (holds answer found)

theorem forM {action : α → StageM PUnit} {elements : List α} {keeps : Workspace → Prop}
    (first : keeps work) (each : ∀ element ∈ elements, ∀ between, frame work between →
      between.Sound → keeps between → Works total frame (action element) between fun _ => keeps) :
    Works total frame (elements.forM action) work fun _ => keeps := by
  induction elements generalizing work with
  | nil => exact pure first
  | cons element rest ih =>
    refine ofSound fun sound => bind (each element List.mem_cons_self work (refl_of frame work)
      sound first) fun _ between led soundBetween holds => ?_
    exact ih holds fun other member after more =>
      each other (List.mem_cons_of_mem _ member) after (trans_of frame led more)

/-- What is done with each element stays done, when the frame does not undo it. -/
theorem forEach {action : α → StageM PUnit} {elements : List α} {done : α → Workspace → Prop}
    (stable : ∀ element before after, frame before after → before.Sound → done element before →
      done element after)
    (each : ∀ element ∈ elements, ∀ between, frame work between → between.Sound →
      Works total frame (action element) between fun _ => done element) :
    Works total frame (elements.forM action) work fun _ after =>
      ∀ element ∈ elements, done element after := by
  induction elements generalizing work with
  | nil => exact pure (by simp)
  | cons first rest ih =>
    refine ofSound fun sound => bind (each first List.mem_cons_self work (refl_of frame work)
      sound) fun _ between led soundBetween holds => ?_
    refine (ih fun element member after more => each element (List.mem_cons_of_mem _ member)
      after (trans_of frame led more)).mono fun _ after more _ later element member => ?_
    rcases List.mem_cons.mp member with rfl | inRest
    · exact stable _ _ _ more soundBetween holds
    · exact later element inRest

theorem anyM {test : α → StageM Bool} {elements : List α}
    (each : ∀ element ∈ elements, ∀ between, frame work between → between.Sound →
      Works total frame (test element) between fun _ _ => True) :
    Works total frame (elements.anyM test) work fun _ _ => True := by
  induction elements generalizing work with
  | nil => exact pure trivial
  | cons first rest ih =>
    refine ofSound fun sound => bind (each first List.mem_cons_self work (refl_of frame work)
      sound) fun passed between led soundBetween _ => ?_
    cases passed with
    | true => exact pure trivial
    | false =>
      exact ih fun element member after more =>
        each element (List.mem_cons_of_mem _ member) after (trans_of frame led more)

/-- What holds of every result, when the frame does not end it. -/
theorem mapM {action : α → StageM β} {elements : List α} {holds : β → Workspace → Prop}
    (stable : ∀ result before after, frame before after → after.Sound → holds result before →
      holds result after)
    (each : ∀ element ∈ elements, ∀ between, frame work between → between.Sound →
      Works total frame (action element) between holds) :
    Works total frame (elements.mapM action) work fun results after =>
      ∀ result ∈ results, holds result after := by
  induction elements generalizing work with
  | nil => exact pure (by simp)
  | cons first rest ih =>
    rw [List.mapM_cons]
    refine ofSound fun sound => bind (each first List.mem_cons_self work (refl_of frame work)
      sound) fun result between led soundBetween promised => ?_
    refine bind (ih fun element member after more => each element (List.mem_cons_of_mem _ member)
      after (trans_of frame led more)) fun results after more soundAfter later => ?_
    refine pure fun other member => ?_
    rcases List.mem_cons.mp member with rfl | inRest
    · exact stable _ _ _ more soundAfter promised
    · exact later other inRest

theorem findSomeM? {search : α → StageM (Option β)} {elements : List α}
    {holds : β → Workspace → Prop}
    (each : ∀ element ∈ elements, ∀ between, frame work between → between.Sound →
      Works total frame (search element) between fun found after =>
        ∀ result ∈ found, holds result after) :
    Works total frame (elements.findSomeM? search) work fun found after =>
      ∀ result ∈ found, holds result after := by
  induction elements generalizing work with
  | nil => exact pure (by simp)
  | cons first rest ih =>
    refine ofSound fun sound => bind (each first List.mem_cons_self work (refl_of frame work)
      sound) fun found between led soundBetween all => ?_
    cases found with
    | some result => exact pure all
    | none =>
      exact ih fun element member after more =>
        each element (List.mem_cons_of_mem _ member) after (trans_of frame led more)

end

/-! Steps that enter types or report. -/

theorem onPool {action : PoolM α} {post : α → TypePool → Prop}
    (asked : PoolM.Works total action work.pool post) :
    Asks total (StageM.onPool action) work fun result after => post result after.pool := by
  intro sound
  have step : Runs total (StageM.onPool action) work fun result after =>
      ∃ pool, after = { work with pool } ∧ work.pool.Growth pool ∧ post result pool := by
    obtain ⟨ensures, ends⟩ := asked sound.valid
    refine ⟨fun result after ran => ?_, fun sure => ?_⟩
    · obtain ⟨⟨_, pool⟩, worked, same⟩ := Except.bind_eq_ok ran
      cases same
      exact ⟨pool, rfl, ensures _ pool worked⟩
    · obtain ⟨value, pool, ran⟩ := ends sure
      refine ⟨value, { work with pool }, ?_⟩
      change (action.run work.pool >>= fun result => _) = _
      rw [ran]
      rfl
  refine step.mono ?_
  rintro result after ⟨pool, rfl, growth, holds⟩
  exact ⟨⟨growth.grown, rfl, rfl, .refl _⟩,
    ⟨⟨growth.valid, sound.program.symbols.grow growth.within⟩,
      sound.laid.grow growth.within (Nat.le_refl _),
      sound.recorded.grow growth.within (Nat.le_refl _)⟩, holds⟩

/-- What enters types and reports may be done in every stage. -/
theorem asks {change : CompilationUnit → CompilationUnit → Prop} [IsPreorder CompilationUnit change]
    {action : StageM α} {post : α → Workspace → Prop} (asked : Asks total action work post) :
    Works total (Leads change) action work post :=
  widen asked fun _ led => led.widen fun before _ same => same ▸ refl_of change before

/-- `asks`, with the unit as it was. -/
theorem asking {change : CompilationUnit → CompilationUnit → Prop}
    [IsPreorder CompilationUnit change] {action : StageM α} {post : α → Workspace → Prop}
    (asked : Asks total action work post) :
    Works total (Leads change) action work fun result after =>
      after.unit = work.unit ∧ post result after :=
  asks (asked.mono fun _ _ led _ holds => ⟨led.unit.symm, holds⟩)

theorem builds {action : PoolM α} {post : α → TypePool → Prop}
    (asked : PoolM.Builds action work.pool post) :
    Asks total (StageM.onPool action) work fun result after => post result after.pool :=
  onPool (asked.works total)

theorem withClasses {action : ClassHierarchy → PoolM α} {post : α → TypePool → Prop}
    (asked : PoolM.Works total (action work.hierarchy) work.pool post) :
    Asks total (StageM.withClasses action) work fun result after => post result after.pool :=
  get (onPool asked)

theorem reportAll {diagnostics : List Diagnostic}
    (standard : ∀ report ∈ diagnostics, report.Standard) :
    Asks total (StageM.reportAll diagnostics) work fun _ after =>
      after.reports = work.reports ++ diagnostics := by
  intro sound
  refine (Completes.modify ?_).runs total
  exact ⟨⟨.refl _, rfl, rfl, diagnostics, rfl, standard⟩,
    ⟨sound.program, sound.laid, sound.recorded⟩, rfl⟩

theorem report {diagnostic : Diagnostic} (standard : diagnostic.Standard) :
    Asks total (StageM.report diagnostic) work fun _ _ => True := by
  have alone : ∀ report ∈ [diagnostic], report.Standard := by simpa using standard
  exact mono (reportAll alone) fun _ _ _ _ _ => trivial

theorem display {type : TypeRef} (held : work.pool.Has type) :
    Asks total (StageM.display type) work fun _ _ => True :=
  ofSound fun sound => answer (fun _ => sound.valid.display_ok held) fun _ _ => trivial

theorem reportFault {fault : TypeFault} (held : fault.HeldBy work.pool) (span : Span) :
    Asks total (StageM.reportFault span fault) work fun _ _ => True :=
  ofSound fun sound => inspect (fun _ => sound.valid.toDiagnostic_ok held span)
    fun _ made => report (TypeFault.toDiagnostic_standard made)

theorem mismatch {expected found : TypeRef} (expectedHere : work.pool.Has expected)
    (foundHere : work.pool.Has found) (span : Span) :
    Asks total (StageM.mismatch expected found span) work fun _ _ => True := by
  refine bind (display expectedHere) fun expectedText between led sound _ => ?_
  refine bind (display ((led.growth sound).has foundHere)) fun foundText _ _ _ _ => ?_
  exact report rfl

end StageM.Works
end ClassLang
