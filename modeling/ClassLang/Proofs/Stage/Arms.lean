import ClassLang.Proofs.Pattern.Typing
import ClassLang.Proofs.Stage.Expressions

/-! The arms of a match: their patterns are copied and typed, and what a group records is made from
them. -/

namespace ClassLang
open Relation

/-- The node is a match. -/
def Arena.IsMatch (arena : Arena) (index : Nat) : Prop :=
  ∃ scrutinee arms span, arena.exprs[index]? = some ⟨.matchOn scrutinee arms, span⟩

namespace CompilationUnit

/-- Every match in the tree of a slot has a group. -/
def HasGroups (unit : CompilationUnit) (ref : ExprRef) : Prop :=
  ∀ index, unit.arena.Contains ref index → unit.arena.IsMatch index →
    (unit.matchGroups.get? index).isSome

/-- A pattern of the unit is typed from an arm. -/
structure TypesArm (unit : CompilationUnit) (arm : MatchArm) (id : Nat) : Prop where
  tree : ∃ tree, unit.patterns.Represents tree id
  takes : ∀ class_, unit.arena.TakesClass arm.pattern class_ → unit.patterns.TakesClass id class_

variable {before after : CompilationUnit}

theorem HasGroups.keep {ref : ExprRef} (hasGroups : before.HasGroups ref)
    (evolved : before.Evolves after) :
    after.HasGroups ref := by
  intro index contained match_
  rw [evolved.arena] at contained match_
  exact evolved.groups index (hasGroups index contained match_)

theorem TypesArm.keep {arm : MatchArm} {id : Nat} (typed : before.TypesArm arm id)
    (records : before.Records after) : after.TypesArm arm id := by
  obtain ⟨tree, represents⟩ := typed.tree
  refine ⟨⟨tree, represents.keep records.patterns⟩, fun class_ written => ?_⟩
  rw [records.arena] at written
  exact (typed.takes class_ written).keep records.patterns

theorem hasGroups_missing (unit : CompilationUnit) : unit.HasGroups .missing := by
  rintro index ⟨start, impossible, _⟩
  cases impossible

/-- Patterns are entered, and perhaps types. -/
theorem Recorded.enter {unit : CompilationUnit} {pool larger : TypePool} {symbols : Nat}
    {patterns : PatternStore} (recorded : unit.Recorded pool symbols) (within : pool.Within larger)
    (kept : unit.patterns.Keeps patterns) (sound : patterns.Sound larger) :
    { unit with patterns }.Recorded larger symbols :=
  { recorded.grow within (Nat.le_refl _) with
    patterns := sound
    groups := fun index group found => (recorded.groups index group found).grow within kept
    copies := fun index group scrutinee arms span found read =>
      (recorded.copies index group scrutinee arms span found read).keep kept }

/-- A node has groups below when it has one itself, if it is a match, and its children have. -/
theorem hasGroups_node {unit : CompilationUnit} {index : Nat} {expr : Expr}
    (found : unit.arena.exprs[index]? = some expr)
    (own : unit.arena.IsMatch index → (unit.matchGroups.get? index).isSome)
    (below : ∀ child ∈ expr.kind.children, unit.HasGroups child) :
    unit.HasGroups (.node index) := by
  rintro other ⟨start, same, path⟩ match_
  cases same
  rcases path.cases_head with rfl | ⟨child, ⟨parent, read, member⟩, rest⟩
  · exact own match_
  · rw [found] at read
    cases read
    exact below _ member other ⟨child, rfl, rest⟩ match_

end CompilationUnit

/-- What a body needs to be walked through: a well-formed arena, and no parameter bounded by
itself. -/
structure Workspace.Ready (total : Prop) (work : Workspace) : Prop where
  arena : total → work.unit.arena.WellFormed
  grounded : total → work.pool.Grounded

theorem Workspace.Ready.led {total : Prop} {change : CompilationUnit → CompilationUnit → Prop}
    {before after : Workspace} (ready : before.Ready total) (valid : before.pool.Valid)
    (led : before.Leads change after) (sound : after.Sound)
    (sameArena : after.unit.arena = before.unit.arena) : after.Ready total :=
  ⟨fun sure => sameArena ▸ ready.arena sure,
    fun sure => (ready.grounded sure).grow valid (led.growth sound)⟩

/-- The types of the locals are in the pool. -/
def Locals.HeldBy (locals : Locals) (pool : TypePool) : Prop := ∀ entry ∈ locals, pool.Has entry.2

/-- `StageM.Works` for actions with locals. -/
def BodyM.Works (total : Prop) (action : BodyM α) (locals : Locals) (work : Workspace)
    (post : α → Workspace → Prop) : Prop :=
  locals.HeldBy work.pool →
    StageM.Works total (Workspace.Leads CompilationUnit.Records) (action.run locals) work
      fun result after => result.2.HeldBy after.pool ∧ post result.1 after

namespace BodyM
open TypePool Workspace CompilationUnit StageM

variable {total : Prop} {work : Workspace} {locals : Locals} {site : BodySite}

namespace Works
variable {post : β → Workspace → Prop}

theorem pure {result : α} {post : α → Workspace → Prop} (holds : post result work) :
    BodyM.Works total (Pure.pure result) locals work post :=
  fun held => StageM.Works.pure ⟨held, holds⟩

theorem bind {action : BodyM α} {next : α → BodyM β} {middle : α → Workspace → Prop}
    (first : BodyM.Works total action locals work middle)
    (rest : ∀ result locals between, work.Leads Records between → between.Sound →
      middle result between → BodyM.Works total (next result) locals between post) :
    BodyM.Works total (action >>= next) locals work post := by
  intro held
  rw [StateT.run_bind]
  refine StageM.Works.bind (first held) ?_
  rintro ⟨result, later⟩ between led sound ⟨heldLater, holds⟩
  exact rest result later between led sound holds heldLater

/-- An action that does not look at the locals. -/
theorem lift {action : StageM α} {post : α → Workspace → Prop}
    (works : StageM.Works total (Leads Records) action work post) :
    BodyM.Works total (liftM action) locals work post := by
  intro held
  change StageM.Works total _ (action >>= fun result => Pure.pure (result, locals)) work _
  refine StageM.Works.bind works fun result after led sound holds => StageM.Works.pure ?_
  exact ⟨fun entry member => (led.growth sound).has (held entry member), holds⟩

theorem mono {action : BodyM α} {weak strong : α → Workspace → Prop}
    (works : BodyM.Works total action locals work strong)
    (weaken : ∀ result after, work.Leads Records after → after.Sound → strong result after →
      weak result after) : BodyM.Works total action locals work weak :=
  fun held => (works held).mono fun result after led sound facts =>
    ⟨facts.1, weaken result.1 after led sound facts.2⟩

/-- The soundness of the workspace may be used. -/
theorem ofSound {action : BodyM β}
    (works : work.Sound → BodyM.Works total action locals work post) :
    BodyM.Works total action locals work post :=
  fun held sound => works sound held sound

theorem get {next : Locals → BodyM β}
    (rest : locals.HeldBy work.pool → BodyM.Works total (next locals) locals work post) :
    BodyM.Works total (MonadState.get >>= next) locals work post :=
  fun held => rest held held

theorem modify {change : Locals → Locals} {next : PUnit → BodyM β}
    (heldBy : locals.HeldBy work.pool → (change locals).HeldBy work.pool)
    (rest : BodyM.Works total (next ()) (change locals) work post) :
    BodyM.Works total (modifyThe Locals change >>= next) locals work post :=
  fun held => rest (heldBy held)

theorem withScope {action : BodyM α} {post : α → Workspace → Prop}
    (works : BodyM.Works total action locals work post) :
    BodyM.Works total (BodyM.withScope action) locals work post := by
  intro held
  change StageM.Works total _ (action.run locals >>= fun result =>
    Pure.pure (result.1, result.2.truncate locals.length)) work _
  refine StageM.Works.bind (works held) fun result after _ _ facts => StageM.Works.pure ?_
  exact ⟨fun entry member => facts.1 entry (List.mem_of_mem_drop member), facts.2⟩

end Works

theorem spanOf_works {frame : Workspace → Workspace → Prop} [IsPreorder Workspace frame]
    {ref : ExprRef} (inside : total → ∃ index < work.unit.arena.size, ref = .node index) :
    StageM.Works total frame (spanOf ref) work fun _ _ => True := by
  refine StageM.Works.answer (fun sure => ?_) fun _ _ => trivial
  obtain ⟨index, below, rfl⟩ := inside sure
  obtain ⟨expr, found⟩ : ∃ expr, work.unit.arena.exprs[index]? = some expr :=
    ⟨_, Array.getElem?_eq_getElem below⟩
  exact ⟨expr.span, by simp [Arena.span, Arena.expr, found, Except.map]⟩

/-! The arms of a match. -/

/-- Patterns and types are entered together. -/
theorem enterPatterns_works {pool : TypePool} {patterns : PatternStore}
    (growth : work.pool.Growth pool) (kept : work.unit.patterns.Keeps patterns)
    (sound : patterns.Sound pool) :
    StageM.Works total (Leads Records) (modify fun work =>
        { work with pool, unit := { work.unit with patterns } }) work
      fun _ after => after = { work with pool, unit := { work.unit with patterns } } := by
  intro before
  have within := growth.within
  have records : work.unit.Records { work.unit with patterns } :=
    ⟨rfl, kept, fun _ isSome => isSome⟩
  refine (Completes.modify ?_).runs total
  exact ⟨⟨growth.grown, rfl, records, .refl _⟩, ⟨⟨growth.valid, before.program.symbols.grow within⟩,
    (before.laid.grow within (Nat.le_refl _)).evolve records.evolves,
    before.recorded.enter within kept sound⟩, rfl⟩

theorem reportUnknownClasses_asks {pattern : Nat} (inside : pattern < work.unit.patterns.size) :
    Asks total (reportUnknownClasses pattern) work fun _ _ => True := by
  refine StageM.Works.ofSound fun sound => StageM.Works.get ?_
  refine StageM.Works.inspect (fun _ => sound.recorded.patterns.deconstructed_ok inside)
    fun classes _ => ?_
  refine StageM.Works.bind (StageM.Works.reportAll fun report member => ?_)
    fun _ _ _ _ _ => StageM.Works.pure trivial
  obtain ⟨_, _, rfl⟩ := List.mem_map.mp member
  rfl

theorem typeArm_works (ready : work.Ready total) {pattern : Nat} {subject : TypeRef}
    (inside : pattern < work.unit.patterns.size) (held : work.pool.Has subject) :
    StageM.Works total (Leads Records) (typeArm pattern subject) work fun result after =>
      ∀ id ∈ result, (∃ tree, after.unit.patterns.Represents tree id) ∧
        ∀ class_, work.unit.patterns.TakesClass pattern class_ →
          after.unit.patterns.TakesClass id class_ := by
  refine StageM.Works.ofSound fun sound => StageM.Works.get ?_
  obtain ⟨typing, ends⟩ := PatternStore.runTyping_works sound.hierarchy ready.grounded sound.valid
    sound.recorded.patterns inside held
  refine StageM.Works.lift ends ?_
  rintro ⟨outcome, patterns, pool⟩ ran
  obtain ⟨growth, grows, soundPatterns, result⟩ := typing outcome patterns pool ran
  obtain ⟨_, trees⟩ := PatternStore.runTyping_sound sound.recorded.patterns.wildcards ran
  refine StageM.Works.bind (enterPatterns_works growth grows.keeps soundPatterns) ?_
  rintro _ _ _ soundAfter rfl
  cases outcome with
  | ok typed =>
    refine StageM.Works.pure fun id same => ?_
    cases same
    exact ⟨trees typed rfl, result.takes⟩
  | error fault =>
    refine StageM.Works.lift (fun _ => PatternFault.toDiagnostic_ok growth.valid result)
      fun report made => ?_
    refine StageM.Works.bind (StageM.Works.asks
      (StageM.Works.report (PatternFault.toDiagnostic_standard made))) fun _ _ _ _ _ => ?_
    exact StageM.Works.pure (by simp)

theorem prepareArm_works (ready : work.Ready total) {arm : MatchArm}
    (inside : total → arm.pattern < work.unit.arena.patterns.size) {subject : TypeRef}
    (held : work.pool.Has subject) :
    StageM.Works total (Leads Records) (prepareArm arm subject) work fun result after =>
      ∀ id ∈ result, after.unit.TypesArm arm id := by
  refine StageM.Works.ofSound fun sound => StageM.Works.get ?_
  obtain ⟨imports, ends⟩ := PatternStore.importFrom_runs ready.arena inside sound.recorded.patterns
  refine StageM.Works.lift (fun sure => ?_) ?_
  · obtain ⟨raw, patterns, ran⟩ := ends sure
    exact ⟨(raw, patterns), ran⟩
  rintro ⟨raw, patterns⟩ ran
  obtain ⟨grows, soundPatterns, copied⟩ := imports raw patterns ran
  refine StageM.Works.bind (StageM.Works.record ⟨rfl, grows.keeps, fun _ isSome => isSome⟩
    (sound.recorded.enter (.refl _) grows.keeps soundPatterns)) ?_
  rintro _ _ _ soundFirst rfl
  refine StageM.Works.bind (StageM.Works.asks (reportUnknownClasses_asks copied.inside))
    fun unknown second asked soundSecond _ => ?_
  cases unknown with
  | true => exact StageM.Works.pure (by simp)
  | false =>
    have sameArena : second.unit.arena = work.unit.arena := asked.unit.arena
    have kept : patterns.Keeps second.unit.patterns := asked.unit.patterns
    have readySecond : second.Ready total :=
      ⟨fun sure => sameArena ▸ ready.arena sure,
        fun sure => (ready.grounded sure).grow sound.valid (asked.growth soundSecond)⟩
    refine (typeArm_works readySecond (Nat.lt_of_lt_of_le copied.inside kept.size_le)
      ((asked.growth soundSecond).has held)).mono ?_
    intro result after led soundAfter typed id same
    obtain ⟨tree, takes⟩ := typed id same
    refine ⟨tree, fun class_ written => takes class_ ?_⟩
    rw [led.unit.arena, sameArena] at written
    exact (copied.takes class_ written).keep kept

/-- Resolving a slot later than `base` gives a type of the pool, and groups to all matches below. -/
def Visits (total : Prop) (resolve : ExprRef → BodyM TypeRef) (base : Workspace) (ref : ExprRef) :
    Prop :=
  ∀ (locals : Locals) (work : Workspace), base.Leads Records work →
    BodyM.Works total (resolve ref) locals work fun type after =>
      after.pool.Has type ∧ after.unit.HasGroups ref

/-- The names that a typed pattern binds have types of the pool. -/
theorem bindings_works {id : Nat} (sound : work.Sound)
    (typed : ∃ tree, work.unit.patterns.Represents tree id) :
    StageM.Works total (Leads Records) (StageM.inspect (·.unit.patterns.bindings id)) work
      fun bound after => after = work ∧ Locals.HeldBy bound work.pool := by
  obtain ⟨tree, represents⟩ := typed
  obtain ⟨bound, read, boundHere⟩ :=
    sound.recorded.patterns.bindings_ok sound.valid represents.inside
  refine StageM.Works.answer (fun _ => ⟨bound, read⟩) fun answer found => ?_
  rw [read] at found
  cases found
  exact ⟨rfl, boundHere⟩

/-- An action that sees the names of a pattern, and only it. -/
theorem withBound_works {action : BodyM β} {bound : Locals} {post : β → Workspace → Prop}
    (boundHere : bound.HeldBy work.pool)
    (works : BodyM.Works total action (bound.reverse ++ locals) work post) :
    BodyM.Works total (BodyM.withScope do
      modify (bound.reverse ++ ·)
      action) locals work post := by
  refine Works.withScope (Works.modify (fun held entry member => ?_) works)
  rcases List.mem_append.mp member with new | old
  · exact boundHere entry (List.mem_reverse.mp new)
  · exact held entry old

section
variable {base : Workspace} {resolve : ExprRef → BodyM TypeRef}

theorem armType_works {first : Workspace} (led : base.Leads Records first)
    {arm : MatchArm} {bound locals : Locals} {previous : Option TypeRef}
    (held : ∀ type ∈ previous, first.pool.Has type) (boundHere : bound.HeldBy first.pool)
    (visits : Visits total resolve base arm.body) :
    BodyM.Works total (armType resolve arm bound previous) locals first fun joined after =>
      after.pool.Has joined ∧ after.unit.HasGroups arm.body := by
  refine Works.bind (withBound_works boundHere (visits (bound.reverse ++ locals) first led)) ?_
  rintro type _ second toSecond soundSecond ⟨typeHere, visited⟩
  cases previous with
  | none => exact Works.pure ⟨typeHere, visited⟩
  | some earlier =>
    have earlierHere := (toSecond.growth soundSecond).has (held earlier rfl)
    refine (Works.lift (StageM.Works.asks (join_asks earlierHere typeHere))).mono ?_
    intro joined after toAfter _ joinedHere
    exact ⟨joinedHere, visited.keep toAfter.unit.evolves⟩

theorem arms_works (ready : base.Ready total) (valid : base.pool.Valid) {subject : TypeRef}
    (held : base.pool.Has subject) : ∀ (branches : List MatchArm) (previous : Option TypeRef)
      (locals : Locals) (work : Workspace), base.Leads Records work →
      (∀ type ∈ previous, work.pool.Has type) →
      (total → ∀ arm ∈ branches, arm.pattern < base.unit.arena.patterns.size) →
      (∀ arm ∈ branches, Visits total resolve base arm.body) →
      BodyM.Works total (arms resolve subject branches previous) locals work fun result after =>
        (∀ id, some id ∈ result.1.map (·.pattern) → ∃ arm ∈ branches, after.unit.TypesArm arm id) ∧
        (∀ type ∈ result.2, after.pool.Has type) ∧
        ∀ arm ∈ branches, after.unit.HasGroups arm.body
  | [], previous, _, _, _, inPool, _, _ => Works.pure ⟨by simp, inPool, by simp⟩
  | arm :: rest, previous, locals, work, led, inPool, patterns, visits => by
    refine Works.ofSound fun sound => ?_
    have readyHere := ready.led valid led sound led.unit.arena
    have growth := led.growth sound
    have prepared : StageM.Works total (Leads Records) (prepareArm arm subject) work
        fun result after => ∀ id ∈ result, after.unit.TypesArm arm id := by
      refine prepareArm_works readyHere (fun sure => ?_) (growth.has held)
      rw [led.unit.arena]
      exact patterns sure arm List.mem_cons_self
    refine Works.bind (Works.lift prepared) fun pattern locals first toFirst soundFirst typed => ?_
    have joining : ∀ (bound locals : Locals), bound.HeldBy first.pool →
        BodyM.Works total (armType resolve arm bound previous >>= fun joined =>
          arms resolve subject rest (some joined) >>= fun later =>
            pure (({ pattern, span := arm.span } : GroupArm) :: later.1, later.2)) locals first
          fun result after =>
            (∀ id, some id ∈ result.1.map (·.pattern) → ∃ branch ∈ arm :: rest,
              after.unit.TypesArm branch id) ∧
            (∀ type ∈ result.2, after.pool.Has type) ∧ ∀ branch ∈ arm :: rest,
              after.unit.HasGroups branch.body := by
      intro bound locals boundHere
      refine Works.bind (armType_works (trans_of _ led toFirst)
        (fun type member => (toFirst.growth soundFirst).has (inPool type member)) boundHere
        (visits arm List.mem_cons_self)) ?_
      rintro joined _ between toBetween _ ⟨joinedHere, visited⟩
      refine Works.bind (arms_works ready valid held rest (some joined) _ between
        (trans_of _ (trans_of _ led toFirst) toBetween) (by simpa using joinedHere)
        (fun sure branch member => patterns sure branch (List.mem_cons_of_mem _ member))
        (fun branch member => visits branch (List.mem_cons_of_mem _ member))) ?_
      rintro ⟨later, final⟩ _ after toAfter _ ⟨laterTyped, finalHere, laterVisited⟩
      refine Works.pure ⟨fun id member => ?_, finalHere, fun branch member => ?_⟩
      · rcases List.mem_cons.mp member with own | inRest
        · exact ⟨arm, List.mem_cons_self,
            ((typed id own.symm).keep toBetween.unit).keep toAfter.unit⟩
        · obtain ⟨branch, present, typesArm⟩ := laterTyped id inRest
          exact ⟨branch, List.mem_cons_of_mem _ present, typesArm⟩
      · rcases List.mem_cons.mp member with rfl | inRest
        · exact visited.keep toAfter.unit.evolves
        · exact laterVisited branch inRest
    cases pattern with
    | none => exact joining [] locals (by simp [Locals.HeldBy])
    | some id =>
      refine Works.bind (Works.lift (bindings_works soundFirst (typed id rfl).tree)) ?_
      rintro answer _ _ _ _ ⟨rfl, answerHere⟩
      exact joining answer _ answerHere

end
end BodyM
end ClassLang
