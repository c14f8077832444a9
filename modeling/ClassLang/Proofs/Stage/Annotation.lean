import ClassLang.Proofs.Stage.Arms
import ClassLang.Proofs.Stage.ConfinedMembers
import Mathlib.Data.List.Forall2

/-! What is noted about expressions: the second stage gives every expression below a body its type,
every identifier what it refers to, and every match a group with an entry for each of its arms. -/

namespace ClassLang

/-- The entry of a group was prepared from the arm, among these written patterns. -/
def GroupArm.Prepared (entry : GroupArm) (patterns : Array Pattern) (subject : TypeRef)
    (arm : MatchArm) :
    Prop :=
  entry.span = arm.span ∧ ∃ before after : Workspace, before.unit.arena.patterns = patterns ∧
    (BodyM.prepareArm arm subject).run before = .ok (entry.pattern, after)

/-- There is one entry for each arm, in the order of the arms. -/
abbrev MatchGroup.PreparedFrom (group : MatchGroup) (patterns : Array Pattern)
    (arms : List MatchArm) : Prop :=
  List.Forall₂ (fun arm entry => entry.Prepared patterns group.subject arm) arms group.arms

/-- The groups of matches are prepared from the arms of the matches. -/
def Arena.Groups (arena : Arena) (groups : IdMap MatchGroup) : Prop :=
  ∀ (index : Nat) (group : MatchGroup) (scrutinee : ExprRef) (arms : List MatchArm) (span : Span),
    groups.get? index = some group → arena.exprs[index]? = some ⟨.matchOn scrutinee arms, span⟩ →
    group.PreparedFrom arena.patterns arms

namespace CompilationUnit

/-- A node has its type, an identifier what it refers to, and a match its group. -/
structure Noted (unit : CompilationUnit) (index : Nat) : Prop where
  type : (unit.exprTypes.get? index).isSome
  resolution : ∀ name span, unit.arena.exprs[index]? = some ⟨.ident name, span⟩ →
    (unit.resolutions.get? index).isSome
  group : unit.arena.IsMatch index → (unit.matchGroups.get? index).isSome

/-- What may be noted: something about one node, or below a slot all that names are bound for, or
the code of every match. -/
inductive Note where
  | type (index : Nat)
  | resolution (index : Nat)
  | group (index : Nat)
  | code (index : Nat)
  | tree (ref : ExprRef)
  | compiled (ref : ExprRef)

/-- The note is made. -/
def Has (unit : CompilationUnit) : Note → Prop
  | .type index => (unit.exprTypes.get? index).isSome
  | .resolution index => (unit.resolutions.get? index).isSome
  | .group index => (unit.matchGroups.get? index).isSome
  | .code index => (unit.lowered.get? index).isSome
  | .tree ref => ∀ index, unit.arena.Contains ref index → unit.Noted index
  | .compiled ref => ∀ index, unit.arena.Contains ref index → unit.arena.IsMatch index →
    (unit.lowered.get? index).isSome

/-- Notes stay while the expressions do. -/
theorem Spares.has {stage : Stage} {id : Nat} {before after : CompilationUnit}
    (spared : Spares stage id before after) (open_ : stage ≠ .foldConstants) {note : Note}
    (noted : before.Has note) : after.Has note := by
  cases note with
  | type index => exact spared.typed open_ index noted
  | resolution index => exact spared.resolved index noted
  | group index => exact spared.grouped index noted
  | code index => exact spared.coded index noted
  | tree ref =>
    intro index contained
    rw [spared.arena open_] at contained
    have notedAlso := noted index contained
    refine ⟨spared.typed open_ index notedAlso.type, fun name span found => ?_, fun match_ => ?_⟩
    · rw [spared.arena open_] at found
      exact spared.resolved index (notedAlso.resolution name span found)
    · rw [spared.arena open_] at match_
      exact spared.grouped index (notedAlso.group match_)
  | compiled ref =>
    intro index contained match_
    rw [spared.arena open_] at contained match_
    exact spared.coded index (noted index contained match_)

theorem has_missing (unit : CompilationUnit) : unit.Has (.tree .missing) := by
  rintro index ⟨start, impossible, _⟩
  cases impossible

/-- All is noted below a node when it is noted of the node and below its children. -/
theorem has_node {unit : CompilationUnit} {index : Nat} {expr : Expr}
    (found : unit.arena.exprs[index]? = some expr) (noted : unit.Noted index)
    (below : ∀ child ∈ expr.kind.children, unit.Has (.tree child)) :
    unit.Has (.tree (.node index)) := by
  rintro other ⟨start, same, path⟩
  cases same
  rcases path.cases_head with rfl | ⟨child, ⟨parent, read, member⟩, rest⟩
  · exact noted
  · cases found.symm.trans read
    exact below _ member other ⟨child, rfl, rest⟩

/-- What a stage may rely on: the expressions, and the groups and the code so far. -/
abbrev Reliance := Arena → IdMap MatchGroup → IdMap LoweredMatch → Prop

def Offers (unit : CompilationUnit) (reliance : Reliance) : Prop :=
  reliance unit.arena unit.matchGroups unit.lowered

end CompilationUnit

open CompilationUnit

variable {reliance : Reliance} {α β : Type} {notes more : List Note}

namespace StageM

/-- From a unit with what it relies on, the action loses no note, makes the notes listed, and leaves
what it relied on. -/
def Notes (reliance : Reliance) (action : StageM α) (notes : List Note)
    (post : α → Prop := fun _ => True) :
    Prop :=
  ∀ work : Workspace, work.unit.Offers reliance → Ensures action work fun result after =>
    (∀ note, work.unit.Has note → after.unit.Has note) ∧ after.unit.Offers reliance ∧
      (∀ note ∈ notes, after.unit.Has note) ∧ post result

namespace Notes
variable {post : β → Prop}

theorem pure {result : β} (holds : post result) : Notes reliance (Pure.pure result) [] post :=
  fun _ offered => Ensures.pure ⟨fun _ noted => noted, offered, by simp, holds⟩

theorem bind {first : StageM α} {next : α → StageM β} {middle : α → Prop}
    (done : Notes reliance first notes middle)
    (rest : ∀ result, middle result → Notes reliance (next result) more post) :
    Notes reliance (first >>= next) (notes ++ more) post := by
  intro work offered
  refine Ensures.bind ((done work offered).mono ?_)
  rintro result between ⟨kept, offers, made, promised⟩
  refine (rest result promised between offers).mono ?_
  rintro value after ⟨keptAlso, offersAlso, madeAlso, holds⟩
  refine ⟨fun note has => keptAlso note (kept note has), offersAlso, fun note member => ?_, holds⟩
  rcases List.mem_append.mp member with early | late
  · exact keptAlso note (made note early)
  · exact madeAlso note late

theorem mono {action : StageM α} {strong weak : α → Prop} (done : Notes reliance action more strong)
    (fewer : ∀ note ∈ notes, note ∈ more) (weaken : ∀ result, strong result → weak result) :
    Notes reliance action notes weak :=
  fun work offered => (done work offered).mono fun result _ ⟨kept, offers, made, holds⟩ =>
    ⟨kept, offers, fun note member => made note (fewer note member), weaken result holds⟩

/-- What is noted follows from other notes. -/
theorem gather {action : StageM α} {post : α → Prop} (done : Notes reliance action more post)
    (follow : ∀ unit : CompilationUnit, unit.Offers reliance → (∀ note ∈ more, unit.Has note) →
      ∀ note ∈ notes, unit.Has note) : Notes reliance action notes post :=
  fun work offered => (done work offered).mono fun _ _ ⟨kept, offers, made, holds⟩ =>
    ⟨kept, offers, follow _ offers made, holds⟩

/-- Steps that change nothing a stage relies on. -/
theorem spared {id : Nat} {allowed : Diagnostic → Prop} {action : StageM α}
    (spares : (confining .resolveTypes id allowed).Meets action) : Notes reliance action [] := by
  intro work offered result after ran
  have spared := ((spares work).2 result after ran).1.unit
  refine ⟨fun note => spared.has nofun, ?_, by simp, trivial⟩
  unfold Offers
  rw [spared.arena nofun, spared.matchGroups nofun, spared.lowered nofun]
  exact offered

theorem confined {action : StageM α} (spares : Confined .resolveTypes 0 action) :
    Notes reliance action [] :=
  spared spares

/-- What is reported is no note. -/
theorem reportAll {diagnostics : List Diagnostic} :
    Notes reliance (StageM.reportAll diagnostics) [] := by
  intro work offered _ _ ran
  cases ran
  exact ⟨fun _ noted => noted, offered, by simp, trivial⟩

/-- Types may be entered. -/
theorem onPool {action : PoolM α} : Notes reliance (StageM.onPool action) [] := by
  intro work offered _ _ ran
  obtain ⟨_, _, same⟩ := Except.bind_eq_ok ran
  cases same
  exact ⟨fun _ noted => noted, offered, by simp, trivial⟩

theorem inspect {query : Workspace → Except Abort α} {post : α → Prop}
    (answers : ∀ work : Workspace, work.unit.Offers reliance → ∀ result, query work = .ok result →
      post result) :
    Notes reliance (StageM.inspect query) [] post := by
  intro work offered result after ran
  change (liftM (query work) : StageM α).run work = _ at ran
  obtain ⟨answered, rfl⟩ := lift_eq_ok ran
  exact ⟨fun _ noted => noted, offered, by simp, answers _ offered result answered⟩

/-- Something is recorded about an expression. -/
theorem modifyUnit {change : CompilationUnit → CompilationUnit}
    (keeps : ∀ unit : CompilationUnit, unit.Offers reliance →
      (∀ note, unit.Has note → (change unit).Has note) ∧
      (change unit).Offers reliance ∧ ∀ note ∈ notes, (change unit).Has note) :
    Notes reliance (StageM.modifyUnit change) notes := by
  intro work offered result after ran
  cases ran
  obtain ⟨kept, offers, made⟩ := keeps work.unit offered
  exact ⟨kept, offers, made, trivial⟩

theorem forM {elements : List α} {action : α → StageM PUnit} {made : α → List Note}
    (each : ∀ element ∈ elements, Notes reliance (action element) (made element)) :
    Notes reliance (elements.forM action) (elements.flatMap made) := by
  induction elements with
  | nil => exact pure trivial
  | cons first rest ih =>
    exact bind (each first List.mem_cons_self) fun _ _ =>
      ih fun element member => each element (List.mem_cons_of_mem _ member)

end Notes
end StageM

namespace BodyM

/-- `StageM.Notes` for actions with locals. -/
def Notes (reliance : Reliance) (action : BodyM α) (notes : List Note)
    (post : α → Prop := fun _ => True) :
    Prop :=
  ∀ locals, StageM.Notes reliance (action.run locals) notes fun result => post result.1

namespace Notes
variable {post : β → Prop}

theorem pure {result : β} (holds : post result) : Notes reliance (Pure.pure result) [] post :=
  fun _ => StageM.Notes.pure holds

theorem bind {first : BodyM α} {next : α → BodyM β} {middle : α → Prop}
    (done : Notes reliance first notes middle)
    (rest : ∀ result, middle result → Notes reliance (next result) more post) :
    Notes reliance (first >>= next) (notes ++ more) post :=
  fun locals => StageM.Notes.bind (done locals) fun result holds => rest result.1 holds result.2

theorem mono {action : BodyM α} {strong weak : α → Prop} (done : Notes reliance action more strong)
    (fewer : ∀ note ∈ notes, note ∈ more) (weaken : ∀ result, strong result → weak result) :
    Notes reliance action notes weak :=
  fun locals => (done locals).mono fewer fun result => weaken result.1

theorem fewer {action : BodyM α} {post : α → Prop} (done : Notes reliance action more post)
    (subset : ∀ note ∈ notes, note ∈ more) : Notes reliance action notes post :=
  done.mono subset fun _ holds => holds

theorem gather {action : BodyM α} {post : α → Prop} (done : Notes reliance action more post)
    (follow : ∀ unit : CompilationUnit, unit.Offers reliance → (∀ note ∈ more, unit.Has note) →
      ∀ note ∈ notes, unit.Has note) : Notes reliance action notes post :=
  fun locals => (done locals).gather follow

/-- Nothing is left to do. -/
theorem done {result : α} : Notes reliance (Pure.pure result) [] := pure trivial

theorem lift {action : StageM α} {post : α → Prop}
    (done : StageM.Notes reliance action notes post) :
    Notes reliance (liftM action) notes post := by
  intro locals
  have whole : StageM.Notes reliance (action >>= fun result => Pure.pure (result, locals))
      (notes ++ [])
      fun result => post result.1 := done.bind fun result holds => .pure holds
  rw [List.append_nil] at whole
  exact whole

/-- Steps that change nothing a stage relies on. -/
theorem confined {action : StageM α} (spares : StageM.Confined .resolveTypes 0 action) :
    Notes reliance (liftM action) [] :=
  lift (.confined spares)

theorem get : Notes reliance (MonadState.get : BodyM Locals) [] :=
  fun _ => StageM.Notes.pure trivial

theorem modify {change : Locals → Locals} : Notes reliance
    (modifyThe Locals change : BodyM PUnit) [] :=
  fun _ => StageM.Notes.pure trivial

theorem withScope {action : BodyM α} {post : α → Prop} (done : Notes reliance action notes post) :
    Notes reliance (BodyM.withScope action) notes post := by
  have truncating (mark : Nat) :
      Notes reliance (modifyThe Locals (·.truncate mark) : BodyM PUnit) [] := modify
  have whole := get.bind fun (outer : Locals) _ => done.bind fun result holds =>
    (truncating outer.length).bind fun _ _ => pure holds
  exact whole.fewer (by simp)

end Notes

/-- The groups of matches are prepared from the arms of the matches, the expressions are those of
the arena, and there is no code yet. -/
def binding (arena : Arena) : Reliance := fun here groups codes =>
  here = arena ∧ arena.Groups groups ∧ codes = {}

section
variable {resolve : ExprRef → BodyM TypeRef} {site : BodySite}
  (deeper : ∀ ref, Notes reliance (resolve ref) [.tree ref])
include deeper

theorem items_notes : ∀ (items : List ExprRef) (type : TypeRef),
    Notes reliance (BodyM.items resolve items type) (items.map .tree)
  | [], _ => .pure trivial
  | item :: rest, _ => .bind (deeper item) fun type _ => items_notes rest type

theorem mapM_notes (items : List ExprRef) : Notes reliance (items.mapM resolve)
    (items.map .tree) := by
  induction items with
  | nil => exact .pure trivial
  | cons item rest ih =>
    rw [List.mapM_cons]
    exact (Notes.bind (deeper item) fun _ _ => ih.bind fun _ _ => .done).fewer (by simp)

theorem forM_notes : ∀ items : List ExprRef,
    Notes reliance (items.forM fun item => discard (resolve item)) (items.map .tree)
  | [] => .pure trivial
  | item :: rest => by
    have resolving : Notes reliance (discard (resolve item)) [.tree item] := by
      change Notes reliance ((fun _ => ()) <$> resolve item) [.tree item]
      rw [map_eq_pure_bind]
      exact .bind (deeper item) fun _ _ => .pure trivial
    exact .bind resolving fun _ _ => forM_notes rest

end

theorem armType_notes {arena : Arena} {resolve : ExprRef → BodyM TypeRef}
    (deeper : ∀ ref, Notes (binding arena) (resolve ref) [.tree ref]) (arm : MatchArm)
    (bound : Locals) (result : Option TypeRef) :
    Notes (binding arena) (armType resolve arm bound result) [.tree arm.body] := by
  refine (Notes.bind (.withScope (.bind .modify fun _ _ => deeper arm.body)) fun type _ => ?_).fewer
    fun _ member => member
  cases result with
  | none => exact .done
  | some previous => exact .confined (join_confined previous type)

/-- The arms of a match: their bodies are resolved, and there is an entry prepared from each. -/
theorem arms_notes {arena : Arena} {resolve : ExprRef → BodyM TypeRef}
    (deeper : ∀ ref, Notes (binding arena) (resolve ref) [.tree ref]) (subject : TypeRef) :
    ∀ (arms : List MatchArm) (result : Option TypeRef),
      Notes (binding arena) (BodyM.arms resolve subject arms result) (arms.map (.tree ·.body))
        fun typed => List.Forall₂ (fun arm entry => entry.Prepared arena.patterns subject arm)
        arms typed.1
  | [], _ => .pure .nil
  | arm :: rest, result => by
    have preparing : StageM.Notes (binding arena) (prepareArm arm subject) [] fun pattern =>
        GroupArm.Prepared { pattern, span := arm.span } arena.patterns subject arm := by
      intro work offered pattern after ran
      obtain ⟨kept, offers, made, _⟩ :=
        StageM.Notes.confined (prepareArm_confined arm subject) work offered pattern after ran
      exact ⟨kept, offers, made, rfl, work, after, congrArg Arena.patterns offered.1, ran⟩
    refine (Notes.bind (.lift preparing) fun pattern prepared => ?_).fewer fun _ member => member
    have body (bound : Locals) :
        Notes (binding arena) (armType resolve arm bound result >>= fun joined =>
        BodyM.arms resolve subject rest (some joined) >>= fun later =>
          pure ({ pattern, span := arm.span } :: later.1, later.2))
            (.tree arm.body :: rest.map (.tree ·.body))
        fun typed => List.Forall₂ (fun arm entry => entry.Prepared arena.patterns subject arm)
          (arm :: rest) typed.1 :=
      (Notes.bind (armType_notes deeper arm bound result) fun joined _ =>
        .bind (arms_notes deeper subject rest (some joined)) fun typed forall₂ =>
          .pure (.cons prepared forall₂)).fewer (by simp)
    cases pattern with
    | some typed =>
      exact (Notes.bind (.confined (StageM.inspect_confined fun _ =>
        PatternStore.bindingsWithin_orderly _ typed)) fun bound _ => body bound).fewer
          fun _ member => member
    | none => exact (Notes.bind .done fun bound _ => body bound).fewer fun _ member => member

/-- What a node has noted itself, besides its type. -/
def ownNotes (index : Nat) : ExprKind → List Note
  | .ident _ => [.resolution index]
  | .matchOn .. => [.group index]
  | _ => []

theorem resolveAs_notes (index : Nat) (resolution : Resolution) :
    StageM.Notes reliance (resolveAs index resolution) [.resolution index] := by
  refine .modifyUnit fun unit offered => ⟨fun note => ?_, offered, fun note member => ?_⟩
  · have spared : Spares .resolveTypes 0 unit
        { unit with resolutions := unit.resolutions.insert index resolution } :=
      .record fun _ isSome => IdMap.isSome_insert isSome
    exact spared.has nofun
  · cases List.mem_singleton.mp member
    change ((unit.resolutions.insert index resolution).get? index).isSome
    rw [IdMap.get?_insert, if_pos rfl]
    rfl

theorem useSymbol_notes (site : BodySite) (index : Nat) (resolution : Resolution) (symbol : Symbol)
    (span : Span) : StageM.Notes reliance (useSymbol site index resolution symbol span)
    [.resolution index] := by
  have warning : StageM.Confined .resolveTypes 0 (do
      let inside := symbol.owner == some site.className
        || (symbol.kind == .class_ && symbol.name == site.className)
      if symbol.deprecated && !site.suppress && !inside then
        StageM.report { code := .deprecatedUse, span, args := [symbol.name] } : StageM PUnit) := by
    dsimp only
    split
    · exact StageM.report_confined (fun _ => rfl) rfl
    · exact .pure
  exact StageM.Notes.bind (resolveAs_notes index resolution) fun _ _ => .confined warning

/-- Whatever an identifier is, it is noted. -/
theorem ident_notes (site : BodySite) (locals : Locals) (index : Nat) (name : Name) (span : Span) :
    StageM.Notes reliance (ident site locals index name span) [.resolution index] := by
  unfold ident
  cases locals.lookup name with
  | some type => exact .bind (resolveAs_notes index _) fun _ _ => .pure trivial
  | none =>
    refine .bind (.confined (findField?_confined _ _)) fun found _ => ?_
    split
    · exact .bind (useSymbol_notes site index _ _ span) fun _ _ => .pure trivial
    refine .bind (.confined StageM.get_confined) fun work _ => ?_
    dsimp only
    cases work.symbols.lookupClass? name with
    | some symbol =>
      refine .bind (.confined (StageM.lift_confined (SymbolTable.get_orderly symbol)))
        fun entry _ => ?_
      exact .bind (useSymbol_notes site index _ _ span) fun _ _ =>
        .onPool
    | none =>
      refine .bind (.confined (StageM.report_confined (fun _ => rfl) (by rfl))) fun _ _ => ?_
      exact .bind (resolveAs_notes index _) fun _ _ =>
        .onPool

/-- The group of a match is recorded. -/
theorem recordGroup_notes {arena : Arena} {index : Nat} {group : MatchGroup} {scrutinee : ExprRef}
    {arms : List MatchArm} {span : Span}
    (found : arena.exprs[index]? = some ⟨.matchOn scrutinee arms, span⟩)
    (prepared : group.PreparedFrom arena.patterns arms) :
    StageM.Notes (binding arena) (StageM.modifyUnit fun unit =>
      { unit with matchGroups := unit.matchGroups.insert index group }) [.group index] := by
  rintro work ⟨same, groups, none⟩ result after ran
  cases ran
  have spared : Spares .resolve 0 work.unit
      { work.unit with matchGroups := work.unit.matchGroups.insert index group } :=
    { Spares.refl work.unit with
      matchGroups := fun other => absurd rfl other, grouped := fun _ isSome =>
        IdMap.isSome_insert isSome }
  refine ⟨fun note => spared.has nofun, ⟨same, ?_, none⟩, fun note member => ?_, trivial⟩
  · intro other entry scrutinee arms span recorded read
    rw [IdMap.get?_insert] at recorded
    split at recorded
    · rename_i own
      cases recorded
      cases found.symm.trans (own ▸ read)
      exact prepared
    · exact groups other entry scrutinee arms span recorded read
  · cases List.mem_singleton.mp member
    change ((work.unit.matchGroups.insert index group).get? index).isSome
    rw [IdMap.get?_insert, if_pos rfl]
    rfl

section
variable {arena : Arena} {site : BodySite} {resolve : ExprRef → BodyM TypeRef} {index : Nat}
    {span : Span}

/-- What is noted of a node of this kind: what is its own, and that its children are dealt with. -/
abbrev NodeNotes (arena : Arena) (site : BodySite) (resolve : ExprRef → BodyM TypeRef) (index : Nat)
    (kind : ExprKind) (span : Span) : Prop :=
  Notes (binding arena) (node site resolve index ⟨kind, span⟩)
    (ownNotes index kind ++ kind.children.map .tree)

variable (deeper : ∀ ref, Notes (binding arena) (resolve ref) [.tree ref])
include deeper

theorem call_notes (receiver : Option ExprRef) (method : Name) (args : List ExprRef) :
    NodeNotes arena site resolve index (.call receiver method args) span := by
  have rest (receiver : TypeRef) : Notes (binding arena) (do
      let args ← args.mapM resolve
      call site index receiver method args span) (args.map .tree) :=
    (Notes.bind (mapM_notes deeper args) fun args _ =>
      .confined (call_confined index receiver method args span)).fewer (by simp)
  cases receiver with
  | some receiver =>
    exact (Notes.bind (deeper receiver) fun receiver _ => rest receiver).fewer
      (by simp [ownNotes, ExprKind.children])
  | none =>
    exact (Notes.bind .done fun receiver _ => rest receiver).fewer
      (by simp [ownNotes, ExprKind.children])

/-- A branch that is not written is no child. -/
theorem ifElse_notes (cond thenBranch elseBranch : ExprRef) :
    NodeNotes arena site resolve index (.ifElse cond thenBranch elseBranch) span := by
  have branches : Notes (binding arena) (do
      let thenType ← resolve thenBranch
      if elseBranch = .missing then return .void
      let elseType ← resolve elseBranch
      join thenType elseType) (.tree thenBranch ::
        ([elseBranch].filter (·.isPresent)).map .tree) := by
    refine (Notes.bind (deeper thenBranch) fun thenType _ => ?_).fewer fun _ member => member
    split
    · rename_i missing
      exact Notes.done.fewer (by simp [missing, ExprRef.isPresent])
    · exact (Notes.bind (deeper elseBranch) fun elseType _ =>
        .confined (join_confined _ elseType)).fewer (by simp)
  refine (Notes.bind (deeper cond) fun condType _ =>
    .bind (.confined (spanOf_confined cond)) fun span _ =>
      .bind (.confined (expect_confined _ _ _)) fun _ _ => branches).fewer ?_
  intro note member
  obtain ⟨child, listed, rfl⟩ := List.mem_map.mp member
  obtain ⟨either, present⟩ := List.mem_filter.mp listed
  simp only [List.mem_cons, List.not_mem_nil, or_false] at either
  rcases either with rfl | rfl | rfl <;> simp [present]

theorem matchOn_notes {scrutinee : ExprRef} {branches : List MatchArm}
    (found : arena.exprs[index]? = some ⟨.matchOn scrutinee branches, span⟩) :
    NodeNotes arena site resolve index (.matchOn scrutinee branches) span := by
  have recorded (subject : TypeRef) (typed : List GroupArm × Option TypeRef)
      (prepared : List.Forall₂ (fun arm entry => GroupArm.Prepared entry arena.patterns subject arm)
        branches typed.1) : Notes (binding arena) (do
          StageM.modifyUnit fun unit => { unit with
            matchGroups := unit.matchGroups.insert index { subject, arms := typed.1, span } }
          return typed.2.getD .void) [.group index] :=
    let group : MatchGroup := { subject, arms := typed.1, span }
    have recording := recordGroup_notes found
      (show group.PreparedFrom arena.patterns branches from prepared)
    (Notes.bind (.lift recording) fun _ _ => .done).fewer (by simp)
  exact (Notes.bind (deeper scrutinee) fun subject _ =>
    Notes.bind (arms_notes deeper subject branches none) (recorded subject)).fewer
      (by simpa [ownNotes, ExprKind.children] using fun arm member => .inr ⟨arm, member, rfl⟩)

theorem letIn_notes (name : Name) (type : TypeExpr) (init : ExprRef) :
    NodeNotes arena site resolve index (.letIn name type init) span := by
  have bindIt (declared : TypeRef) : Notes (binding arena) (do
      modify ((name, declared) :: ·)
      return TypeRef.void) [] := (Notes.modify.bind fun _ _ => .done).fewer nofun
  have typed (initType : TypeRef) : Notes (binding arena) (do
      let declared ← site.resolve type
      expect declared initType (← spanOf init)
      let declared ← pure declared
      modify ((name, declared) :: ·)
      return TypeRef.void) [] :=
    ((Notes.confined (TypeSite.resolve_confined _)).bind fun declared _ =>
      (Notes.confined (spanOf_confined init)).bind fun span _ =>
        (Notes.confined (expect_confined declared initType span)).bind fun _ _ =>
          bindIt declared).fewer nofun
  cases type with
  | infer =>
    exact (Notes.bind (deeper init) fun initType _ =>
      (Notes.done.bind fun declared _ => bindIt declared)).fewer
        (by simp [ownNotes, ExprKind.children])
  | _ => exact (Notes.bind (deeper init) fun initType _ =>
    typed initType).fewer (by simp [ownNotes, ExprKind.children])

theorem node_notes {expr : Expr} (found : arena.exprs[index]? = some expr) :
    NodeNotes arena site resolve index expr.kind expr.span := by
  obtain ⟨kind, span⟩ := expr
  cases kind with
  | literal | this | error => exact .done
  | ident name =>
    exact (Notes.bind .get fun locals _ => .lift (ident_notes site locals index name span)).fewer
      (by simp [ownNotes, ExprKind.children])
  | field receiver name =>
    exact (Notes.bind (deeper receiver) fun receiver _ =>
      .confined (field_confined index receiver name span)).fewer
        (by simp [ownNotes, ExprKind.children])
  | call receiver method args => exact call_notes deeper receiver method args
  | new type args =>
    exact (Notes.bind (forM_notes deeper args) fun _ _ =>
      .confined (newInstance_confined index type span)).fewer
        (by simp [ownNotes, ExprKind.children])
  | binary op left right =>
    exact (Notes.bind (deeper left) fun _ _ => .bind (deeper right) fun _ _ =>
      .bind (.confined (spanOf_confined right)) fun _ _ =>
        .bind (.confined (spanOf_confined left)) fun _ _ =>
          .confined (binary_confined op _ _)).fewer (by simp [ownNotes, ExprKind.children])
  | unary op operand =>
    exact (Notes.bind (deeper operand) fun type _ =>
      .bind (.confined (spanOf_confined operand)) fun span _ =>
        .confined (unary_confined op type span)).fewer (by simp [ownNotes, ExprKind.children])
  | ifElse cond thenBranch elseBranch => exact ifElse_notes deeper cond thenBranch elseBranch
  | matchOn => exact matchOn_notes deeper found
  | letIn name type init => exact letIn_notes deeper name type init
  | block list =>
    exact (Notes.withScope (items_notes deeper list .void)).fewer
      (by simp [ownNotes, ExprKind.children])

end

/-- The type of an expression is recorded. -/
theorem recordType_notes (index : Nat) (type : TypeRef) : StageM.Notes reliance
    (StageM.modifyUnit fun unit => { unit with exprTypes := unit.exprTypes.insert index type })
    [.type index] := by
  refine .modifyUnit fun unit offered => ⟨fun note => ?_, offered, fun note member => ?_⟩
  · have spared : Spares .resolve 0 unit
        { unit with exprTypes := unit.exprTypes.insert index type } :=
      .recordType index type
    exact spared.has nofun
  · cases List.mem_singleton.mp member
    change ((unit.exprTypes.insert index type).get? index).isSome
    rw [IdMap.get?_insert, if_pos rfl]
    rfl

/-- A node whose children are dealt with, whose own notes are made and which has its type, is dealt
with. -/
theorem has_resolved {arena : Arena} {unit : CompilationUnit} {index : Nat} {expr : Expr}
    (same : unit.arena = arena) (found : arena.exprs[index]? = some expr)
    (typed : unit.Has (.type index))
    (noted : ∀ note ∈ ownNotes index expr.kind ++ expr.kind.children.map .tree, unit.Has note) :
    unit.Has (.tree (.node index)) := by
  subst same
  refine has_node found ⟨typed, fun name span read => ?_, ?_⟩ fun child member =>
    noted _ (List.mem_append_right _ (List.mem_map_of_mem member))
  · cases found.symm.trans read
    exact noted (.resolution index) (by simp [ownNotes])
  · rintro ⟨scrutinee, arms, span, read⟩
    cases found.symm.trans read
    exact noted (.group index) (by simp [ownNotes])

/-- All that is due below a slot is noted. -/
theorem resolveWithin_notes {arena : Arena} {site : BodySite} : ∀ (depth : Nat) (ref : ExprRef),
    Notes (binding arena) (resolveWithin site depth ref) [.tree ref]
  | 0, .missing | _ + 1, .missing => fun _ work offered => by
    refine Ensures.pure ⟨fun _ inPool => inPool, offered, fun note member => ?_, trivial⟩
    cases List.mem_singleton.mp member
    exact has_missing _
  | 0, .node _ => by
    intro locals work offered result after ran
    cases ran
  | depth + 1, .node index => by
    have reading : StageM.Notes (binding arena)
        (StageM.inspect (·.unit.arena.expr (.node index))) []
        fun expr => arena.exprs[index]? = some expr :=
      .inspect fun work offered expr found => Arena.lookup_of_expr (offered.1 ▸ found)
    refine (Notes.bind (.lift reading) fun expr found => ?_).fewer fun _ member => member
    have typing (type : TypeRef) : Notes (binding arena) (do
        StageM.modifyUnit fun unit => { unit with exprTypes := unit.exprTypes.insert index type }
        return type) [.type index] :=
      (Notes.bind (.lift (recordType_notes index type)) fun _ _ => .done).fewer
        fun _ member => member
    have resolving : Notes (binding arena) (node site (resolveWithin site depth) index expr) _ :=
      node_notes (resolveWithin_notes depth) found
    refine (resolving.bind fun type _ => typing type).gather
      fun unit offered noted note member => ?_
    cases List.mem_singleton.mp member
    exact has_resolved offered.1 found (noted _ (List.mem_append_right _ List.mem_cons_self))
      fun note listed => noted note (List.mem_append_left _ listed)

theorem resolve_notes {arena : Arena} {site : BodySite} (ref : ExprRef) :
    Notes (binding arena) (resolve site ref) [.tree ref] :=
  Notes.bind (.confined (StageM.inspect_confined fun _ => .pure)) fun size _ =>
    resolveWithin_notes (size + 1) ref

end BodyM

/-- What is due of a body is noted of the body of a member, if it has one. -/
def CompilationUnit.Wrote (unit : CompilationUnit) (note : ExprRef → Note) (id : Nat) : Prop :=
  ∀ member body, unit.members.members[id]? = some member → member.body = some body →
    unit.Has (note body)

namespace StageM
variable {id : Nat} {stage : Stage} {note : ExprRef → Note}

theorem Notes.ensures {action : StageM α} {notes : List Note} {work : Workspace}
    (done : Notes reliance action notes) (offered : work.unit.Offers reliance) :
    Ensures action work fun _ after => (∀ note, work.unit.Has note → after.unit.Has note) ∧
      after.unit.Offers reliance ∧ ∀ note ∈ notes, after.unit.Has note :=
  (done work offered).mono fun _ _ ⟨kept, offers, made, _⟩ => ⟨kept, offers, made⟩

/-- Notes about the body of a member are about the member afterwards, when it is spared. -/
theorem wrote {action : StageM PUnit} {member : Member} {work : Workspace}
    (found : work.unit.members.members[id]? = some member) (apart : Confined stage (id + 1) action)
    (done : Ensures action work fun _ after => (∀ note, work.unit.Has note → after.unit.Has note) ∧
      after.unit.Offers reliance ∧ ∀ written ∈ member.body.toList.map note,
        after.unit.Has written) :
    Ensures action work fun _ after =>
      (∀ note, work.unit.Has note → after.unit.Has note) ∧ after.unit.Offers reliance ∧
        after.unit.Wrote note id := by
  intro result after ran
  obtain ⟨kept, offers, made⟩ := done result after ran
  refine ⟨kept, offers, fun later body present written => ?_⟩
  have same := ((apart work).2 result after ran).1.unit.others id (Nat.ne_of_lt id.lt_succ_self)
  cases found.symm.trans (same.symm.trans present)
  exact made _ (by simp [written])

/-- The whole body of a member is noted. -/
theorem resolveBody_wrote {arena : Arena} {work : Workspace}
    (offered : work.unit.Offers (BodyM.binding arena)) :
    Ensures (resolveBody id) work fun _ after =>
      (∀ note, work.unit.Has note → after.unit.Has note) ∧ after.unit.Offers (BodyM.binding arena) ∧
        after.unit.Wrote .tree id := by
  refine Ensures.bind ((Notes.spared resolveAnnotations_confined work offered).mono ?_)
  rintro - middle ⟨kept, offers, -, -⟩
  refine Ensures.bind (Ensures.get (Ensures.bind (lift_ensures fun member read => ?_)))
  dsimp only
  have noted {action : StageM PUnit}
      (done : Notes (BodyM.binding arena) action (member.body.toList.map .tree))
      (apart : Confined .resolve (id + 1) action) : Ensures action middle fun _ after =>
        (∀ note, work.unit.Has note → after.unit.Has note) ∧
          after.unit.Offers (BodyM.binding arena) ∧
          after.unit.Wrote .tree id :=
    (wrote (MemberArena.lookup_of_get read) apart (done.ensures offers)).mono
      fun _ _ ⟨keptAlso, facts⟩ =>
        ⟨fun note has => keptAlso note (kept note has), facts⟩
  split
  · rename_i body written
    refine noted ?_ ?_
    · refine (Notes.bind (.confined (lift_confined (middle.unit.classOf_orderly id)))
        fun classMember _ =>
          Notes.bind (.confined (lift_confined (TypeScope.forMember_orderly _ id))) fun scope _ =>
          Notes.bind (BodyM.resolve_notes body _) fun _ _ => .pure trivial).mono ?_
            fun _ known => known
      simp [written]
    · refine .bind (lift_confined (middle.unit.classOf_orderly id)) fun classMember => ?_
      refine .bind (lift_confined (TypeScope.forMember_orderly _ id)) fun scope => ?_
      refine .bind ((confining .resolve (id + 1) Stage.resolve.MayReport).mono
        (BodyM.resolve_confined _ _) fun _ _ => trivial) fun _ => ?_
      exact .pure
  · rename_i other absent
    have none : member.body = none := Option.eq_none_iff_forall_not_mem.mpr absent
    exact noted ((Notes.pure trivial).mono (by simp [none]) fun _ known => known) .pure

end StageM
end ClassLang
