import ClassLang.Pipeline
import ClassLang.Proofs.Invariance
import ClassLang.Proofs.Stage.Evolution

/-! The types that are recorded in a unit, and what folding constants keeps of a unit: it records no
other types. -/

namespace ClassLang

/-- The types of a member: its own, those of its parameters, and those above it. -/
def Member.types (member : Member) : List TypeRef :=
  member.type :: (member.params.map (·.type) ++ member.supertypes)

theorem Member.Typed.has {member : Member} {pool : TypePool} {type : TypeRef}
    (typed : member.Typed pool) (listed : type ∈ member.types) : pool.Has type := by
  rcases List.mem_cons.mp listed with rfl | rest
  · exact typed.type
  · rcases List.mem_append.mp rest with param | above
    · obtain ⟨declared, present, rfl⟩ := List.mem_map.mp param
      exact typed.params declared present
    · exact typed.supertypes type above

theorem Member.setBody_types {member : Member} {body : ExprRef} :
    (member.setBody body).types = member.types := by
  cases detail : member.detail <;>
    simp [Member.setBody, Member.types, Member.params, Member.supertypes, detail]

namespace CompilationUnit

/-- The type is one of a member, of an expression, or of the subject of a match. -/
inductive Mentions (unit : CompilationUnit) : TypeRef → Prop where
  | member {id : Nat} {member : Member} {type : TypeRef}
      (found : unit.members.members[id]? = some member) (listed : type ∈ member.types) :
      Mentions unit type
  | expr {index : Nat} {type : TypeRef} (found : unit.exprTypes.get? index = some type) :
      Mentions unit type
  | subject {index : Nat} {group : MatchGroup} (found : unit.matchGroups.get? index = some group) :
      Mentions unit group.subject

variable {unit : CompilationUnit}

/-- Typed members and sound records leave only types of the pool to be recorded. -/
theorem Mentions.has {pool : TypePool} {symbols : Nat} {type : TypeRef}
    (mentions : unit.Mentions type) (typed : unit.Typed pool)
    (recorded : unit.Recorded pool symbols) :
    pool.Has type := by
  cases mentions with
  | member found listed => exact (typed _ _ found).has listed
  | expr found => exact recorded.types _ _ found
  | subject found => exact (recorded.groups _ _ found).subject

/-- A member is replaced by one whose types are recorded already. -/
theorem Mentions.of_set {id : Nat} {later : Member} {type : TypeRef}
    (mentions : { unit with members := unit.members.set id later }.Mentions type)
    (own : ∀ type ∈ later.types, unit.Mentions type) : unit.Mentions type := by
  cases mentions with
  | member found listed =>
    change (unit.members.members.setIfInBounds id later)[_]? = _ at found
    rw [Array.getElem?_setIfInBounds] at found
    split at found
    · split at found
      · cases found
        exact own type listed
      · cases found
    · exact .member found listed
  | expr found => exact .expr found
  | subject found => exact .subject found

end CompilationUnit

theorem Ensures.lift {σ ε α : Type} {answer : Except ε α} {start : σ} {post : α → σ → Prop}
    (holds : ∀ result, answer = .ok result → post result start) :
    Ensures (liftM answer : StateT σ (Except ε) α) start post := by
  intro result final ran
  obtain ⟨value, answered, same⟩ := Except.bind_eq_ok ran
  cases same
  exact holds _ answered

namespace Promise

variable {m : Type → Type} [Monad m] [LawfulMonad m] (promise : Promise m)

/-- Replacing the slots of a node, when each replacement is as promised. -/
theorem mapChildrenM {replace : ExprRef → m ExprRef}
    (each : ∀ ref, promise.holds (replace ref) fun _ => True) (kind : ExprKind) :
    promise.holds (kind.mapChildrenM replace) fun _ => True := by
  have all : ∀ {elements : List ExprRef}, promise.holds (elements.mapM replace) fun _ => True :=
    promise.mono (promise.mapM fun ref _ => each ref) fun _ _ => trivial
  unfold ExprKind.mapChildrenM
  cases kind with
  | field receiver name => exact promise.andThen (each receiver) fun _ => promise.pure trivial
  | call receiver method args =>
    have called : ∀ receiver, promise.holds (do
        return ExprKind.call receiver method (← args.mapM replace)) fun _ => True := fun receiver =>
      promise.andThen all fun _ => promise.pure trivial
    cases receiver with
    | none => simpa using called none
    | some receiver =>
      simpa using promise.andThen (each receiver) fun receiver => called (some receiver)
  | new type args => exact promise.andThen all fun _ => promise.pure trivial
  | binary op left right =>
    refine promise.andThen (each left) fun _ => ?_
    refine promise.andThen (each right) fun _ => ?_
    exact promise.pure trivial
  | unary op operand => exact promise.andThen (each operand) fun _ => promise.pure trivial
  | ifElse cond thenBranch elseBranch =>
    refine promise.andThen (each cond) fun _ => ?_
    refine promise.andThen (each thenBranch) fun _ => ?_
    refine promise.andThen (each elseBranch) fun _ => ?_
    exact promise.pure trivial
  | matchOn scrutinee arms =>
    have body : ∀ arm : MatchArm, promise.holds (do
        return { arm with body := ← replace arm.body }) fun _ => True := fun arm =>
      promise.andThen (each arm.body) fun _ => promise.pure trivial
    apply promise.andThen (each scrutinee)
    intro scrutinee
    exact promise.bind (promise.mapM fun arm _ => body arm) fun _ _ => promise.pure trivial
  | letIn name type init => exact promise.andThen (each init) fun _ => promise.pure trivial
  | block items => exact promise.andThen all fun _ => promise.pure trivial
  | _ => exact promise.pure trivial

end Promise

namespace FoldM

variable {allowed : TypeRef → Prop}

/-- Expressions have allowed types only. -/
abbrev keeping (allowed : TypeRef → Prop) : Promise FoldM :=
  Keeping fun state => ∀ (index : Nat) (type : TypeRef), state.types.get? index = some type →
    allowed type

theorem lift_keeps {answer : Except Abort α} :
    (keeping allowed).holds (liftM answer : FoldM α) fun _ => True :=
  fun _ kept => Ensures.lift fun _ _ => ⟨kept, trivial⟩

theorem get_keeps : (keeping allowed).holds (MonadState.get : FoldM FoldState) fun _ => True := by
  intro state kept _ _ ran
  cases ran
  exact ⟨kept, trivial⟩

/-- A literal has the type of the node it stands for. -/
theorem replaceBy_keeps (index : Nat) (value : Literal) :
    (keeping allowed).holds (replaceBy index value) fun _ => True := by
  intro state kept
  apply Ensures.bind
  intro _ _ read
  cases read
  apply Ensures.bind
  apply Ensures.lift
  intro span _ result final ran
  cases ran
  refine ⟨fun place type found => ?_, trivial⟩
  dsimp only at found
  split at found
  · rename_i stored
    rw [IdMap.get?_insert] at found
    split at found
    · cases found
      exact kept index type stored
    · exact kept place type found
  · exact kept place type found

theorem simplify_keeps (index : Nat) (kind : ExprKind) :
    (keeping allowed).holds (simplify index kind) fun _ => True := by
  apply (keeping allowed).andThen get_keeps
  intro state
  have same : ∀ ref : ExprRef, (keeping allowed).holds (Pure.pure ref) fun _ => True := fun _ =>
    (keeping allowed).pure trivial
  split
  · apply (keeping allowed).andThen lift_keeps
    intro known
    split
    · exact same _
    · exact same _
    · exact same _
  · apply (keeping allowed).andThen lift_keeps
    intro first
    cases first with
    | none => exact same _
    | some first =>
      apply (keeping allowed).andThen lift_keeps
      intro second
      cases second with
      | none => exact same _
      | some second =>
        dsimp only
        split
        · exact replaceBy_keeps index _
        · exact same _
  · apply (keeping allowed).andThen lift_keeps
    intro known
    cases known with
    | none => exact same _
    | some known =>
      dsimp only
      split
      · exact replaceBy_keeps index _
      · exact same _
  · exact same _

theorem foldWithin_keeps : ∀ (depth : Nat) (ref : ExprRef),
    (keeping allowed).holds (foldWithin depth ref) fun _ => True
  | 0, .missing => (keeping allowed).pure trivial
  | _ + 1, .missing => (keeping allowed).pure trivial
  | 0, .node _ => fun _ _ _ _ ran => nomatch ran
  | depth + 1, .node index => by
    apply (keeping allowed).andThen get_keeps
    intro state
    apply (keeping allowed).andThen lift_keeps
    intro kind
    apply (keeping allowed).andThen ((keeping allowed).mapChildrenM (foldWithin_keeps depth) kind)
    intro folded
    split
    · apply (keeping allowed).andThen get_keeps
      intro state
      apply (keeping allowed).andThen lift_keeps
      intro arena
      apply (keeping allowed).andThen
      · intro state kept _ _ ran
        cases ran
        exact ⟨kept, trivial⟩
      · exact fun _ => simplify_keeps index folded
    · exact simplify_keeps index folded

theorem fold_keeps (ref : ExprRef) : (keeping allowed).holds (fold ref) fun _ => True :=
  (keeping allowed).andThen get_keeps fun _ => foldWithin_keeps _ ref

end FoldM
namespace StageM

/-- Folding the constants of a member keeps what is kept as the arena and the types of its
expressions are replaced, with the old body or the new one. -/
theorem foldConstants_keeps (keeps : CompilationUnit → Prop) {id : Nat}
    (folds : ∀ (unit : CompilationUnit) (member : Member) (body root : ExprRef) (final : FoldState),
      keeps unit → unit.members.members[id]? = some member → member.body = some body →
      (FoldM.fold body).run { arena := unit.arena, types := unit.exprTypes } = .ok (root, final) →
      keeps { unit with arena := final.arena, exprTypes := final.types } ∧
        keeps { unit with
          arena := final.arena, exprTypes := final.types
          members := unit.members.set id (member.setBody root) }) :
    (Keeping fun work : Workspace => keeps work.unit).holds (foldConstants id) fun _ => True := by
  intro work kept
  refine Ensures.bind (Ensures.get (Ensures.bind (lift_ensures fun member read => ?_)))
  dsimp only
  split
  · rename_i body written
    refine Ensures.bind (lift_ensures ?_)
    rintro ⟨root, final⟩ ran
    obtain ⟨same, replaced⟩ :=
      folds work.unit member body root final kept (MemberArena.lookup_of_get read) written ran
    refine Ensures.bind fun _ between changed => ?_
    cases changed
    split
    · intro _ after ran
      cases ran
      exact ⟨replaced, trivial⟩
    · exact Ensures.pure ⟨same, trivial⟩
  · exact Ensures.pure ⟨kept, trivial⟩

/-- A stage on a member keeps what its work keeps and marking the member does not touch. -/
theorem runMember_keeps {stage : Stage} {id : Nat} (keeps : CompilationUnit → Prop)
    (performs : (Keeping fun work : Workspace => keeps work.unit).holds (perform stage id)
      fun _ => True)
    (marks : ∀ (unit : CompilationUnit) (member : Member), keeps unit →
      unit.members.members[id]? = some member →
      keeps { unit with members := unit.members.set id { member with progress := stage.target } }) :
    (Keeping fun work : Workspace => keeps work.unit).holds (runMember stage id) fun _ => True := by
  have completing : (Keeping fun work : Workspace => keeps work.unit).holds (do
      perform stage id
      let member ← inspect (·.unit.members.get id)
      setMember id { member with progress := stage.target }) fun _ => True := by
    refine (Keeping fun work : Workspace => keeps work.unit).andThen performs fun _ work kept => ?_
    refine Ensures.bind (Ensures.bind (Ensures.get (lift_ensures fun member read => ?_)))
    intro _ after ran
    cases ran
    exact ⟨marks work.unit member kept (MemberArena.lookup_of_get read), trivial⟩
  intro work kept
  refine Ensures.bind (Ensures.get (Ensures.bind (lift_ensures fun member _ => ?_)))
  dsimp only
  split
  · exact Ensures.pure ⟨kept, trivial⟩
  split
  · exact Ensures.bind fun _ _ ran => nomatch ran
  · exact completing work kept

variable {allowed : TypeRef → Prop}

/-- Only allowed types are recorded. -/
def Confines (allowed : TypeRef → Prop) (work : Workspace) : Prop :=
  ∀ type, work.unit.Mentions type → allowed type

/-- Folding the constants of a member records no types that were not recorded before. -/
theorem foldConstants_confines (id : Nat) :
    (Keeping (Confines allowed)).holds (foldConstants id) fun _ => True := by
  refine foldConstants_keeps (fun unit => ∀ type, unit.Mentions type → allowed type)
    fun unit member body root final kept found _ ran => ?_
  have types :=
    (@FoldM.fold_keeps allowed body _ (fun index type listed => kept type (.expr listed)) root
      final ran).1
  have confined : ∀ type, { unit with arena := final.arena, exprTypes := final.types }.Mentions
    type → allowed type := by
    intro type mentions
    cases mentions with
    | member found listed => exact kept type (.member found listed)
    | expr found => exact types _ type found
    | subject found => exact kept _ (.subject found)
  exact ⟨confined, fun type mentions => confined type (mentions.of_set fun type listed =>
    .member found (Member.setBody_types ▸ listed))⟩

/-- So does the last stage on a member. -/
theorem runMember_confines (id : Nat) :
    (Keeping (Confines allowed)).holds (runMember .foldConstants id) fun _ => True :=
  runMember_keeps (fun unit => ∀ type, unit.Mentions type → allowed type)
    (foldConstants_confines id)
    fun _ _ kept found type mentions =>
      kept type (mentions.of_set fun _ listed => .member found listed)

end StageM
end ClassLang
