import ClassLang.Proofs.Stage.Constants
import ClassLang.Proofs.Stage.Lowering
import ClassLang.Proofs.StageOrder

/-! Folding constants leaves nothing out: what was recorded about the expressions below the bodies
of a unit is recorded about those that are there afterwards. -/

namespace ClassLang
open CompilationUnit

/-- What is read of a node is read of an expression of the arena. -/
theorem Arena.lookup_of_map {α : Type} {arena : Arena} {index : Nat} {part : Expr → α} {value : α}
    (read : (arena.expr (.node index)).map part = .ok value) :
    ∃ expr, arena.exprs[index]? = some expr ∧ part expr = value := by
  cases ran : arena.expr (.node index) with
  | error fault => rw [ran] at read; cases read
  | ok expr =>
    rw [ran] at read
    cases read
    exact ⟨expr, Arena.lookup_of_expr ran, rfl⟩

/-- Changing a node leaves all others alone. -/
theorem Arena.lookup_of_setKind {arena after : Arena} {index : Nat} {kind : ExprKind}
    (changed : arena.setKind (.node index) kind = .ok after) :
    ∃ old, arena.exprs[index]? = some old ∧ after.size = arena.size ∧
    after.patterns = arena.patterns ∧
      ∀ (other : Nat) (expr : Expr), after.exprs[other]? = some expr →
        other = index ∧ expr.kind = kind ∨ arena.exprs[other]? = some expr := by
  unfold Arena.setKind at changed
  cases found : arena.exprs[index]? with
  | none => simp [found] at changed
  | some old =>
    simp only [found] at changed
    cases changed
    refine ⟨old, rfl, by simp [Arena.size], rfl, fun other expr read => ?_⟩
    rw [Array.getElem?_setIfInBounds] at read
    split at read
    · rename_i own
      split at read
      · cases read
        exact .inl ⟨own.symm, rfl⟩
      · cases read
    · exact .inr read

/-- A node was made from another one by putting other expressions in its slots. -/
structure ExprKind.Recasts (kind folded : ExprKind) : Prop where
  operation : folded.isOperation = kind.isOperation
  ident : ∀ name, folded = .ident name → kind = .ident name
  arms : ∀ scrutinee arms, folded = .matchOn scrutinee arms → ∃ subject before,
    kind = .matchOn subject before ∧
      List.Forall₂ (fun old new : MatchArm => new.pattern = old.pattern ∧ new.span = old.span)
        before arms

namespace Promise
variable {m : Type → Type} [Monad m] [LawfulMonad m] (promise : Promise m) {α β : Type}

/-- Results in the order of the elements. -/
theorem mapM_forall₂ {build : α → m β} {relation : α → β → Prop} : ∀ {elements : List α},
    (∀ element ∈ elements, promise.holds (build element) (relation element)) →
      promise.holds (elements.mapM build) (List.Forall₂ relation elements)
  | [], _ => promise.pure .nil
  | first :: rest, each => by
    rw [List.mapM_cons]
    refine promise.bind (each first List.mem_cons_self) fun result holds => ?_
    exact promise.bind (mapM_forall₂ fun element member =>
      each element (List.mem_cons_of_mem _ member))
      fun results related => promise.pure (.cons holds related)

/-- Replacing the slots of a node by others of a kind. -/
theorem mapChildrenM_recasts {replace : ExprRef → m ExprRef} {due : ExprRef → Prop}
    (each : ∀ ref, due ref → promise.holds (replace ref) due) (nothing : due .missing)
    {kind : ExprKind} (before : ∀ ref ∈ kind.children, due ref) :
    promise.holds (kind.mapChildrenM replace) fun folded =>
      kind.Recasts folded ∧ ∀ ref ∈ folded.children, due ref := by
  have all {refs : List ExprRef} (listed : ∀ ref ∈ refs, due ref) :
      promise.holds (refs.mapM replace) fun results => ∀ ref ∈ results, due ref :=
    promise.mono (promise.mapM fun ref member => each ref (listed ref member)) fun _ both => both.2
  cases kind with
  | field receiver name =>
    refine promise.bind (each receiver (before _ (by simp [ExprKind.children])))
      fun receiver holds => ?_
    exact promise.pure ⟨⟨rfl, by simp, by simp⟩, by simpa [ExprKind.children] using holds⟩
  | call receiver method args =>
    have called (other : Option ExprRef) (promised : ∀ ref ∈ other.toList, due ref) :
        promise.holds (do
        return ExprKind.call other method (← args.mapM replace)) fun folded =>
          (ExprKind.call receiver method args).Recasts folded ∧ ∀ ref ∈ folded.children,
            due ref := by
      refine promise.bind (all fun ref member => before ref (List.mem_append_right _ member))
        fun args listed => ?_
      exact promise.pure ⟨⟨rfl, by simp, by simp⟩, fun ref member =>
        (List.mem_append.mp member).elim (promised ref) (listed ref)⟩
    unfold ExprKind.mapChildrenM
    cases receiver with
    | none => simpa using called none (by simp)
    | some receiver =>
      have first := each receiver (before _ (by simp [ExprKind.children]))
      simpa using promise.bind first fun receiver holds =>
        called (some receiver) (by simpa using holds)
  | new type args =>
    refine promise.bind (all before) fun args promised => ?_
    exact promise.pure ⟨⟨rfl, by simp, by simp⟩, promised⟩
  | binary op left right =>
    refine promise.bind (each left (before _ (by simp [ExprKind.children]))) fun left holds => ?_
    refine promise.bind (each right (before _ (by simp [ExprKind.children]))) fun right also => ?_
    exact promise.pure ⟨⟨rfl, by simp, by simp⟩, by simpa [ExprKind.children] using ⟨holds, also⟩⟩
  | unary op operand =>
    refine promise.bind (each operand (before _ (by simp [ExprKind.children])))
      fun operand holds => ?_
    exact promise.pure ⟨⟨rfl, by simp, by simp⟩, by simpa [ExprKind.children] using holds⟩
  | ifElse cond thenBranch elseBranch =>
    have slot : ∀ ref ∈ [cond, thenBranch, elseBranch], due ref := by
      intro ref member
      cases ref with
      | missing => exact nothing
      | node index => exact before _ (List.mem_filter.mpr ⟨member, rfl⟩)
    refine promise.bind (each cond (slot _ (by simp))) fun cond first => ?_
    refine promise.bind (each thenBranch (slot _ (by simp))) fun thenBranch second => ?_
    refine promise.bind (each elseBranch (slot _ (by simp))) fun elseBranch third => ?_
    refine promise.pure ⟨⟨rfl, by simp, by simp⟩, fun ref member => ?_⟩
    have listed := (List.mem_filter.mp member).1
    simp only [List.mem_cons, List.not_mem_nil, or_false] at listed
    rcases listed with rfl | rfl | rfl <;> assumption
  | matchOn scrutinee arms =>
    refine promise.bind (each scrutinee (before _ List.mem_cons_self)) fun subject first => ?_
    have bodies : promise.holds
        (arms.mapM fun arm : MatchArm => do return { arm with body := ← replace arm.body })
        (List.Forall₂ (fun old new : MatchArm =>
          (new.pattern = old.pattern ∧ new.span = old.span) ∧ due new.body) arms) :=
      promise.mapM_forall₂ fun arm member => promise.bind
        (each arm.body (before _ (List.mem_cons_of_mem _ (List.mem_map_of_mem member))))
        fun body holds => promise.pure ⟨⟨rfl, rfl⟩, holds⟩
    refine promise.bind bodies fun changed related => promise.pure ⟨⟨rfl, by simp, ?_⟩, ?_⟩
    · rintro _ _ ⟨⟩
      exact ⟨scrutinee, arms, rfl, related.imp fun _ _ facts => facts.1⟩
    · have listed := FoldM.mem_of_forall₂ related (fun old new facts => facts.2)
      simpa [ExprKind.children] using ⟨first, listed⟩
  | letIn name type init =>
    refine promise.bind (each init (before _ (by simp [ExprKind.children]))) fun init holds => ?_
    exact promise.pure ⟨⟨rfl, by simp, by simp⟩, by simpa [ExprKind.children] using holds⟩
  | block items =>
    refine promise.bind (all before) fun items promised => ?_
    exact promise.pure ⟨⟨rfl, by simp, by simp⟩, promised⟩
  | ident name => exact promise.pure ⟨⟨rfl, fun _ same => same, by simp⟩, before⟩
  | literal | this | error => exact promise.pure ⟨⟨rfl, by simp, by simp⟩, before⟩

end Promise

/-- The slot holds nothing, or a node that is due. -/
def ExprRef.Due (due : Nat → Prop) (ref : ExprRef) : Prop := ∀ index, ref = .node index → due index

/-- What is below a node that is due is due; every such node has its type and is explained. All
positions that are not taken are due, and the patterns are those given. -/
structure FoldState.Settled (due : Nat → Prop) (explained : Nat → ExprKind → Prop)
    (patterns : Array Pattern) (state : FoldState) : Prop where
  closed : ∀ parent child, due parent → state.arena.HasChild parent child → due child
  typed : ∀ index expr, due index → state.arena.exprs[index]? = some expr →
    (state.types.get? index).isSome ∧ explained index expr.kind
  fresh : ∀ index, state.arena.size ≤ index → due index
  patterns : state.arena.patterns = patterns

namespace FoldM
variable {due : Nat → Prop} {explained : Nat → ExprKind → Prop} {patterns : Array Pattern}

/-- What folding keeps. -/
abbrev settling (due : Nat → Prop) (explained : Nat → ExprKind → Prop) (patterns : Array Pattern) :
    Promise FoldM :=
  Keeping (FoldState.Settled due explained patterns)

variable (literals : ∀ index value, explained index (.literal value))
include literals

/-- A literal is put in the place of a node that is due. -/
theorem replaceBy_settles {index : Nat} (dueHere : due index) (value : Literal) :
    (settling due explained patterns).holds (replaceBy index value) (·.Due due) := by
  intro state settled
  refine Ensures.bind (Ensures.get (Ensures.bind (Ensures.lift fun span spanned => ?_)))
  obtain ⟨expr, found, -⟩ := Arena.lookup_of_map spanned
  obtain ⟨type, stored⟩ := Option.isSome_iff_exists.mp (settled.typed index expr dueHere found).1
  rw [stored]
  intro result after ran
  cases ran
  refine ⟨⟨fun parent child holds ⟨expr, read, member⟩ => ?_, fun other expr holds read => ?_,
    fun other outside => ?_, settled.patterns⟩, fun _ same => ?_⟩
  · rcases lookup_push read with old | ⟨-, rfl⟩
    · exact settled.closed parent child holds ⟨expr, old, member⟩
    · cases member
  · rcases lookup_push read with old | ⟨rfl, rfl⟩
    · obtain ⟨typed, explained⟩ := settled.typed other expr holds old
      exact ⟨IdMap.isSome_insert typed, explained⟩
    · exact ⟨by simp [IdMap.get?_insert, Arena.size], literals _ value⟩
  · exact settled.fresh other (Nat.le_of_succ_le (by simpa [Arena.alloc, Arena.size] using outside))
  · cases same
    exact settled.fresh _ (Nat.le_refl _)

/-- What stands for a node that is due is due. -/
theorem simplify_settles {index : Nat} (dueHere : due index) {kind : ExprKind}
    (below : ∀ ref ∈ kind.children, ref.Due due) :
    (settling due explained patterns).holds (simplify index kind) (·.Due due) := by
  have reading : (settling due explained patterns).holds (MonadState.get : FoldM FoldState) fun _ =>
    True :=
    fun _ settled => Ensures.get ⟨settled, trivial⟩
  have asking {α : Type} (answer : Except Abort α) :
      (settling due explained patterns).holds (liftM answer : FoldM α) fun _ => True :=
    fun _ settled => Ensures.lift fun _ _ => ⟨settled, trivial⟩
  have itself : (settling due explained patterns).holds (Pure.pure (ExprRef.node index))
      (·.Due due) :=
    (settling due explained patterns).pure fun _ same => by cases same; exact dueHere
  refine (settling due explained patterns).andThen reading fun state => ?_
  cases kind with
  | ifElse cond thenBranch elseBranch =>
    have slot : ∀ ref ∈ [cond, thenBranch, elseBranch], ref.Due due := by
      intro ref member
      cases ref with
      | missing => exact nofun
      | node other => exact below _ (List.mem_filter.mpr ⟨member, rfl⟩)
    refine (settling due explained patterns).andThen (asking _) fun value => ?_
    split
    · exact (settling due explained patterns).pure (slot thenBranch (by simp))
    · split
      · exact (settling due explained patterns).pure (slot elseBranch (by simp))
      · exact itself
    · exact itself
  | binary op left right =>
    refine (settling due explained patterns).andThen (asking _) fun first => ?_
    split
    · refine (settling due explained patterns).andThen (asking _) fun second => ?_
      split
      · split
        · exact replaceBy_settles literals dueHere _
        · exact itself
      · exact itself
    · exact itself
  | unary op operand =>
    refine (settling due explained patterns).andThen (asking _) fun value => ?_
    split
    · split
      · exact replaceBy_settles literals dueHere _
      · exact itself
    · exact itself
  | _ => exact itself

omit literals in
/-- A node that is due gets other slots. -/
theorem setKind_settles {state : FoldState} {arena : Arena} {index : Nat} {kind : ExprKind}
    (settled : state.Settled due explained patterns) (dueHere : due index)
    (holds : explained index kind) (below : ∀ ref ∈ kind.children, ref.Due due)
    (changed : state.arena.setKind (.node index) kind = .ok arena) :
    FoldState.Settled due explained patterns { state with arena } := by
  obtain ⟨old, found, size, same, replaced⟩ := Arena.lookup_of_setKind changed
  refine ⟨fun parent child promised ⟨expr, read, member⟩ => ?_, fun other expr promised read => ?_,
    fun other outside => ?_, same.trans settled.patterns⟩
  · rcases replaced parent expr read with ⟨-, rfl⟩ | old
    · exact below _ member child rfl
    · exact settled.closed parent child promised ⟨expr, old, member⟩
  · rcases replaced other expr read with ⟨rfl, rfl⟩ | old
    · exact ⟨(settled.typed other old promised found).1, holds⟩
    · exact settled.typed other expr promised old
  · exact settled.fresh other (size ▸ outside)

variable (recasts : ∀ index kind folded, explained index kind → kind.Recasts folded →
      explained index folded)
include recasts

theorem foldWithin_settles : ∀ (depth : Nat) (ref : ExprRef), ref.Due due →
    (settling due explained patterns).holds (foldWithin depth ref) (·.Due due)
  | 0, .missing, _ | _ + 1, .missing, _ => (settling due explained patterns).pure nofun
  | 0, .node _, _ => fun _ _ _ _ ran => nomatch ran
  | depth + 1, .node index, dueHere => by
    intro state settled
    refine Ensures.bind (Ensures.get (Ensures.bind (Ensures.lift fun kind asked => ?_)))
    obtain ⟨expr, found, rfl⟩ := Arena.lookup_of_map asked
    have holds : due index := dueHere index rfl
    obtain ⟨-, promised⟩ := settled.typed index expr holds found
    have below : ∀ ref ∈ expr.kind.children, ref.Due due := by
      rintro ref member child rfl
      exact settled.closed index child holds ⟨expr, found, member⟩
    have folding := (settling due explained patterns).mapChildrenM_recasts
      (foldWithin_settles depth) nofun below
    refine Ensures.bind ((folding state settled).mono ?_)
    rintro folded between ⟨settledBetween, recast, belowFolded⟩
    have simplifying : (settling due explained patterns).holds (simplify index folded)
        (·.Due due) :=
      simplify_settles literals holds belowFolded
    dsimp only
    split
    · refine Ensures.bind
        (Ensures.get (Ensures.bind (Ensures.lift fun arena changed => Ensures.bind ?_)))
      intro _ after ran
      cases ran
      exact simplifying _ (setKind_settles settledBetween holds
        (recasts index _ folded promised recast) belowFolded changed)
    · exact simplifying between settledBetween

theorem fold_settles {ref : ExprRef} (dueHere : ref.Due due) :
    (settling due explained patterns).holds (fold ref) (·.Due due) :=
  fun state settled =>
    Ensures.bind (Ensures.get (foldWithin_settles literals recasts _ ref dueHere state settled))

end FoldM

/-- A pattern is prepared the same whatever the arm runs. -/
theorem GroupArm.Prepared.recast {entry : GroupArm} {patterns : Array Pattern} {subject : TypeRef}
    {old new : MatchArm} (prepared : entry.Prepared patterns subject old)
    (same : new.pattern = old.pattern ∧ new.span = old.span) :
    entry.Prepared patterns subject new := by
  have preparing : BodyM.prepareArm new subject = BodyM.prepareArm old subject := by
    unfold BodyM.prepareArm
    rw [same.1]
  obtain ⟨span, before, after, stored, ran⟩ := prepared
  exact ⟨span.trans same.2.symm, before, after, stored, preparing ▸ ran⟩

theorem MatchGroup.PreparedFrom.recast {group : MatchGroup} {patterns : Array Pattern}
    {arms changed : List MatchArm} (prepared : group.PreparedFrom patterns arms)
    (same : List.Forall₂ (fun old new : MatchArm => new.pattern = old.pattern ∧ new.span = old.span)
      arms changed) :
    group.PreparedFrom patterns changed := by
  unfold MatchGroup.PreparedFrom at prepared ⊢
  generalize group.arms = entries at prepared ⊢
  induction prepared generalizing changed with
  | nil =>
    cases same
    exact .nil
  | cons first _ ih =>
    cases same with
    | cons facts others => exact .cons (first.recast facts) (ih others)

namespace CompilationUnit

/-- What is recorded about a node besides its type: what an identifier refers to, and the group and
the code of a match, with an entry and a label for each arm. -/
structure Explained (resolutions : IdMap Resolution) (groups : IdMap MatchGroup)
    (codes : IdMap LoweredMatch) (patterns : Array Pattern) (index : Nat) (kind : ExprKind) :
    Prop where
  resolution : ∀ name, kind = .ident name → (resolutions.get? index).isSome
  code : ∀ scrutinee arms, kind = .matchOn scrutinee arms → ∃ group code,
    groups.get? index = some group ∧ codes.get? index = some code ∧
      group.PreparedFrom patterns arms ∧ group.Labels code

section
variable {resolutions : IdMap Resolution} {groups : IdMap MatchGroup} {codes : IdMap LoweredMatch}
  {patterns : Array Pattern}

theorem Explained.recast (index : Nat) (kind folded : ExprKind)
    (explained : Explained resolutions groups codes patterns index kind)
    (recasts : kind.Recasts folded) :
    Explained resolutions groups codes patterns index folded := by
  refine ⟨fun name same => explained.resolution name (recasts.ident name same),
    fun scrutinee arms same => ?_⟩
  obtain ⟨subject, before, read, related⟩ := recasts.arms scrutinee arms same
  obtain ⟨group, code, grouped, coded, prepared, labels⟩ := explained.code subject before read
  exact ⟨group, code, grouped, coded, prepared.recast related, labels⟩

theorem explained_literal (index : Nat) (value : Literal) :
    Explained resolutions groups codes patterns index (.literal value) := ⟨nofun, nofun⟩

end

/-- Everything is recorded that is due: the nodes below the bodies are, and each is explained. -/
structure Settled (unit : CompilationUnit) (due : Nat → Prop) : Prop where
  nodes : FoldState.Settled due
    (Explained unit.resolutions unit.matchGroups unit.lowered unit.arena.patterns)
    unit.arena.patterns { arena := unit.arena, types := unit.exprTypes }
  bodies : ∀ (id : Nat) (member : Member) (body : ExprRef),
    unit.members.members[id]? = some member → member.body = some body → body.Due due

/-- A member with a body that is due takes the place of another one. -/
theorem Settled.set {unit : CompilationUnit} {due : Nat → Prop}
    (settled : unit.Settled due) {id : Nat} {member : Member}
    (dueHere : ∀ body, member.body = some body → body.Due due) :
    { unit with members := unit.members.set id member }.Settled due where
  nodes := settled.nodes
  bodies other entry body found written := by
    change (unit.members.members.setIfInBounds id member)[other]? = some entry at found
    rw [Array.getElem?_setIfInBounds] at found
    split at found
    · split at found
      · cases found
        exact dueHere body written
      · cases found
    · exact settled.bodies other entry body found written

end CompilationUnit

namespace StageM

variable {due : Nat → Prop}

/-- What the last stage keeps. -/
abbrev settling (due : Nat → Prop) : Promise StageM := Keeping fun work => work.unit.Settled due

theorem foldConstants_settles (id : Nat) : (settling due).holds
    (foldConstants id) fun _ => True := by
  refine foldConstants_keeps (·.Settled due)
    fun unit member body root final settled found written ran => ?_
  obtain ⟨nodes, dueRoot⟩ := FoldM.fold_settles explained_literal Explained.recast
    (settled.bodies id member body found written) _ settled.nodes root final ran
  have replaced : { unit with arena := final.arena, exprTypes := final.types }.Settled due := by
    refine ⟨?_, settled.bodies⟩
    rw [nodes.patterns]
    exact nodes
  refine ⟨replaced, replaced.set fun other later => ?_⟩
  rw [Member.setBody_body written] at later
  cases later
  exact dueRoot

theorem runMember_settles (id : Nat) : (settling due).holds
    (runMember .foldConstants id) fun _ => True :=
  runMember_keeps (·.Settled due) (foldConstants_settles id) fun _ member settled found =>
    settled.set fun body written => settled.bodies id member body found written

end StageM
end ClassLang
