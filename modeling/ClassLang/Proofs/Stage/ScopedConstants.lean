import ClassLang.Proofs.Stage.Folding
import ClassLang.Proofs.Stage.Scope

/-! Folding constants keeps types in their scopes: a constant takes the place of an operation only,
and types of operations have no variables. -/

namespace ClassLang

/-- The class that a declaration stands in, and the parameters it declares. -/
def Member.heading (member : Member) : Option Nat × List GenericParam :=
  (member.owner, member.typeParams)

@[simp] theorem Member.setBody_heading {member : Member} {body : ExprRef} :
    (member.setBody body).heading = member.heading := by
  cases detail : member.detail <;> simp [Member.setBody, Member.heading, Member.typeParams, detail]

/-- Nodes that are closed under children hold all that is below one of them. -/
theorem Arena.Contains.mem {arena : Arena} {nodes : List Nat} {start index : Nat}
    (below : arena.Contains (.node start) index) (member : start ∈ nodes)
    (closed : ∀ parent ∈ nodes, ∀ expr ∈ arena.exprs[parent]?, ∀ child ∈ expr.kind.children,
      ∃ node ∈ nodes, child = .node node) : index ∈ nodes := by
  obtain ⟨root, same, path⟩ := below
  cases same
  induction path with
  | refl => exact member
  | tail _ step ih =>
    obtain ⟨expr, read, child⟩ := step
    obtain ⟨node, listed, same⟩ := closed _ ih expr read _ child
    cases same
    exact listed

namespace CompilationUnit

/-- The node is below the body of the member. -/
def HasInBody (unit : CompilationUnit) (id index : Nat) : Prop :=
  ∃ member body, unit.members.members[id]? = some member ∧ member.body = some body ∧
    unit.arena.Contains body index

/-- The node may be below the body of the member while constants are folded: it was before, or it is
new. -/
def Below (unit : CompilationUnit) (id index : Nat) : Prop :=
  unit.arena.size ≤ index ∨ unit.HasInBody id index

theorem Below.child {unit : CompilationUnit} {id parent child : Nat} (below : unit.Below id parent)
    (step : unit.arena.HasChild parent child) : unit.Below id child := by
  rcases below with outside | ⟨member, body, found, written, start, same, path⟩
  · obtain ⟨expr, read, _⟩ := step
    exact absurd (Array.getElem?_eq_some_iff.mp read).1 (Nat.not_lt.mpr outside)
  · exact .inr ⟨member, body, found, written, start, same, path.tail step⟩

end CompilationUnit

/-- Operations stand where there were operations, nothing comes below a body that was not there, and
types are those that may be recorded or have no variables. -/
structure FoldState.Scoped (state : FoldState) (scoping : Scoping)
    (declared : CompilationUnit) : Prop where
  size : declared.arena.size ≤ state.arena.size
  operations : ∀ (index : Nat) (original expr : Expr),
    declared.arena.exprs[index]? = some original → state.arena.exprs[index]? = some expr →
    expr.kind.isOperation = original.kind.isOperation
  closed : ∀ id parent child, declared.Below id parent → state.arena.HasChild parent child →
    declared.Below id child
  recorded : ∀ index type, state.types.get? index = some type →
    declared.MayRecord scoping index type ∨ scoping.Over (fun _ => False) type

/-- The second slot may stand where the first did. -/
def CompilationUnit.Follows (declared : CompilationUnit) (first second : ExprRef) : Prop :=
  ∀ id, first.Due (declared.Below id) → second.Due (declared.Below id)

namespace FoldM
variable {scoping : Scoping} {declared : CompilationUnit}

/-- What folding keeps. -/
abbrev ranging (scoping : Scoping) (declared : CompilationUnit) : Promise FoldM :=
  Keeping (·.Scoped scoping declared)

/-- The type of an operation has no variables, so that a constant may have it. -/
theorem replaceBy_scoped {index : Nat} (value : Literal)
    (operation : ∀ original, declared.arena.exprs[index]? = some original →
      original.kind.isOperation = true) :
    (ranging scoping declared).holds (replaceBy index value) (declared.Follows (.node index)) := by
  intro state kept
  refine Ensures.bind (Ensures.get (Ensures.bind (Ensures.lift fun span _ => ?_)))
  intro _ final ran
  cases ran
  refine ⟨⟨?_, fun place original expr there found => ?_,
    fun id parent child below ⟨expr, found, member⟩ => ?_,
    fun place type found => ?_⟩, fun id _ place same => ?_⟩
  · exact Nat.le_trans kept.size (by simp [Arena.size])
  · rcases lookup_push found with before | ⟨rfl, _⟩
    · exact kept.operations place original expr there before
    · exact absurd (Nat.lt_of_lt_of_le (Array.getElem?_eq_some_iff.mp there).1 kept.size)
        (Nat.lt_irrefl _)
  · rcases lookup_push found with before | ⟨_, rfl⟩
    · exact kept.closed id parent child below ⟨expr, before, member⟩
    · cases member
  · dsimp only at found
    split at found
    · rename_i own stored
      rw [IdMap.get?_insert] at found
      split at found
      · cases found
        refine .inr ((kept.recorded index type stored).elim (fun recorded => ?_) fun plain => plain)
        obtain ⟨original, there, plain⟩ := recorded.operation
        exact plain (operation original there)
      · exact kept.recorded place type found
    · exact kept.recorded place type found
  · cases same
    exact .inl kept.size

theorem simplify_scoped {index : Nat} {kind : ExprKind}
    (same : ∀ original, declared.arena.exprs[index]? = some original →
      original.kind.isOperation = kind.isOperation)
    (below : ∀ ref ∈ kind.children, declared.Follows (.node index) ref) :
    (ranging scoping declared).holds (simplify index kind) (declared.Follows (.node index)) := by
  have asking {α : Type} (answer : Except Abort α) :
      (ranging scoping declared).holds (liftM answer : FoldM α) fun _ => True :=
    fun _ kept => Ensures.lift fun _ _ => ⟨kept, trivial⟩
  have itself : (ranging scoping declared).holds (Pure.pure (ExprRef.node index))
      (declared.Follows (.node index)) :=
    (ranging scoping declared).pure fun _ due => due
  have replaced (value : Literal) (operation : kind.isOperation = true) :
      (ranging scoping declared).holds (replaceBy index value) (declared.Follows (.node index)) :=
    replaceBy_scoped value fun original there => (same original there).trans operation
  refine (ranging scoping declared).andThen (fun _ kept => Ensures.get ⟨kept, trivial⟩)
    fun state => ?_
  cases kind with
  | ifElse cond thenBranch elseBranch =>
    have slot : ∀ ref ∈ [cond, thenBranch, elseBranch], declared.Follows (.node index) ref := by
      intro ref member
      cases ref with
      | missing => exact fun _ _ => nofun
      | node other => exact below _ (List.mem_filter.mpr ⟨member, rfl⟩)
    refine (ranging scoping declared).andThen (asking _) fun value => ?_
    split
    · exact (ranging scoping declared).pure (slot thenBranch (by simp))
    · split
      · exact (ranging scoping declared).pure (slot elseBranch (by simp))
      · exact itself
    · exact itself
  | binary op left right =>
    refine (ranging scoping declared).andThen (asking _) fun first => ?_
    split
    · refine (ranging scoping declared).andThen (asking _) fun second => ?_
      split
      · split
        · exact replaced _ rfl
        · exact itself
      · exact itself
    · exact itself
  | unary op operand =>
    refine (ranging scoping declared).andThen (asking _) fun value => ?_
    split
    · split
      · exact replaced _ rfl
      · exact itself
    · exact itself
  | _ => exact itself

/-- A node gets other slots. -/
theorem setKind_scoped {state : FoldState} {arena : Arena} {index : Nat} {kind : ExprKind}
    (kept : state.Scoped scoping declared)
    (same : ∀ original, declared.arena.exprs[index]? = some original →
      original.kind.isOperation = kind.isOperation)
    (below : ∀ ref ∈ kind.children, declared.Follows (.node index) ref)
    (changed : state.arena.setKind (.node index) kind = .ok arena) :
    FoldState.Scoped { state with arena } scoping declared := by
  obtain ⟨_, _, size, _, replaced⟩ := Arena.lookup_of_setKind changed
  refine ⟨size.symm ▸ kept.size, fun other original expr there read => ?_,
    fun id parent child due ⟨expr, read, member⟩ => ?_, kept.recorded⟩
  · rcases replaced other expr read with ⟨rfl, rfl⟩ | old
    · exact (same original there).symm
    · exact kept.operations other original expr there old
  · rcases replaced parent expr read with ⟨rfl, rfl⟩ | old
    · refine below _ member id (fun place same => ?_) child rfl
      cases same
      exact due
    · exact kept.closed id parent child due ⟨expr, old, member⟩

theorem foldWithin_scoped : ∀ (depth : Nat) (ref : ExprRef),
    (ranging scoping declared).holds (foldWithin depth ref) (declared.Follows ref)
  | 0, .missing | _ + 1, .missing => (ranging scoping declared).pure fun _ due => due
  | 0, .node _ => fun _ _ _ _ ran => nomatch ran
  | depth + 1, .node index => by
    intro state kept
    refine Ensures.bind (Ensures.get (Ensures.bind (Ensures.lift fun kind asked => ?_)))
    obtain ⟨expr, found, rfl⟩ := Arena.lookup_of_map asked
    have each (ref : ExprRef) (due : declared.Follows (.node index) ref) :
        (ranging scoping declared).holds (foldWithin depth ref) (declared.Follows (.node index)) :=
      (ranging scoping declared).mono (foldWithin_scoped depth ref) fun _ later id isDue =>
        later id (due id isDue)
    have before : ∀ ref ∈ expr.kind.children, declared.Follows (.node index) ref := by
      rintro ref member id isDue child rfl
      exact kept.closed id index child (isDue index rfl) ⟨expr, found, member⟩
    have folding := (ranging scoping declared).mapChildrenM_recasts each (fun _ _ => nofun) before
    refine Ensures.bind ((folding state kept).mono ?_)
    rintro folded between ⟨keptBetween, recast, below⟩
    have same (original : Expr) (there : declared.arena.exprs[index]? = some original) :
        original.kind.isOperation = folded.isOperation :=
      (kept.operations index original expr there found).symm.trans recast.operation.symm
    dsimp only
    split
    · refine Ensures.bind
        (Ensures.get (Ensures.bind (Ensures.lift fun arena changed => Ensures.bind ?_)))
      intro _ after ran
      cases ran
      exact simplify_scoped same below _ (setKind_scoped keptBetween same below changed)
    · exact simplify_scoped same below between keptBetween

theorem fold_scoped (ref : ExprRef) : (ranging scoping declared).holds (fold ref)
    (declared.Follows ref) :=
  fun state kept => Ensures.bind (Ensures.get (foldWithin_scoped _ ref state kept))

end FoldM

namespace CompilationUnit

/-- The unit has the declarations of the declared one, and below its bodies what was there or is
new, with types as they may be while constants are folded. -/
structure Retains (unit : CompilationUnit) (scoping : Scoping)
    (declared : CompilationUnit) : Prop where
  headings : unit.members.members.map Member.heading = declared.members.members.map Member.heading
  bodies : ∀ (id : Nat) (member : Member) (body : ExprRef),
    unit.members.members[id]? = some member → member.body = some body → body.Due (declared.Below id)
  nodes : FoldState.Scoped { arena := unit.arena, types := unit.exprTypes } scoping declared

namespace Retains
variable {unit declared : CompilationUnit} {scoping : Scoping} {id : Nat}

/-- Before constants are folded. -/
theorem ofScoped (scoped_ : unit.Scoped scoping declared) : unit.Retains scoping declared := by
  have heading (member : Member) : member.heading = member.written.heading := by
    cases detail : member.detail <;>
      simp [Member.heading, Member.written, Member.typeParams, detail]
  constructor
  case headings =>
    have same := congrArg (·.map Member.heading) scoped_.written
    simp only [Array.map_map, Function.comp_def, ← heading] at same
    exact same
  case bodies =>
    intro id member body found written index same
    obtain ⟨original, there, equal⟩ := scoped_.exists_original found
    exact .inr ⟨original, body, there, (Member.body_of_written equal).symm.trans written, index,
      same, .refl⟩
  case nodes =>
    rw [scoped_.arena]
    refine ⟨Nat.le_refl _, fun index original expr there found => ?_, fun _ _ _ => .child,
      fun index type found => .inl (scoped_.recorded index type found)⟩
    cases there.symm.trans found
    rfl

/-- A member takes the place of one with its heading. -/
theorem set {member later : Member} (retains : unit.Retains scoping declared)
    (found : unit.members.members[id]? = some member) (same : later.heading = member.heading)
    (due : ∀ body, later.body = some body → body.Due (declared.Below id)) :
    { unit with members := unit.members.set id later }.Retains scoping declared := by
  constructor
  case headings =>
    refine Eq.trans (Array.ext_getElem? fun place => ?_) retains.headings
    simp only [MemberArena.set, Array.getElem?_map, Array.getElem?_setIfInBounds]
    split
    · subst place
      rw [found, if_pos (Array.getElem?_eq_some_iff.mp found).1, Option.map_some,
        Option.map_some, same]
    · rfl
  case bodies =>
    intro place other body present written
    rw [MemberArena.lookup_set found] at present
    split at present
    · subst place
      cases present
      exact due body written
    · exact retains.bodies place other body present written
  case nodes => exact retains.nodes

theorem exists_later {original : Member} (retains : unit.Retains scoping declared)
    (found : declared.members.members[id]? = some original) :
    ∃ member, unit.members.members[id]? = some member ∧ original.heading = member.heading := by
  have read := congrArg (·[id]?) retains.headings
  simp only [Array.getElem?_map, found, Option.map_some] at read
  obtain ⟨member, present, same⟩ := Option.map_eq_some_iff.mp read
  exact ⟨member, present, same.symm⟩

/-- The scopes are those of the declared unit. -/
theorem inScope_eq {original member : Member} (retains : unit.Retains scoping declared)
    (same : original.heading = member.heading) :
    unit.inScope member = declared.inScope original := by
  have outer (owner : Nat) : (unit.members.members[owner]?).map (·.typeParams) =
      (declared.members.members[owner]?).map (·.typeParams) := by
    have read := congrArg (·[owner]?) retains.headings
    simp only [Array.getElem?_map] at read
    have params := congrArg (Option.map Prod.snd) read
    rwa [Option.map_map, Option.map_map] at params
  have owner : member.owner = original.owner := (congrArg Prod.fst same).symm
  have own : member.typeParams = original.typeParams := (congrArg Prod.snd same).symm
  unfold inScope scopeOf outerParams
  rw [owner, own]
  cases original.owner with
  | none => rfl
  | some owner => simp only [Option.bind_some, outer]

/-- So it is while members are replaced by members that follow them. -/
theorem evolve {later : CompilationUnit} (retains : unit.Retains scoping declared)
    (evolved : unit.Evolves later) (types : later.exprTypes = unit.exprTypes) :
    later.Retains scoping declared := by
  have sizes : later.members.members.size = unit.members.members.size := evolved.size
  have before {place : Nat} {member : Member}
      (found : later.members.members[place]? = some member) :
      ∃ original, unit.members.members[place]? = some original ∧ original.Follows member := by
    have inside : place < unit.members.members.size :=
      sizes ▸ (Array.getElem?_eq_some_iff.mp found).1
    obtain ⟨replaced, present, follows⟩ :=
      evolved.members place _ (Array.getElem?_eq_getElem inside)
    cases found.symm.trans present
    exact ⟨_, Array.getElem?_eq_getElem inside, follows⟩
  constructor
  case headings =>
    refine Eq.trans (Array.ext_getElem? fun place => ?_) retains.headings
    rw [Array.getElem?_map, Array.getElem?_map]
    cases found : later.members.members[place]? with
    | none =>
      have outside : unit.members.members.size ≤ place :=
        sizes ▸ Array.getElem?_eq_none_iff.mp found
      rw [Array.getElem?_eq_none outside]
    | some member =>
      obtain ⟨original, there, follows⟩ := before found
      rw [there, Option.map_some, Option.map_some, Member.heading, Member.heading, follows.owner,
        follows.typeParams]
  case bodies =>
    intro place member body found written
    obtain ⟨original, there, follows⟩ := before found
    exact retains.bodies place original body there (follows.body ▸ written)
  case nodes =>
    rw [evolved.arena, types]
    exact retains.nodes

/-- What is below a body now was there or is new. -/
theorem below (retains : unit.Retains scoping declared) {index : Nat}
    (has : unit.HasInBody id index) :
    declared.Below id index := by
  obtain ⟨member, body, found, written, start, rfl, path⟩ := has
  induction path with
  | refl => exact retains.bodies id member _ found written start rfl
  | tail _ step ih => exact retains.nodes.closed id _ _ ih step

end Retains
end CompilationUnit

namespace StageM
variable {scoping : Scoping} {declared : CompilationUnit}

/-- What the last stage keeps. -/
abbrev retaining (scoping : Scoping) (declared : CompilationUnit) : Promise StageM :=
  Keeping fun work => work.unit.Retains scoping declared

theorem foldConstants_retains (id : Nat) : (retaining scoping declared).holds
    (foldConstants id) fun _ => True := by
  refine foldConstants_keeps (·.Retains scoping declared)
    fun unit member body root final retains found written ran => ?_
  obtain ⟨nodes, follows⟩ := FoldM.fold_scoped body _ retains.nodes root final ran
  have kept : { unit with arena := final.arena, exprTypes := final.types }.Retains
    scoping declared :=
    ⟨retains.headings, retains.bodies, nodes⟩
  refine ⟨kept, kept.set found Member.setBody_heading fun other later => ?_⟩
  rw [Member.setBody_body written] at later
  cases later
  exact follows id (retains.bodies id member body found written)

/-- The last stage on a member. -/
theorem runMember_retains (id : Nat) : (retaining scoping declared).holds
    (runMember .foldConstants id) fun _ => True :=
  runMember_keeps (·.Retains scoping declared) (foldConstants_retains id)
    fun _ member retains found => retains.set found rfl fun body written =>
      retains.bodies id member body found written

end StageM
end ClassLang
