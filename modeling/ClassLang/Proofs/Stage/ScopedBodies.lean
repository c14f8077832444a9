import ClassLang.Proofs.Stage.ConfinedBodies
import ClassLang.Proofs.Stage.ScopedExpressions

/-! The second stage records types over the scope of the member for the nodes of its body, and types
without variables for operations. -/

namespace ClassLang
open StageM

/-- An expression in the slot is in the tree of the root. -/
def Arena.Under (arena : Arena) (root ref : ExprRef) : Prop :=
  ∀ index, ref = .node index → arena.Contains root index

theorem Arena.Under.child {arena : Arena} {root child : ExprRef} {index : Nat} {expr : Expr}
    (below : arena.Contains root index) (found : arena.exprs[index]? = some expr)
    (listed : child ∈ expr.kind.children) : arena.Under root child := by
  rintro inner rfl
  obtain ⟨start, rfl, path⟩ := below
  exact ⟨start, rfl, path.tail ⟨expr, found, listed⟩⟩

namespace BodyM

variable {judgement : Judgement} {declared : CompilationUnit} {id floor : Nat} {original : Member}
  {given : Prop} {α β : Type}

/-- The patterns that arms leave from the position on are typed against subjects of the scope. -/
abbrev Arms (judgement : Judgement) (declared : CompilationUnit) (original : Member) (floor : Nat) :
    PatternStore → Prop :=
  fun store => store.Layered judgement.toScoping (declared.inScope original) floor

theorem reportUnknownClasses_scoped {patterned : PatternStore → Prop} (pattern : Nat) :
    Pledges judgement declared patterned given (reportUnknownClasses pattern) :=
  .get fun _ => .andThen .ask fun _ => .andThen .reportAll fun _ => .pure fun _ => trivial

/-- The pool that typing an arm leaves takes the place of the one it was given. -/
theorem typeArm_scoped {pattern : Nat} {subject : TypeRef} (beyond : given → floor ≤ pattern)
    (ranges : given → judgement.Over (declared.inScope original) subject) :
    Pledges judgement declared (Arms judgement declared original floor) given
      (typeArm pattern subject)
      fun answer => ∀ typed, answer = some typed → floor ≤ typed := by
  intro start result final ran shown
  unfold typeArm at ran
  rw [StateT.run_bind] at ran
  obtain ⟨⟨work, _⟩, read, ran⟩ := Except.bind_eq_ok ran
  cases read
  rw [StateT.run_bind] at ran
  obtain ⟨⟨⟨outcome, patterns, pool⟩, _⟩, typed, ran⟩ := Except.bind_eq_ok ran
  obtain ⟨answered, rfl⟩ := lift_eq_ok typed
  rw [StateT.run_bind] at ran
  obtain ⟨⟨_, between⟩, changed, ran⟩ := Except.bind_eq_ok ran
  cases changed
  have rest : Pledges judgement declared (Arms judgement declared original floor)
      (∀ typed, outcome = .ok typed → floor ≤ typed) (typedArm pool outcome)
      fun answer => ∀ typed, answer = some typed → floor ≤ typed := by
    cases outcome with
    | ok typed => exact .pure fun bound _ same => bound _ (by cases same; rfl)
    | error fault => exact .andThen .told fun _ => .andThen .report fun _ => .none
  obtain ⟨back, facts⟩ := rest _ result final ran shown
  obtain ⟨before, holds⟩ := PatternStore.runTyping_scoped answered back.1
  refine ⟨⟨before, back.2⟩, fun given scoped_ => ?_⟩
  obtain ⟨params, layered, all⟩ :=
    holds scoped_.program.publishes.describes (beyond given) (ranges given)
    scoped_.patterns
  exact facts all ⟨scoped_.program.repool params, { scoped_.unit with }, layered⟩

theorem prepareArm_scoped (arm : MatchArm) {subject : TypeRef}
    (ranges : given → judgement.Over (declared.inScope original) subject) :
    Pledges judgement declared (Arms judgement declared original floor) given
      (prepareArm arm subject)
      fun answer => ∀ typed, answer = some typed → floor ≤ typed := by
  apply Pledges.get
  intro work
  have copied : Pledges judgement declared (Arms judgement declared original floor) (given ∧
      work.pool.Prefix judgement.pool ∧
      work.Scoped judgement declared (Arms judgement declared original floor))
      (liftM ((PatternStore.importFrom work.unit.arena arm.pattern).run work.unit.patterns))
      fun copy => Arms judgement declared original floor copy.2 ∧ floor ≤ copy.1 :=
    .lift fun _ answered both =>
      PatternStore.importWithin_layered work.unit.arena _ _ work.unit.patterns both.2.2.patterns
        _ _ answered
  apply Pledges.bind copied
  rintro ⟨raw, patterns⟩
  refine Pledges.andThen (.modify (fun _ => rfl) (fun _ => rfl) fun _ facts scoped_ =>
    ⟨scoped_.program, { scoped_.unit with }, facts.2.1⟩) fun _ => ?_
  apply Pledges.andThen (reportUnknownClasses_scoped raw)
  intro unknown
  split
  · exact .none
  · exact typeArm_scoped (fun facts => facts.2.2) fun facts => ranges facts.1.1

/-! Expressions, which may add locals. -/

/-- Locals have types over the scope of the member. -/
abbrev judged (judgement : Judgement) (declared : CompilationUnit) (original : Member)
    (floor : Nat) :
    Pledge BodyM :=
  (StageM.judged judgement declared (Arms judgement declared original floor)).underState
    fun locals => ∀ entry ∈ locals, judgement.Over (declared.inScope original) entry.2

/-- What the action returns is as promised, if the locals are over the scope. -/
def Pledges (judgement : Judgement) (declared : CompilationUnit) (original : Member) (floor : Nat)
    (given : Prop) (action : BodyM α) (post : α → Prop := fun _ => True) : Prop :=
  (judged judgement declared original floor).holds given action post

namespace Pledges
variable {post : β → Prop}

theorem pure {result : β} (holds : given → post result) :
    Pledges judgement declared original floor given (Pure.pure result) post :=
  (judged judgement declared original floor).pure holds

theorem bind {first : BodyM α} {next : α → BodyM β} {middle : α → Prop}
    (done : Pledges judgement declared original floor given first middle)
    (rest : ∀ result, Pledges judgement declared original floor (given ∧ middle result)
      (next result) post) :
    Pledges judgement declared original floor given (first >>= next) post :=
  (judged judgement declared original floor).bind done rest

theorem andThen {first : BodyM α} {next : α → BodyM β}
    (done : Pledges judgement declared original floor given first)
    (rest : ∀ result, Pledges judgement declared original floor given (next result) post) :
    Pledges judgement declared original floor given (first >>= next) post :=
  (judged judgement declared original floor).andThen done rest

theorem assume {action : BodyM β} {other : Prop} (weaken : other → given)
    (done : Pledges judgement declared original floor given action post) :
    Pledges judgement declared original floor other action post :=
  (judged judgement declared original floor).assume weaken done

theorem mono {action : BodyM β} {strong : β → Prop}
    (done : Pledges judgement declared original floor given action strong)
    (weaken : ∀ result, given → strong result → post result) :
    Pledges judgement declared original floor given action post :=
  (judged judgement declared original floor).mono done weaken

theorem fails {fault : Abort} : Pledges judgement declared original floor given
    (throw fault : BodyM β) post :=
  fun _ _ _ _ ran => nomatch ran

theorem lift {action : StageM β}
    (done : StageM.Pledges judgement declared (Arms judgement declared original floor) given
      action post) :
    Pledges judgement declared original floor given (liftM action) post := by
  intro locals
  change StageM.Pledges judgement declared _ _
    (action >>= fun result => Pure.pure (result, locals)) _
  exact .bind (done.assume And.left) fun _ => .pure fun facts => ⟨facts.1.2, facts.2⟩

theorem get : Pledges judgement declared original floor given (MonadState.get : BodyM Locals)
    fun locals => ∀ entry ∈ locals, judgement.Over (declared.inScope original) entry.2 :=
  fun _ => StageM.Pledges.pure fun facts => ⟨facts.2, facts.2⟩

/-- Locals are removed. -/
theorem truncate {mark : Nat} :
    Pledges judgement declared original floor given
      (modifyThe Locals (·.truncate mark) : BodyM PUnit) :=
  fun _ => StageM.Pledges.pure fun facts =>
    ⟨fun entry member => facts.2 entry (List.mem_of_mem_drop member), trivial⟩

/-- Locals are added. -/
theorem extend {added : Locals}
    (ranges : given → ∀ entry ∈ added, judgement.Over (declared.inScope original) entry.2) :
    Pledges judgement declared original floor given (modifyThe Locals (added ++ ·) : BodyM PUnit) :=
  fun _ => StageM.Pledges.pure fun facts => ⟨fun entry member =>
    (List.mem_append.mp member).elim (ranges facts.1 entry) (facts.2 entry), trivial⟩

end Pledges

theorem withScope_scoped {action : BodyM β} {post : β → Prop}
    (done : Pledges judgement declared original floor given action post) :
    Pledges judgement declared original floor given (withScope action) post := by
  refine .bind .get fun _ => ?_
  refine .bind (done.assume And.left) fun _ => ?_
  refine .andThen .truncate fun _ => ?_
  exact .pure And.right

section
variable {site : BodySite} {resolve : ExprRef → BodyM TypeRef} {basis : Prop} {body : ExprRef}
  (below : ∀ {given : Prop} (ref : ExprRef), (given → basis) →
    (given → declared.arena.Under body ref) → Pledges judgement declared original floor given
      (resolve ref) (judgement.Over (declared.inScope original)))
include below

theorem armType_scoped {arm : MatchArm} {bound : Locals} {result : Option TypeRef} {given : Prop}
    (based : given → basis) (inside : given → declared.arena.Under body arm.body)
    (boundOver : given → ∀ entry ∈ bound, judgement.Over (declared.inScope original) entry.2)
    (ranges : given → ∀ type ∈ result, judgement.Over (declared.inScope original) type) :
    Pledges judgement declared original floor given (armType resolve arm bound result)
      (judgement.Over (declared.inScope original)) := by
  apply Pledges.bind (withScope_scoped (.andThen
    (.extend fun holds entry member => boundOver holds entry (List.mem_reverse.mp member)) fun _ =>
      below arm.body based inside))
  intro type
  cases result with
  | none => exact .pure And.right
  | some previous => exact .lift (join_scoped (fun holds => ranges holds.1 previous rfl) And.right)

theorem arms_scoped {subject : TypeRef} :
    ∀ {branches : List MatchArm} {result : Option TypeRef} {given : Prop},
    (given → basis) → (given → judgement.Over (declared.inScope original) subject) →
      (given → ∀ arm ∈ branches, declared.arena.Under body arm.body) →
      (given → ∀ type ∈ result, judgement.Over (declared.inScope original) type) →
        Pledges judgement declared original floor given (arms resolve subject branches result)
          fun answer => ∀ type ∈ answer.2, judgement.Over (declared.inScope original) type
  | [], _, _, _, _, _, ranges => .pure ranges
  | arm :: rest, result, given, based, subjectOver, inside, ranges => by
    apply Pledges.bind (.lift (prepareArm_scoped arm subjectOver))
    intro pattern
    have others (bound : Locals) {given' : Prop} (all : given' → given)
        (boundOver : given' → ∀ entry ∈ bound, judgement.Over (declared.inScope original) entry.2) :
        Pledges judgement declared original floor given'
          (armType resolve arm bound result >>= fun joined =>
            arms resolve subject rest (some joined) >>= fun later =>
              pure (({ pattern, span := arm.span } : GroupArm) :: later.1, later.2))
          fun answer => ∀ type ∈ answer.2, judgement.Over (declared.inScope original) type := by
      refine .bind (armType_scoped below (fun holds => based (all holds))
        (fun holds => inside (all holds) arm List.mem_cons_self) boundOver fun holds =>
          ranges (all holds))
        fun joined => ?_
      refine .bind
        (arms_scoped (fun holds => based (all holds.1)) (fun holds => subjectOver (all holds.1))
        (fun holds other member => inside (all holds.1) other (List.mem_cons_of_mem _ member)) ?_)
        fun _ => .pure And.right
      rintro holds _ ⟨⟩
      exact holds.2
    cases pattern with
    | none => exact others [] And.left fun _ => by simp
    | some typed =>
      have read : StageM.Pledges judgement declared (Arms judgement declared original floor)
          (given ∧ ∀ id, some typed = some id → floor ≤ id)
          (inspect (·.unit.patterns.bindings typed))
          fun bound => ∀ entry ∈ bound, judgement.Over (declared.inScope original) entry.2 :=
        .inspect fun _ _ asked facts =>
          facts.2.2.patterns.bindingsWithin asked (facts.1.2 typed rfl)
      exact .bind (.lift read) fun bound => others bound (fun both => both.1.1) And.right

theorem items_scoped : ∀ {list : List ExprRef} {type : TypeRef} {given : Prop}, (given → basis) →
    (given → ∀ item ∈ list, declared.arena.Under body item) →
      (given → judgement.Over (declared.inScope original) type) →
        Pledges judgement declared original floor given (items resolve list type)
          (judgement.Over (declared.inScope original))
  | [], _, _, _, _, ranges => .pure ranges
  | item :: _, _, _, based, inside, _ =>
    .bind (below item based fun holds => inside holds item List.mem_cons_self) fun _ =>
      items_scoped (fun facts => based facts.1)
        (fun facts other member => inside facts.1 other (List.mem_cons_of_mem _ member)) And.right

omit below in
/-- A branch that is there is a child. -/
theorem branch_below {given : Prop} {cond thenBranch elseBranch ref : ExprRef}
    (inside : given → ∀ child ∈ (ExprKind.ifElse cond thenBranch elseBranch).children,
      declared.arena.Under body child)
    (listed : ref ∈ [cond, thenBranch, elseBranch]) (holds : given) :
    declared.arena.Under body ref := by
  rintro index rfl
  exact inside holds _ (List.mem_filter.mpr ⟨listed, rfl⟩) index rfl

theorem ifElse_scoped {index : Nat} {cond thenBranch elseBranch : ExprRef} {span : Span}
    (based : given → basis) (inside : given →
      ∀ child ∈ (ExprKind.ifElse cond thenBranch elseBranch).children,
        declared.arena.Under body child) :
    Pledges judgement declared original floor given
      (node site resolve index ⟨.ifElse cond thenBranch elseBranch, span⟩)
      (judgement.Over (declared.inScope original)) := by
  have branch {ref : ExprRef} (listed : ref ∈ [cond, thenBranch, elseBranch]) : given →
      declared.arena.Under body ref :=
    branch_below inside listed
  refine .bind (below cond based (branch (by simp))) fun condType => ?_
  refine .andThen (.lift .ask) fun condSpan => ?_
  refine .andThen (.lift (expect_scoped _ _ _)) fun _ => ?_
  refine .bind (below thenBranch (fun holding => based holding.1) fun holding =>
    branch (by simp) holding.1) fun thenType => ?_
  split
  · exact .pure fun _ => .primitive rfl
  · exact .bind (below elseBranch (fun both => based both.1.1) fun both =>
      branch (by simp) both.1.1) fun elseType =>
        .lift (join_scoped (fun facts => facts.1.2) And.right)

theorem matchOn_scoped {index : Nat} {scrutinee : ExprRef} {branches : List MatchArm} {span : Span}
    (based : given → basis)
    (inside : given → ∀ child ∈ (ExprKind.matchOn scrutinee branches).children,
      declared.arena.Under body child) :
    Pledges judgement declared original floor given
      (node site resolve index ⟨.matchOn scrutinee branches, span⟩)
      (judgement.Over (declared.inScope original)) := by
  refine .bind (below scrutinee based fun holds => inside holds scrutinee List.mem_cons_self)
    fun subject => ?_
  refine .bind (arms_scoped below (fun both => based both.1) And.right
    (fun both arm listed => inside both.1 arm.body
      (List.mem_cons_of_mem _ (List.mem_map_of_mem listed)))
    fun _ => by simp) fun typed => ?_
  refine .andThen (.lift (.modifyUnit (fun _ _ scoped_ => { scoped_ with }) fun _ => rfl)) fun _ =>
    .pure fun facts => ?_
  cases result : typed.2 with
  | none => exact .primitive rfl
  | some type => exact facts.2 type result

/-- A variable has the type that is written, and that of its first value where none is. -/
theorem letIn_scoped {index : Nat} {name : Name} {type : TypeExpr} {init : ExprRef} {span : Span}
    (based : given → basis) (fits : given → site.Fits judgement declared original)
    (inside : given → ∀ child ∈ (ExprKind.letIn name type init).children,
      declared.arena.Under body child)
    (used : given → ∀ use ∈ (ExprKind.letIn name type init).uses, judgement.Admits use.1 use.2) :
    Pledges judgement declared original floor given
      (node site resolve index ⟨.letIn name type init, span⟩)
      (judgement.Over (declared.inScope original)) := by
  have bound (declaredType : TypeRef) {given' : Prop}
      (ranges : given' → judgement.Over (declared.inScope original) declaredType) :
      Pledges judgement declared original floor given' (do
        modify ((name, declaredType) :: ·)
        return TypeRef.void) (judgement.Over (declared.inScope original)) :=
    .andThen (Pledges.extend (List.forall_mem_singleton.mpr <| ranges ·)) fun _ => .pure fun _ =>
      .primitive rfl
  refine .bind (below init based fun holds => inside holds init List.mem_cons_self)
    fun initType => ?_
  cases type with
  | infer => exact bound initType And.right
  | _ =>
    refine .bind
      (.lift (TypeSite.resolve_scoped site.toTypeSite _ (fun facts => (fits facts.1).names)
      fun facts => used facts.1)) fun declaredType => ?_
    refine .andThen (.lift .ask) fun _ => ?_
    refine .andThen (.lift (expect_scoped _ _ _)) fun _ => ?_
    exact bound declaredType And.right

variable {id : Nat} (inUnits : declared ∈ judgement.units)
    (found : declared.members.members[id]? = some original)
include inUnits found

theorem invocation_scoped {index : Nat} {receiver : Option ExprRef} {method : Name}
    {args : List ExprRef} {span : Span} (based : given → basis)
    (fits : given → site.Fits judgement declared original)
    (inside : given → ∀ child ∈ (ExprKind.call receiver method args).children,
      declared.arena.Under body child) :
    Pledges judgement declared original floor given
      (node site resolve index ⟨.call receiver method args, span⟩)
      (judgement.Over (declared.inScope original)) := by
  have called (receiver' : TypeRef) {given' : Prop} (all : given' → given)
      (ranges : given' → judgement.Over (declared.inScope original) receiver') :
      Pledges judgement declared original floor given' (do
        let args ← args.mapM resolve
        call site index receiver' method args span) (judgement.Over (declared.inScope original)) :=
    .bind ((judged judgement declared original floor).mapM fun arg listed =>
      below arg (fun holds => based (all holds)) fun holds =>
        inside (all holds) arg (List.mem_append_right _ listed)) fun args =>
      .lift (call_scoped inUnits found index method span (fun holds => ranges holds.1) fun holds =>
        holds.2.2)
  cases receiver with
  | none => exact called site.classType (fun promised => promised) fun promised =>
    (fits promised).classType
  | some receiver =>
    exact .bind (below receiver based fun promised => inside promised receiver List.mem_cons_self)
      fun type => called type And.left And.right

/-- The type of a node, if those of its children are as they should. -/
theorem node_scoped (index : Nat) (expr : Expr) (based : given → basis)
    (fits : given → site.Fits judgement declared original)
    (inside : given → ∀ child ∈ expr.kind.children, declared.arena.Under body child)
    (used : given → ∀ use ∈ expr.kind.uses, judgement.Admits use.1 use.2) :
    Pledges judgement declared original floor given (node site resolve index expr) fun type =>
      judgement.Over (declared.inScope original) type ∧
        (expr.kind.isOperation = true → judgement.Over (fun _ => False) type) := by
  obtain ⟨kind, span⟩ := expr
  have plain {action : BodyM TypeRef} (other : kind.isOperation = false)
      (done : Pledges judgement declared original floor given action
        (judgement.Over (declared.inScope original))) :
      Pledges judgement declared original floor given action fun type =>
        judgement.Over (declared.inScope original) type ∧
          (kind.isOperation = true → judgement.Over (fun _ => False) type) :=
    done.mono fun _ _ ranges => ⟨ranges, fun same => nomatch other.symm.trans same⟩
  have operation {action : BodyM TypeRef} {given' : Prop}
      (done : Pledges judgement declared original floor given' action
        (judgement.Over fun _ => False)) :
      Pledges judgement declared original floor given' action fun type =>
        judgement.Over (declared.inScope original) type ∧
          (kind.isOperation = true → judgement.Over (fun _ => False) type) :=
    done.mono fun _ _ ranges => ⟨ranges.widen fun _ => False.elim, fun _ => ranges⟩
  cases kind with
  | literal value => exact plain rfl (.pure fun _ => .primitive (by cases value <;> rfl))
  | ident name =>
    exact plain rfl (.bind .get fun _ =>
      .lift (ident_scoped inUnits found index name span (fun both => fits both.1)
      (fun both => used both.1 _ List.mem_cons_self) And.right))
  | this => exact plain rfl (.pure fun holds => (fits holds).classType)
  | field receiver name =>
    exact plain rfl
      (.bind (below receiver based fun holds => inside holds receiver List.mem_cons_self) fun _ =>
      .lift (field_scoped inUnits found index name span And.right))
  | call => exact plain rfl (invocation_scoped below inUnits found based fits inside)
  | new type args =>
    refine plain rfl
      (.andThen ((judged judgement declared original floor).forM fun arg listed => ?_) fun _ => ?_)
    · exact Pledges.andThen ((below arg based fun holds => inside holds arg listed).mono
        fun _ _ _ => trivial) fun _ => .pure fun _ => trivial
    · exact .lift (newInstance_scoped index type span (fun holds => (fits holds).names) used)
  | binary op left right =>
    refine operation (.bind (below left based fun holds => inside holds left List.mem_cons_self)
      fun leftType => ?_)
    refine .bind (below right (fun facts => based facts.1) fun facts =>
      inside facts.1 right (by simp [ExprKind.children]))
      fun rightType => ?_
    refine .andThen (.lift .ask) fun _ => ?_
    refine .andThen (.lift .ask) fun _ => ?_
    exact .lift (binary_scoped op _ _)
  | unary op operand =>
    refine operation
      (.bind (below operand based fun holds => inside holds operand List.mem_cons_self)
        fun type => ?_)
    exact .andThen (.lift .ask) fun _ => .lift (unary_scoped op type _)
  | ifElse => exact plain rfl (ifElse_scoped below based inside)
  | matchOn => exact plain rfl (matchOn_scoped below based inside)
  | letIn => exact plain rfl (letIn_scoped below based fits inside used)
  | block list =>
    exact plain rfl (withScope_scoped (items_scoped below based inside fun _ => .primitive rfl))
  | error => exact plain rfl (.pure fun _ => .any)

end

section
variable {site : BodySite} {body : ExprRef} (inUnits : declared ∈ judgement.units)
  (found : declared.members.members[id]? = some original)
include found

/-- What is recorded for a node of the body is over the scope of the member. -/
theorem record_scoped {index : Nat} {expr : Expr} {type : TypeRef}
    (bodied : given → original.body = some body)
    (inside : given → declared.arena.Contains body index)
    (there : given → declared.arena.exprs[index]? = some expr)
    (ranges : given → judgement.Over (declared.inScope original) type)
    (operation : given → expr.kind.isOperation = true → judgement.Over (fun _ => False) type) :
    StageM.Pledges judgement declared (Arms judgement declared original floor) given
      (modifyUnit fun unit => { unit with exprTypes := unit.exprTypes.insert index type }) := by
  refine .modifyUnit (fun unit holds scoped_ =>
    { scoped_ with recorded := fun other recorded looked => ?_ }) fun _ => rfl
  rw [IdMap.get?_insert] at looked
  split at looked
  · subst index
    cases looked
    exact ⟨⟨id, original, body, found, bodied holds, inside holds, ranges holds⟩, expr, there holds,
      operation holds⟩
  · exact scoped_.recorded other recorded looked

include inUnits

theorem resolveWithin_scoped : ∀ (depth : Nat) {given : Prop} (ref : ExprRef),
    (given → site.Fits judgement declared original ∧ original.body = some body) →
      (given → declared.arena.Under body ref) →
        Pledges judgement declared original floor given (resolveWithin site depth ref)
          (judgement.Over (declared.inScope original))
  | 0, _, .missing, _, _ => .pure fun _ => .primitive rfl
  | _ + 1, _, .missing, _, _ => .pure fun _ => .primitive rfl
  | 0, _, .node _, _, _ => .fails
  | depth + 1, given, .node index, based, inside => by
    have read : StageM.Pledges judgement declared (Arms judgement declared original floor) given
        (inspect (·.unit.arena.expr (.node index))) fun expr =>
          declared.arena.exprs[index]? = some expr :=
      .inspect fun work expr asked both => both.2.2.unit.arena ▸ Arena.lookup_of_expr asked
    apply Pledges.bind (.lift read)
    intro expr
    apply Pledges.bind (node_scoped (resolveWithin_scoped depth) inUnits found index expr
      (fun holding => based holding.1) (fun holding => (based holding.1).1)
      (fun holding _ listed => Arena.Under.child (inside holding.1 index rfl) holding.2 listed)
      fun holding use occurs => judgement.admits inUnits
        (.inr ⟨expr, Array.mem_toList_iff.mpr (Array.mem_of_getElem? holding.2), occurs⟩))
    intro type
    exact .andThen (.lift (record_scoped found (fun facts => (based facts.1.1).2)
      (fun facts => inside facts.1.1 index rfl) (fun facts => facts.1.2) (fun facts => facts.2.1)
      fun facts => facts.2.2)) fun _ => .pure fun facts => facts.2.1

theorem resolve_scoped
    (based : given → site.Fits judgement declared original ∧ original.body = some body) :
    Pledges judgement declared original floor given (resolve site body)
      (judgement.Over (declared.inScope original)) := by
  apply Pledges.andThen (.lift .ask)
  intro size
  refine resolveWithin_scoped inUnits found _ body based fun _ index same => ?_
  exact ⟨index, same, .refl⟩

end

end BodyM

/-- Parameters that differ in annotations only agree in everything else. -/
theorem Param.map_annotated {β : Type} {read : Param → β}
    (same : ∀ (param : Param) (annotations : List AnnotationUse),
      read { param with annotations } = read param)
    {params later : List Param}
    (paired : List.Forall₂ (fun param later =>
      later = { param with annotations := later.annotations }) params later) :
    later.map read = params.map read := by
  induction paired with
  | nil => rfl
  | cons equal _ ih => rw [List.map_cons, List.map_cons, equal, same, ih]

namespace StageM
variable {judgement : Judgement} {declared : CompilationUnit} {patterned : PatternStore → Prop}
    {given : Prop}
  {id : Nat} {original : Member}

/-- A body is resolved with the patterns so far below those of its arms. -/
theorem Pledges.behind (original : Member) {β : Type} {action : StageM β} {post : β → Prop}
    (done : ∀ floor, Pledges judgement declared (BodyM.Arms judgement declared original floor) given
      action post) :
    Pledges judgement declared (fun _ => True) given action post := by
  intro start result final ran shown
  obtain ⟨back, facts⟩ := done start.unit.patterns.size start result final ran shown
  refine ⟨back, fun given scoped_ => ?_⟩
  obtain ⟨kept, holds⟩ := facts given { scoped_ with patterns := start.unit.patterns.layered_size }
  exact ⟨{ kept with patterns := trivial }, holds⟩

theorem resolveAnnotationUse_scoped (entry : AnnotationUse) :
    Pledges judgement declared patterned given (resolveAnnotationUse entry) := by
  have unknown {given' : Prop} : Pledges judgement declared patterned given' (do
      report { code := .unknownAnnotationClass, span := entry.span, args := [entry.name] }
      return entry) := .andThen .report fun _ => .pure fun _ => trivial
  unfold resolveAnnotationUse
  split
  · exact .pure fun _ => trivial
  apply Pledges.get
  intro work
  split
  · split
    · exact .pure fun _ => trivial
    · exact unknown
  · exact unknown

variable (inUnits : declared ∈ judgement.units)
    (found : declared.members.members[id]? = some original)
include found

/-- Annotations are no part of what is written about types. -/
theorem resolveAnnotations_scoped : Pledges judgement declared patterned given
    (resolveAnnotations id) := by
  have read : Pledges judgement declared patterned given (inspect (·.unit.members.get id))
      fun member => member.written = original.written ∧
      member.Over judgement.toScoping (declared.inScope original) :=
    .inspect fun work member asked both =>
      ⟨both.2.2.unit.written_eq found (MemberArena.lookup_of_get asked),
        both.2.2.unit.types id original member found (MemberArena.lookup_of_get asked)⟩
  have looked (annotations : List AnnotationUse) {given' : Prop} :
      Pledges judgement declared patterned given' (annotations.mapM resolveAnnotationUse) :=
    (judged judgement declared patterned).mono
      ((judged judgement declared patterned).mapM fun entry _ => resolveAnnotationUse_scoped entry)
      fun _ _ _ => trivial
  apply Pledges.bind read
  intro member
  apply Pledges.andThen (looked member.annotations)
  intro annotations
  split
  · rename_i typeParams params body detail
    have each (param : Param) {given' : Prop} : Pledges judgement declared patterned given' (do
        return { param with annotations := ← param.annotations.mapM resolveAnnotationUse })
        fun later => later = { param with annotations := later.annotations } :=
      .andThen (looked param.annotations) fun annotations => .pure fun _ => rfl
    apply Pledges.bind ((judged judgement declared patterned).mapM_forall₂ fun param _ =>
      each param)
    intro later
    rw [pure_bind]
    refine .setMember found (fun facts => ?_) fun facts => ⟨facts.1.2.2.1, ?_⟩
    · obtain ⟨⟨_, written, _⟩, paired⟩ := facts
      rw [← written]
      simp only [Member.written, detail]
      rw [Param.map_annotated (fun _ _ => rfl) paired]
    · obtain ⟨⟨_, _, _, ranges⟩, paired⟩ := facts
      intro param listed
      have same : param.type ∈ later.map (·.type) := List.mem_map_of_mem listed
      rw [Param.map_annotated (fun _ _ => rfl) paired] at same
      obtain ⟨old, there, equal⟩ := List.mem_map.mp same
      exact equal ▸ ranges old (by simpa [Member.params, detail] using there)
  · exact .setMember found (fun holding => holding.2.1) fun holding => holding.2.2

include inUnits

/-- The second stage on a member. -/
theorem resolveBody_scoped : Pledges judgement declared (fun _ => True) given (resolveBody id) := by
  apply Pledges.andThen (resolveAnnotations_scoped found)
  intro _
  apply Pledges.get
  intro work
  let start := given ∧ work.pool.Prefix judgement.pool ∧
    work.Scoped judgement declared fun _ => True
  have read : Pledges judgement declared (fun _ => True) start (liftM (work.unit.members.get id))
      fun member => member.written = original.written ∧
      member.Over judgement.toScoping (declared.inScope original) :=
    .lift fun member asked satisfied =>
      ⟨satisfied.2.2.unit.written_eq found (MemberArena.lookup_of_get asked),
      satisfied.2.2.unit.types id original member found (MemberArena.lookup_of_get asked)⟩
  apply Pledges.bind read
  intro member
  cases bodied : member.body with
  | none => exact .pure fun _ => trivial
  | some body =>
    let promised := start ∧ member.written = original.written ∧
      member.Over judgement.toScoping (declared.inScope original)
    have classes : Pledges judgement declared (fun _ => True) promised
        (liftM (work.unit.classOf id))
        fun class_ => judgement.Over (declared.inScope original) class_.type :=
      .lift fun _ reached satisfied => satisfied.1.2.2.unit.classOf_over inUnits found reached
    apply Pledges.bind classes
    intro class_
    have scopes : Pledges judgement declared (fun _ => True)
        (promised ∧ judgement.Over (declared.inScope original) class_.type)
        (liftM (TypeScope.forMember work.unit.members id)) (· = declared.scopeOf original) :=
      .lift fun _ asked facts =>
        Except.ok.inj (asked.symm.trans (facts.1.1.2.2.unit.forMember_eq inUnits found))
    apply Pledges.bind scopes
    intro scope
    let site : BodySite :=
      { scope, member := id, className := class_.name, classType := class_.type
        suppress := member.suppressesWarnings || class_.suppressesWarnings }
    have resolved (floor : Nat) : BodyM.Pledges judgement declared original floor
        ((promised ∧ judgement.Over (declared.inScope original) class_.type) ∧
          scope = declared.scopeOf original)
        (BodyM.resolve site body) (judgement.Over (declared.inScope original)) := by
      refine BodyM.resolve_scoped inUnits found fun holds =>
        ⟨⟨fun entry listed => ?_, holds.1.2⟩, ?_⟩
      · exact ⟨entry, holds.2 ▸ listed, rfl⟩
      · rw [← Member.body_of_written holds.1.1.2.1, bodied]
    refine .andThen (.behind original fun floor => ?_) fun _ => .pure fun _ => trivial
    refine Pledges.mono (Pledges.assume (fun holds => ⟨holds, fun entry listed => ?_⟩)
      (resolved floor _)) fun _ _ _ => trivial
    obtain ⟨param, there, rfl⟩ := List.mem_map.mp (List.mem_reverse.mp listed)
    exact holds.1.1.2.2.2 param there

end StageM
end ClassLang
