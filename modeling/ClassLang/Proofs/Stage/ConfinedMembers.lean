import ClassLang.Proofs.Stage.ConfinedBodies
import ClassLang.Proofs.Stage.Mentions

/-! Checking a member and folding its constants touch no other member; so does the whole work of a
stage on it. -/

namespace ClassLang

namespace Arena
variable {arena : Arena}

theorem kind_orderly (ref : ExprRef) : Orderly (arena.kind ref) := .map (arena.expr_orderly ref)

theorem children_orderly (ref : ExprRef) : Orderly (arena.children ref) := .map (kind_orderly ref)

theorem setKind_orderly (ref : ExprRef) (kind : ExprKind) : Orderly (arena.setKind ref kind) := by
  unfold setKind
  split
  · split
    · exact orderly_ok
    · exact orderly_error rfl
  · exact orderly_error rfl

theorem literal?_orderly (ref : ExprRef) : Orderly (arena.literal? ref) :=
  .bind (kind_orderly ref) fun kind => by split <;> exact .pure

theorem slotsWithin_orderly : ∀ (depth : Nat) (ref : ExprRef), Orderly (arena.slotsWithin depth ref)
  | 0, .missing => .pure
  | _ + 1, .missing => .pure
  | 0, .node _ => orderly_error rfl
  | depth + 1, .node index =>
    .bind (children_orderly (.node index)) fun _ =>
      .bind (.mapM (slotsWithin_orderly depth)) fun _ => .pure

theorem walkFrom_orderly : ∀ (fuel : Nat) (pending : List ExprRef),
    Orderly (arena.walkFrom fuel pending)
  | 0, [] => .pure
  | _ + 1, [] => .pure
  | 0, _ :: _ => orderly_error rfl
  | fuel + 1, .missing :: pending => walkFrom_orderly fuel pending
  | fuel + 1, .node index :: _ =>
    .bind (children_orderly (.node index)) fun _ => .bind (walkFrom_orderly fuel _) fun _ => .pure

theorem walk_orderly (root : ExprRef) : Orderly (arena.walk root) :=
  .bind (slotsWithin_orderly _ root) fun slots => walkFrom_orderly slots [root]

end Arena

namespace Conformance
open StageM
variable {stage : Stage} {id : Nat} {allowed : Diagnostic → Prop} {member classMember : Member}

theorem violation_confined {code : Code} {span : Span} {args : List String}
    (holds : allowed { code, span, args }) :
    (confining stage id allowed).Meets (violation span code args) :=
  report_confined holds rfl

theorem duplicates_confined (current : Nat) : Confined stage id (duplicates current member) := by
  refine .bind get_confined fun work => ?_
  have rest (duplicate : Bool) : Confined stage id (do
      if duplicate then violation member.span .duplicate [member.name] : StageM PUnit) := by
    split
    · exact violation_confined fun _ => rfl
    · exact .pure
  dsimp only
  split
  · exact .bind (lift_confined (work.unit.symbol_orderly current)) fun _ => .bind .pure rest
  split
  · exact .bind .pure rest
  · exact .bind (lift_confined (MemberArena.get_orderly _ _)) fun _ =>
      .bind (.anyM fun _ => .bind (lift_confined (MemberArena.get_orderly _ _)) fun _ => .pure) rest

section
variable (any : ∀ report, allowed report)
include any

theorem implementation_confined : (confining stage id allowed).Meets (implementation member) := by
  unfold implementation
  split
  · exact .pure
  · exact fun work => .reading (.bind (onPool_confines fun _ closed =>
      SymbolTable.inheritedMethods_keeps closed member.type) fun _ between _ _ =>
        Promise.Meets.forM (fun _ => violation_confined (any _)) between)

theorem overrideRules_confined (owner : Name) (symbol : Symbol) (result : TypeRef) :
    (confining stage id allowed).Meets (overrideRules member owner symbol result) := by
  have optional {test : Bool} {code : Code} {args : List String} :
      (confining stage id allowed).Meets (do
      if test then violation member.span code args : StageM PUnit) := by
    split
    · exact violation_confined (any _)
    · exact .pure
  have compatible : (confining stage id allowed).Meets (do
      unless ← withClasses (·.isSupertype result member.type) do
        let own ← display member.type
        let other ← display result
        violation member.span .badOverride [member.name, owner ++ "." ++ symbol.name,
          "return type `" ++ own ++ "` is not compatible with `" ++ other ++ "`"]
      if member.access.weaker symbol.access then
        violation member.span .badOverride [member.name, owner ++ "." ++ symbol.name,
          "weaker access; was " ++ symbol.access.render] : StageM PUnit) := by
    refine .bind (withClasses_confined fun _ _ closed =>
      ClassHierarchy.isSupertype_keeps closed _ _) fun fits => ?_
    cases fits with
    | true => exact optional
    | false =>
      refine .bind (display_confined _) fun _ => ?_
      refine .bind (display_confined _) fun _ => ?_
      refine .bind (violation_confined (any _)) fun _ => ?_
      exact optional
  unfold overrideRules
  dsimp only
  split
  · exact .bind (violation_confined (any _)) fun _ => compatible
  · exact compatible

theorem overriding_confined : (confining stage id allowed).Meets
    (overriding member classMember) := by
  unfold overriding
  split
  · exact .pure
  refine .bind get_confined fun work => ?_
  refine .bind (withClasses_confined fun _ _ closed => ClassHierarchy.ancestors_keeps closed _)
    fun ancestors => ?_
  refine .bind (onPool_confined fun _ _ closed =>
    SymbolTable.findOverridden?_keeps closed.toSubstitutable _ _ _) fun overridden => ?_
  split
  · exact overrideRules_confined any _ _ _
  split
  · refine .bind (onPool_confined fun _ _ _ => SymbolTable.hasOverridable_keeps _ _ _)
      fun known => ?_
    split <;> exact violation_confined (any _)
  · exact .pure

end

theorem assignability_confined : Confined stage id (assignability member) := by
  unfold assignability
  split
  · split
    · exact .pure
    refine .bind get_confined fun work => ?_
    refine .bind (withClasses_confined fun _ _ closed =>
      ClassHierarchy.isSupertype_keeps closed _ _) fun fits => ?_
    split
    · exact .pure
    · exact .bind (inspect_confined fun work => work.unit.arena.span_orderly _) fun _ =>
        mismatch_confined _ _ _
  · exact .pure

theorem variance_confined : Confined stage id (variance member classMember) := by
  unfold variance
  split
  · exact .pure
  · exact .bind get_confined fun work =>
      .bind (.mapM fun _ => lift_confined (TypePool.varianceConflicts_orderly _ _ _)) fun _ =>
        .forM fun fault => reportFault_confined _ fault

theorem mayAccess_confined (unit : Nat) (symbol : Symbol) : Confined stage id
    (mayAccess unit classMember symbol) := by
  unfold mayAccess
  dsimp only
  split
  · exact .pure
  · exact .pure
  · exact .pure
  · exact .pure
  · split
    · exact .pure
    · exact .bind (enter_confined fun _ _ closed => closed.class_ _) fun _ =>
        withClasses_confined fun _ _ closed => ClassHierarchy.isSuperclass_keeps closed _ _
  · exact .pure

theorem access_confined : Confined stage id (access member classMember) := by
  unfold access
  split
  · refine .bind get_confined fun work => ?_
    refine .bind (lift_confined (Arena.walk_orderly _)) fun visited => .forM fun index => ?_
    split
    · refine .bind (inspect_confined fun _ => SymbolTable.get_orderly _) fun symbol => ?_
      refine .bind (mayAccess_confined _ symbol) fun allowed => ?_
      split
      · exact .pure
      · exact .bind (lift_confined (Arena.span_orderly _ _)) fun _ =>
          violation_confined fun _ => rfl
    · exact .pure
  · exact .pure

theorem bounds_confined (current : Nat) : Confined stage id (bounds current) := by
  refine .bind get_confined fun work => .forM fun usage => .bind get_confined fun _ => ?_
  refine .bind (onPool_confined fun _ _ _ => SymbolTable.ancestorBindings_keeps _)
    fun bindings => ?_
  split
  · exact .pure
  refine .bind (inspect_confined fun _ => TypePool.args_orderly _) fun args => .forM fun entry => ?_
  refine .bind (withClasses_confined fun _ _ closed =>
    ClassHierarchy.violatedBound?_keeps closed _ _ _) fun violated => ?_
  split
  · exact .pure
  · exact reportFault_confined _ _

theorem isMatch_orderly (arena : Arena) (index : Nat) : Orderly (isMatch arena index) :=
  .bind (Arena.kind_orderly _) fun kind => by split <;> exact .pure

theorem lowerMatch_confined (index : Nat) : Confined .check id (lowerMatch index) := by
  refine .bind get_confined fun work => ?_
  dsimp only
  split
  · rename_i group _
    refine .bind get_confined fun work => ?_
    have compiled : (confining .check id Stage.check.MayReport).holds
        (withClasses (group.compile · work.unit.patterns)) fun result =>
          result.1.2 = group.coverageReports result.1.1.coverage :=
      withClasses_confining fun _ _ closed => group.compile_keeps closed work.unit.patterns
    refine Promise.bind _ compiled fun result same => ?_
    refine Promise.Meets.bind (reportAll_confined (fun _ _ => absurd rfl) ?_) fun _ =>
      modifyUnit_confined fun unit => { CompilationUnit.Spares.refl unit with
        lowered := fun other => absurd rfl other, coded := fun _ isSome =>
          IdMap.isSome_insert isSome }
    exact same ▸ MatchGroup.coverageReports_standard _
  · exact .pure

theorem lowerMatches_confined : Confined .check id (lowerMatches member) := by
  unfold lowerMatches
  split
  · exact .bind get_confined fun _ => .bind (lift_confined (Arena.walk_orderly _)) fun _ =>
      .bind (lift_confined (.filterM fun index => isMatch_orderly _ index)) fun _ =>
        .forM fun index => lowerMatch_confined index
  · exact .pure

/-- The rules for a member besides being declared once. -/
def rules (work : Workspace) (id : Nat) (member : Member) : StageM PUnit := do
  match member.detail with
  | .class_ .. => implementation member
  | .method .. =>
    overriding member (← work.unit.classOf id)
    assignability member
    variance member (← work.unit.classOf id)
  | .field _ =>
    assignability member
    variance member (← work.unit.classOf id)
  access member (← work.unit.classOf id)
  bounds id
  lowerMatches member

theorem rules_confined (work : Workspace) (current : Nat) (member : Member) :
    Confined .check id (rules work current member) := by
  have classOf : Confined .check id (liftM (work.unit.classOf current) : StageM Member) :=
    lift_confined (work.unit.classOf_orderly current)
  have rest : Confined .check id (do
      access member (← work.unit.classOf current)
      bounds current
      lowerMatches member) :=
    .bind classOf fun _ => .bind access_confined fun _ =>
      .bind (bounds_confined current) fun _ => lowerMatches_confined
  unfold rules
  cases member.detail with
  | class_ => exact .bind (implementation_confined fun _ => absurd rfl) fun _ => rest
  | method =>
    refine .bind classOf fun _ => ?_
    refine .bind (overriding_confined fun _ => absurd rfl) fun _ => ?_
    refine .bind assignability_confined fun _ => ?_
    refine .bind classOf fun _ => ?_
    refine .bind variance_confined fun _ => ?_
    exact rest
  | field =>
    refine .bind assignability_confined fun _ => ?_
    refine .bind classOf fun _ => ?_
    refine .bind variance_confined fun _ => ?_
    exact rest

end Conformance

/-- A member is first compared with what is declared before it. -/
theorem StageM.checkMember_eq (id : Nat) : checkMember id = (do
    let work ← get
    let member ← work.unit.members.get id
    Conformance.duplicates id member
    Conformance.rules work id member) := rfl

theorem StageM.checkMember_confined {id : Nat} (current : Nat) : Confined .check id
    (checkMember current) := by
  rw [checkMember_eq]
  refine .bind get_confined fun work => ?_
  refine .bind (lift_confined (MemberArena.get_orderly _ current)) fun member => ?_
  refine .bind (Conformance.duplicates_confined current) fun _ => ?_
  exact Conformance.rules_confined work current member

namespace FoldM

theorem replaceBy_orderly (index : Nat) (value : Literal) : Orderly (replaceBy index value) := by
  refine .bind .get fun state => ?_
  refine .bind (.lift (state.arena.span_orderly _)) fun _ => ?_
  refine .bind .set fun _ => ?_
  exact .pure

theorem simplify_orderly (index : Nat) (kind : ExprKind) : Orderly (simplify index kind) := by
  have literal (arena : Arena) (ref : ExprRef) :
      Orderly (liftM (arena.literal? ref) : FoldM (Option Literal)) :=
    .lift (Arena.literal?_orderly ref)
  refine .bind .get fun state => ?_
  cases kind with
  | ifElse cond thenBranch elseBranch =>
    refine .bind (literal state.arena cond) fun value => ?_
    split <;> exact .pure
  | binary op left right =>
    refine .bind (literal state.arena left) fun first => ?_
    split
    · refine .bind (literal state.arena right) fun second => ?_
      split
      · split
        · exact replaceBy_orderly index _
        · exact .pure
      · exact .pure
    · exact .pure
  | unary op operand =>
    refine .bind (literal state.arena operand) fun value => ?_
    split
    · split
      · exact replaceBy_orderly index _
      · exact .pure
    · exact .pure
  | _ => exact .pure

theorem foldWithin_orderly : ∀ (depth : Nat) (ref : ExprRef), Orderly (foldWithin depth ref)
  | 0, .missing => .pure
  | _ + 1, .missing => .pure
  | 0, .node _ => .lift (orderly_error rfl)
  | depth + 1, .node index => by
    refine .bind .get fun state => ?_
    refine .bind (.lift (Arena.kind_orderly _)) fun kind => ?_
    refine .bind (Promise.mapChildrenM _ (foldWithin_orderly depth) kind) fun folded => ?_
    dsimp only
    split
    · refine .bind .get fun _ => ?_
      refine .bind (.lift (Arena.setKind_orderly _ _)) fun _ => ?_
      refine .bind .modify fun _ => ?_
      exact simplify_orderly index folded
    · exact simplify_orderly index folded

end FoldM

namespace StageM
variable {stage : Stage} {id : Nat}

theorem foldConstants_confined : Confined .foldConstants id (foldConstants id) := by
  refine .bind get_confined fun work => ?_
  refine .bind (lift_confined (MemberArena.get_orderly _ id)) fun member => ?_
  split
  · have folded (start : FoldState) (body : ExprRef) : Orderly ((FoldM.fold body).run start) :=
      (Ordered.promise (m := Except Abort)).mono
        (FoldM.foldWithin_orderly (start.arena.size + 1) body start)
        fun _ _ => trivial
    refine .bind (lift_confined (folded _ _)) fun result => ?_
    refine .bind (modifyUnit_confined fun unit => { CompilationUnit.Spares.refl unit with
      arena := fun other => absurd rfl other, exprTypes := fun _ other => absurd rfl other
      typed := fun other => absurd rfl other }) fun _ => ?_
    split
    · exact setMember_confined _
    · exact .pure
  · exact .pure

/-- The work of a stage on a member touches no other one and breaches no order. -/
theorem perform_confined (stage : Stage) : Confined stage id (perform stage id) := by
  cases stage with
  | resolveTypes => exact resolveTypes_confined
  | resolve => exact resolveBody_confined
  | check => exact checkMember_confined id
  | foldConstants => exact foldConstants_confined

end StageM
end ClassLang
