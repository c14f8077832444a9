import ClassLang.Proofs.Stage.Confinement
import ClassLang.Proofs.Pattern.Typing

/-! Resolving a body touches no other member. -/

namespace ClassLang

theorem Arena.expr_orderly (arena : Arena) (ref : ExprRef) : Orderly (arena.expr ref) := by
  unfold Arena.expr
  split
  · split
    · exact orderly_ok
    · exact orderly_error rfl
  · exact orderly_error rfl

theorem Arena.span_orderly (arena : Arena) (ref : ExprRef) : Orderly (arena.span ref) :=
  .map (arena.expr_orderly ref)

namespace BodyM
open StageM
variable {stage : Stage} {id : Nat} {site : BodySite}

theorem spanOf_confined (ref : ExprRef) : Confined stage id (spanOf ref) :=
  inspect_confined fun work => work.unit.arena.span_orderly ref

theorem isLenient_confined (type : TypeRef) : Confined stage id (isLenient type) :=
  inspect_confined fun _ => TypePool.isLenient_orderly type

theorem resolveAs_confined (index : Nat) (resolution : Resolution) : Confined stage id
    (resolveAs index resolution) :=
  modifyUnit_confined fun _ => .record fun _ isSome => IdMap.isSome_insert isSome

theorem useSymbol_confined (index : Nat) (resolution : Resolution) (symbol : Symbol) (span : Span) :
    Confined stage id (useSymbol site index resolution symbol span) := by
  refine .bind (resolveAs_confined index resolution) fun _ => ?_
  dsimp only
  split
  · exact report_confined (fun _ => rfl) rfl
  · exact .pure

theorem expect_confined (expected found : TypeRef) (span : Span) : Confined stage id
    (expect expected found span) := by
  refine .bind (withClasses_confined fun _ _ closed =>
    ClassHierarchy.isSupertype_keeps closed expected found) fun fits => ?_
  split
  · exact .pure
  · exact mismatch_confined expected found span

theorem join_confined (first second : TypeRef) : Confined stage id (join first second) := by
  have related (sup sub : TypeRef) : Confined stage id (withClasses (·.isSupertype sup sub)) :=
    withClasses_confined fun _ _ closed => ClassHierarchy.isSupertype_keeps closed sup sub
  unfold join
  split
  · exact .pure
  split
  · exact .pure
  refine .bind (related first second) fun wider => ?_
  split
  · exact .pure
  refine .bind (related second first) fun narrower => ?_
  split <;> exact .pure

theorem classTypeOf_confined (type : TypeRef) : Confined stage id (classTypeOf type) := by
  refine .bind (inspect_confined fun _ => TypePool.node_orderly type) fun node => ?_
  split
  · exact inspect_confined fun _ => TypePool.upperBound_orderly _
  · exact .pure
  · exact .pure

theorem findField?_confined (receiver : TypeRef) (name : Name) : Confined stage id
    (findField? receiver name) := by
  refine .bind (classTypeOf_confined receiver) fun receiver => ?_
  refine .bind get_confined fun work => ?_
  refine .bind (withClasses_confined fun _ _ closed =>
    ClassHierarchy.ancestors_keeps closed receiver) fun ancestors =>
    .findSomeM? fun ancestor => ?_
  refine .bind (onPool_confined fun _ _ _ => SymbolTable.ancestorBindings_keeps ancestor)
    fun bindings => ?_
  split
  · exact .pure
  split
  · exact .pure
  · exact .bind (onPool_confined fun _ _ closed =>
      PoolM.instantiate_keeps closed.toSubstitutable _ _) fun _ => .pure

theorem noMember_confined (receiver : TypeRef) (name : Name) (span : Span) :
    Confined stage id (noMember receiver name span) :=
  .bind (display_confined _) fun _ => report_confined (fun _ => rfl) rfl

theorem ident_confined (locals : Locals) (index : Nat) (name : Name) (span : Span) :
    Confined stage id (ident site locals index name span) := by
  unfold ident
  cases locals.lookup name with
  | some type => exact .bind (resolveAs_confined _ _) fun _ => .pure
  | none =>
    refine .bind (findField?_confined _ _) fun found => ?_
    split
    · exact .bind (useSymbol_confined _ _ _ _) fun _ => .pure
    refine .bind get_confined fun work => ?_
    dsimp only
    cases work.symbols.lookupClass? name with
    | some symbol =>
      exact .bind (lift_confined (SymbolTable.get_orderly symbol)) fun _ =>
        .bind (useSymbol_confined _ _ _ _) fun _ => enter_confined fun _ _ closed =>
          closed.class_ name
    | none =>
      exact unresolved_confined (fun _ => rfl) rfl
        (fun _ => .record fun _ isSome => IdMap.isSome_insert isSome) name rfl

theorem field_confined (index : Nat) (receiver : TypeRef) (name : Name) (span : Span) :
    Confined stage id (field site index receiver name span) := by
  refine .bind (isLenient_confined receiver) fun lenient => ?_
  split
  · exact .pure
  refine .bind (findField?_confined receiver name) fun found => ?_
  split
  · exact .bind (useSymbol_confined _ _ _ _) fun _ => .pure
  · exact .bind (noMember_confined _ _ _) fun _ => .pure

theorem call_confined (index : Nat) (receiver : TypeRef) (method : Name) (args : List TypeRef)
    (span : Span) : Confined stage id (call site index receiver method args span) := by
  refine .bind (isLenient_confined receiver) fun lenient => ?_
  split
  · exact .pure
  refine .bind (classTypeOf_confined receiver) fun classType work => ?_
  refine .reading (.bind (onPool_confines fun _ closed =>
    SymbolTable.selectOverload_keeps closed classType method args)
    fun chosen between _ _ => (?_ : Confined stage id _) between)
  split
  · refine .bind (.forM fun fault => reportFault_confined span fault) fun _ => ?_
    refine .bind (lift_confined (SymbolTable.get_orderly _)) fun _ => ?_
    refine .bind (useSymbol_confined _ _ _ _) fun _ => ?_
    exact .pure
  · exact .bind (noMember_confined _ _ _) fun _ => .pure
  · refine .bind (.mapM fun type => display_confined type) fun _ => ?_
    refine .bind (report_confined (fun _ => rfl) rfl) fun _ => ?_
    refine .bind (resolveAs_confined _ _) fun _ => ?_
    exact .pure
  · refine .bind (report_confined (fun _ => rfl) rfl) fun _ => ?_
    refine .bind (resolveAs_confined _ _) fun _ => ?_
    exact .pure

theorem newInstance_confined (index : Nat) (type : TypeExpr) (span : Span) :
    Confined stage id (newInstance site index type span) := by
  refine .bind (TypeSite.resolve_confined type) fun type => ?_
  refine .bind (inspect_confined fun _ => TypePool.baseName?_orderly type) fun base => ?_
  split
  · refine .bind get_confined fun work => ?_
    dsimp only
    split
    · refine .bind (lift_confined (SymbolTable.get_orderly _)) fun symbol => ?_
      split
      · refine .bind (report_confined (fun _ => rfl) rfl) fun _ => ?_
        refine .bind (useSymbol_confined _ _ _ _) fun _ => ?_
        exact .pure
      · exact .bind (useSymbol_confined _ _ _ _) fun _ => .pure
    · exact .pure
  · exact .pure

theorem expectNumeric_confined (op : BinaryOp) (operands : List (TypeRef × Span)) :
    Confined stage id (expectNumeric op operands) :=
  .bind (.forM fun operand => mismatch_confined _ operand.1 operand.2) fun _ => .pure

theorem binary_confined (op : BinaryOp) (left right : TypeRef × Span) :
    Confined stage id (binary op left right) := by
  unfold binary
  split
  · refine .bind (expect_confined _ _ _) fun _ => ?_
    refine .bind (expect_confined _ _ _) fun _ => ?_
    exact .pure
  split
  · exact .pure
  refine .bind (isLenient_confined _) fun leftLenient => ?_
  have rest (lenient : Bool) : Confined stage id (do
      if lenient then return if op.isComparison then .bool else .any
      if op = .add ∧ (left.1 = .string ∨ right.1 = .string) then return .string
      let numeric ← expectNumeric op [left, right]
      if op.isComparison then return .bool
      if !numeric then return .any
      return if left.1 = .float ∨ right.1 = .float then .float else .int : StageM TypeRef) := by
    split
    · exact .pure
    split
    · exact .pure
    refine .bind (expectNumeric_confined op _) fun numeric => ?_
    split
    · exact .pure
    split <;> exact .pure
  dsimp only
  split
  · exact rest true
  · exact .bind (isLenient_confined _) rest

theorem unary_confined (op : UnaryOp) (operand : TypeRef) (span : Span) :
    Confined stage id (unary op operand span) := by
  refine .bind (isLenient_confined operand) fun lenient => ?_
  split
  · exact .pure
  cases op with
  | not => exact .bind (expect_confined _ _ _) fun _ => .pure
  | neg | bitNot =>
    dsimp only
    split
    · exact .pure
    · exact .bind (mismatch_confined _ _ _) fun _ => .pure

theorem reportUnknownClasses_confined (pattern : Nat) :
    Confined stage id (reportUnknownClasses pattern) := by
  refine .bind get_confined fun _ => ?_
  refine .bind (inspect_confined fun _ => PatternStore.deconstructedWithin_orderly _ pattern)
    fun classes => ?_
  refine .bind (reportAll_confined ?_ ?_) fun _ => .pure
  all_goals
    intro report member
    obtain ⟨_, _, rfl⟩ := List.mem_map.mp member
  · exact fun _ => rfl
  · rfl

theorem toDiagnostic_discreet {fault : PatternFault} {pool : TypePool}
    {report : Diagnostic} (made : fault.toDiagnostic pool = .ok report) : report.IsDiscreet := by
  cases fault with
  | arity =>
    cases made
    rfl
  | impossible =>
    obtain ⟨_, _, made⟩ := Except.bind_eq_ok made
    obtain ⟨_, _, made⟩ := Except.bind_eq_ok made
    cases made
    rfl

/-- The pool that typing an arm leaves takes the place of the one it was given. -/
theorem typeArm_confined (pattern : Nat) (subject : TypeRef) :
    Confined stage id (typeArm pattern subject) := by
  intro work
  refine .reading (.answering (PatternStore.runTyping_orderly _ _ _ _ _) ?_)
  rintro ⟨outcome, patterns, pool⟩ ran
  have spares : work.Spares stage id { work with pool, unit := { work.unit with patterns } } :=
    (Workspace.Spares.ofPool fun _ only =>
      PatternStore.runTyping_only (TypeNode.inheritable_fits rfl) only ran).trans
        (.ofUnit (.record fun _ isSome => isSome))
  have stored : work.Confines stage id stage.MayReport (fun _ => True)
      (.ok ((), { work with pool, unit := { work.unit with patterns } })) :=
    .ok spares trivial .refl
  refine .bind stored fun _ between _ _ => (?_ : Confined stage id _) between
  cases outcome with
  | ok _ => exact .pure
  | error fault =>
    have blamed : (confining stage id stage.MayReport).holds
        (liftM (fault.toDiagnostic pool) : StageM Diagnostic)
        fun report => report.IsDiscreet ∧ report.Standard :=
      lift_confining (PatternFault.toDiagnostic_orderly _ _) fun _ made =>
        ⟨toDiagnostic_discreet made, PatternFault.toDiagnostic_standard made⟩
    refine Promise.bind _ blamed fun report ⟨isDiscreet, standard⟩ => ?_
    exact Promise.Meets.bind (report_confined (fun _ => isDiscreet) standard) fun _ => .pure

theorem prepareArm_confined (arm : MatchArm) (subject : TypeRef) : Confined stage id
    (prepareArm arm subject) := by
  refine .bind get_confined fun work => ?_
  have imported :
      Orderly ((PatternStore.importFrom work.unit.arena arm.pattern).run work.unit.patterns) :=
    (Ordered.promise (m := Except Abort)).mono
      (PatternStore.importWithin_orderly work.unit.arena _ arm.pattern work.unit.patterns)
      fun _ _ => trivial
  refine .bind (lift_confined imported) fun raw => ?_
  refine .bind (modifyUnit_confined fun _ => .record fun _ isSome => isSome) fun _ => ?_
  refine .bind (reportUnknownClasses_confined _) fun unknown => ?_
  split
  · exact .pure
  · exact typeArm_confined _ subject

/-- Resolving an expression spares the members other than `id`. -/
abbrev Confined (stage : Stage) (id : Nat) {α : Type} (action : BodyM α) : Prop :=
  ((confining stage id stage.MayReport).underState Locals).Meets action

theorem withScope_confined {α : Type} {action : BodyM α} (done : Confined stage id action) :
    Confined stage id (withScope action) := by
  refine .bind .get fun _ => ?_
  refine .bind done fun _ => ?_
  refine .bind .modify fun _ => ?_
  exact .pure

section
variable {resolve : ExprRef → BodyM TypeRef} (deeper : ∀ ref, Confined .resolve id (resolve ref))
include deeper

theorem armType_confined (arm : MatchArm) (bound : Locals) (result : Option TypeRef) :
    Confined .resolve id (armType resolve arm bound result) := by
  refine .bind (withScope_confined (.bind .modify fun _ => deeper arm.body)) fun type => ?_
  cases result with
  | none => exact .pure
  | some previous => exact .lift (join_confined previous type)

theorem arms_confined (subject : TypeRef) : ∀ (arms : List MatchArm) (result : Option TypeRef),
    Confined .resolve id (BodyM.arms resolve subject arms result)
  | [], _ => .pure
  | arm :: rest, result => by
    refine .bind (.lift (prepareArm_confined arm subject)) fun pattern => ?_
    have body (bound : Locals) :
        Confined .resolve id (armType resolve arm bound result >>= fun joined =>
        BodyM.arms resolve subject rest (some joined) >>= fun later =>
          pure ({ pattern, span := arm.span } :: later.1, later.2)) :=
      .bind (armType_confined deeper arm bound result) fun joined =>
        .bind (arms_confined subject rest (some joined)) fun _ => .pure
    cases pattern with
    | some typed =>
      exact .bind (.lift (inspect_confined fun _ => PatternStore.bindingsWithin_orderly _ typed))
        body
    | none => exact .bind .pure body

theorem items_confined : ∀ (items : List ExprRef) (type : TypeRef), Confined .resolve id
    (BodyM.items resolve items type)
  | [], _ => .pure
  | item :: rest, _ => .bind (deeper item) fun type => items_confined rest type

theorem node_confined (index : Nat) (expr : Expr) : Confined .resolve id
    (node site resolve index expr) := by
  obtain ⟨kind, span⟩ := expr
  cases kind with
  | literal value => exact .pure
  | ident name => exact .bind .get fun locals => .lift (ident_confined locals index name span)
  | this => exact .pure
  | field receiver name =>
    exact .bind (deeper receiver) fun receiver => .lift (field_confined index receiver name span)
  | call receiver method args =>
    have rest (receiver : TypeRef) : Confined .resolve id (do
        let args ← args.mapM resolve
        call site index receiver method args span) :=
      .bind (.mapM deeper) fun args => .lift (call_confined index receiver method args span)
    cases receiver with
    | some receiver => exact .bind (deeper receiver) rest
    | none => exact .bind .pure rest
  | new type args =>
    exact .bind (.forM fun arg => .map (deeper arg)) fun _ =>
      .lift (newInstance_confined index type span)
  | binary op left right =>
    refine .bind (deeper left) fun _ => ?_
    refine .bind (deeper right) fun _ => ?_
    refine .bind (.lift (spanOf_confined right)) fun _ => ?_
    refine .bind (.lift (spanOf_confined left)) fun _ => ?_
    exact .lift (binary_confined op _ _)
  | unary op operand =>
    refine .bind (deeper operand) fun type => ?_
    refine .bind (.lift (spanOf_confined operand)) fun span => ?_
    exact .lift (unary_confined op type span)
  | ifElse cond thenBranch elseBranch =>
    refine .bind (deeper cond) fun condType => ?_
    refine .bind (.lift (spanOf_confined cond)) fun span => ?_
    refine .bind (.lift (expect_confined _ _ _)) fun _ => ?_
    refine .bind (deeper thenBranch) fun thenType => ?_
    split
    · exact .pure
    · exact .bind (deeper elseBranch) fun elseType => .lift (join_confined thenType elseType)
  | matchOn scrutinee branches =>
    refine .bind (deeper scrutinee) fun subject => ?_
    refine .bind (arms_confined deeper subject branches none) fun _ => ?_
    refine .bind (.lift (modifyUnit_confined fun unit => {
      CompilationUnit.Spares.refl unit with
      matchGroups := fun other => absurd rfl other
      grouped := fun _ isSome => IdMap.isSome_insert isSome })) fun _ => ?_
    exact .pure
  | letIn name type init =>
    refine .bind (deeper init) fun initType => ?_
    dsimp only
    split
    · refine .bind .pure fun _ => ?_
      refine .bind .modify fun _ => ?_
      exact .pure
    · refine .bind (.lift (TypeSite.resolve_confined _)) fun declared => ?_
      refine .bind (.lift (spanOf_confined init)) fun _ => ?_
      refine .bind (.lift (expect_confined _ _ _)) fun _ => ?_
      refine .bind .pure fun _ => ?_
      refine .bind .modify fun _ => ?_
      exact .pure
  | block list => exact withScope_confined (items_confined deeper list .void)
  | error => exact .pure

end

theorem resolveWithin_confined : ∀ (depth : Nat) (ref : ExprRef), Confined .resolve id
    (resolveWithin site depth ref)
  | 0, .missing => .pure
  | _ + 1, .missing => .pure
  | 0, .node _ => .lift (lift_confined (orderly_error rfl))
  | depth + 1, .node index =>
    .bind (.lift (inspect_confined fun work => work.unit.arena.expr_orderly (.node index)))
      fun expr => .bind (node_confined (resolveWithin_confined depth) index expr) fun _ =>
        .bind (.lift (modifyUnit_confined fun _ => .recordType index _)) fun _ => .pure

theorem resolve_confined (ref : ExprRef) : Confined .resolve id (resolve site ref) :=
  .bind (.lift (inspect_confined fun _ => .pure)) fun size => resolveWithin_confined (size + 1) ref

end BodyM

namespace StageM
variable {stage : Stage} {id : Nat}

theorem resolveAnnotationUse_confined (entry : AnnotationUse) : Confined stage id
    (resolveAnnotationUse entry) := by
  unfold resolveAnnotationUse
  split
  · exact .pure
  refine .bind get_confined fun work => ?_
  have missing : Confined stage id (do
      report { code := .unknownAnnotationClass, span := entry.span, args := [entry.name] }
      return entry) := .bind (report_confined (fun _ => rfl) rfl) fun _ => .pure
  split
  · split
    · exact .pure
    · exact missing
  · exact missing

theorem resolveAnnotations_confined : Confined stage id (resolveAnnotations id) := by
  refine .bind (inspect_confined fun work => work.unit.members.get_orderly id) fun member => ?_
  refine .bind (.mapM resolveAnnotationUse_confined) fun annotations => ?_
  cases member.detail with
  | method typeParams params body =>
    refine .bind (.mapM fun _ => .bind (.mapM resolveAnnotationUse_confined) fun _ => .pure)
      fun _ => ?_
    refine .bind .pure fun _ => ?_
    exact setMember_confined _
  | _ => exact .bind .pure fun _ => setMember_confined _

/-- What is left once the annotations are resolved. -/
def resolveOwnBody (current : Nat) : StageM PUnit := do
  let unit := (← get).unit
  let member ← unit.members.get current
  let some body := member.body | return
  let classMember ← unit.classOf current
  let scope ← TypeScope.forMember unit.members current
  let site : BodySite :=
    { scope, member := current, className := classMember.name, classType := classMember.type
      suppress := member.suppressesWarnings || classMember.suppressesWarnings }
  let locals : Locals := (member.params.map fun param => (param.name, param.type)).reverse
  let _ ← (BodyM.resolve site body).run locals

theorem resolveBody_eq (current : Nat) : resolveBody current = (do
    resolveAnnotations current
    resolveOwnBody current) := rfl

theorem resolveOwnBody_confined (current : Nat) : Confined .resolve id
    (resolveOwnBody current) := by
  refine .bind get_confined fun work => ?_
  refine .bind (lift_confined (MemberArena.get_orderly _ current)) fun member => ?_
  split
  · refine .bind (lift_confined (work.unit.classOf_orderly current)) fun classMember => ?_
    refine .bind (lift_confined (TypeScope.forMember_orderly _ current)) fun scope => ?_
    refine .bind (m := StageM) ?_ fun _ => .pure
    exact (confining .resolve id Stage.resolve.MayReport).mono (BodyM.resolve_confined _ _)
      fun _ _ => trivial
  · exact .pure

theorem resolveBody_confined : Confined .resolve id (resolveBody id) := by
  rw [resolveBody_eq]
  exact .bind resolveAnnotations_confined fun _ => resolveOwnBody_confined id

end StageM
end ClassLang
