import ClassLang.Proofs.Order.Types

/-! Inheritance, subtyping and type faults in two pools: questions about renamed types have the same
answers, and what is found is renamed. -/

namespace ClassLang

namespace Renaming.Classes

variable {rename : Renaming} {hierarchy hierarchy' : ClassHierarchy}
  (classes : rename.Classes hierarchy hierarchy')
include classes

theorem supertypes (name : Name) :
    hierarchy'.supertypes name = rename.on (hierarchy.supertypes name) := by
  unfold ClassHierarchy.supertypes
  rw [classes.superclass, classes.interfaces, rename.on_append]
  cases hierarchy.superclass name <;> rfl

theorem bindArgs (name : Name) (args : List TypeRef) :
    hierarchy'.bindArgs name (rename.on args) = rename.on (hierarchy.bindArgs name args) := by
  unfold ClassHierarchy.bindArgs
  rw [classes.typeParams]
  exact Substitution.ofArgs_on rename _ args

end Renaming.Classes

namespace Comparison

variable {compare : Comparison} {hierarchy hierarchy' : ClassHierarchy}

section
variable (classes : compare.rename.Classes hierarchy hierarchy')
include classes

/-! Inheritance. -/

omit classes in
theorem selfType_agrees {name : Name}
    (params : hierarchy'.typeParams name = compare.rename.on (hierarchy.typeParams name)) :
    compare.Agrees (hierarchy.selfType name) (hierarchy'.selfType name) := by
  unfold ClassHierarchy.selfType
  rw [params]
  exact (Setting.Agree.mapM_on fun param _ => var_agrees param).bind fun vars =>
    applied_agrees name vars

theorem instantiateParts_agrees {parts parts' : Name → List TypeRef}
    (same : ∀ name, parts' name = compare.rename.on (parts name)) (type : TypeRef) :
    compare.Agrees (hierarchy.instantiateParts parts type)
      (hierarchy'.instantiateParts parts' (compare.rename.on type)) := by
  refine (baseName?_agrees type).bind fun base => ?_
  cases base with
  | none => exact .pure rfl
  | some base =>
    refine (args_agrees type).bind fun args => ?_
    simp only [classes.bindArgs, same, Renaming.on_plain]
    exact .mapM_on fun part _ => instantiate_agrees part _

theorem directSupertypes_agrees (type : TypeRef) :
    compare.Agrees (hierarchy.directSupertypes type)
      (hierarchy'.directSupertypes (compare.rename.on type)) :=
  instantiateParts_agrees classes classes.supertypes type

theorem componentsOf_agrees (type : TypeRef) :
    compare.Agrees (hierarchy.componentsOf type)
      (hierarchy'.componentsOf (compare.rename.on type)) :=
  instantiateParts_agrees classes classes.components type

theorem ancestorsFrom_agrees (depth depth' : Nat) (queue : List TypeRef) (seen : List Name) :
    compare.Agrees (hierarchy.ancestorsFrom depth queue seen)
      (hierarchy'.ancestorsFrom depth' (compare.rename.on queue) seen) := by
  refine Setting.Agree.fuel
    (fun depth (entry : List TypeRef × List Name) =>
      hierarchy.ancestorsFrom depth entry.1 entry.2)
    (fun depth entry =>
      hierarchy'.ancestorsFrom depth (compare.rename.on entry.1) entry.2)
    (fun entry => ?_) (fun depth depth' ih entry => ?_) depth depth' (queue, seen)
  · obtain ⟨queue, seen⟩ := entry
    cases queue with
    | nil =>
      refine .inr fun depth depth' => ?_
      cases depth <;> cases depth' <;> exact .pure rfl
    | cons type queue => exact .inl ⟨_, rfl, rfl⟩
  · obtain ⟨queue, seen⟩ := entry
    cases queue with
    | nil => exact .pure rfl
    | cons type queue =>
      refine (baseName?_agrees type).bind fun base => ?_
      cases base with
      | none => exact ih (queue, seen)
      | some base =>
        refine .ite Iff.rfl (fun _ => ih (queue, seen)) fun _ => ?_
        refine (directSupertypes_agrees classes type).bind fun supers => ?_
        have deeper := ih (queue ++ supers, base :: seen)
        rw [compare.rename.on_append] at deeper
        exact deeper.bind fun rest => .pure rfl

theorem ancestors_agrees (type : TypeRef) :
    compare.Agrees (hierarchy.ancestors type) (hierarchy'.ancestors (compare.rename.on type)) :=
  ancestorsFrom_agrees classes _ _ [type] []

omit classes in
theorem findBase?_agrees (target : Name) (types : List TypeRef) :
    compare.Agrees (ClassHierarchy.findBase? target types)
      (ClassHierarchy.findBase? target (compare.rename.on types)) := by
  refine .findM?_on fun type _ => (baseName?_agrees type).bind fun base => ?_
  rw [compare.rename.on_plain]
  exact .pure rfl

theorem ancestorAt?_agrees (type : TypeRef) (target : Name) :
    compare.Agrees (hierarchy.ancestorAt? type target)
      (hierarchy'.ancestorAt? (compare.rename.on type) target) :=
  (ancestors_agrees classes type).bind fun types => findBase?_agrees target types

theorem inferWithin_agrees (depth depth' : Nat) (subst : Substitution) (formal actual : TypeRef) :
    compare.Agrees (hierarchy.inferWithin depth subst formal actual)
      (hierarchy'.inferWithin depth' (compare.rename.on subst) (compare.rename.on formal)
        (compare.rename.on actual)) := by
  refine Setting.Agree.fuel
    (fun depth (entry : Substitution × TypeRef × TypeRef) =>
      hierarchy.inferWithin depth entry.1 entry.2.1 entry.2.2)
    (fun depth entry => hierarchy'.inferWithin depth (compare.rename.on entry.1)
      (compare.rename.on entry.2.1) (compare.rename.on entry.2.2))
    (fun _ => .inl ⟨_, rfl, rfl⟩) (fun depth depth' ih entry => ?_) depth depth'
    (subst, formal, actual)
  obtain ⟨subst, formal, actual⟩ := entry
  simp only [ClassHierarchy.inferWithin]
  rw [compare.rename.isPrimitive_on]
  refine .ite Iff.rfl (fun _ => .pure rfl) fun _ => (node_agrees formal).bind fun node => ?_
  cases node with
  | var param variance =>
    refine .ite
      (iff_of_eq (congrArg (· = true) (Substitution.contains_on compare.rename subst param)))
      (fun _ => .pure rfl) fun _ => ?_
    refine (node_agrees actual).bind fun inner => ?_
    cases inner with
    | wildcard direction bound =>
      cases direction with
      | covariant => exact .pure (Substitution.bind_on compare.rename subst param bound)
      | _ => exact .pure (Substitution.bind_on compare.rename subst param actual)
    | _ => exact .pure (Substitution.bind_on compare.rename subst param actual)
  | applied base args =>
    refine (ancestorAt?_agrees classes actual base).bind fun ancestor => ?_
    cases ancestor with
    | none => exact .pure rfl
    | some ancestor =>
      refine (args_agrees ancestor).bind fun actuals => ?_
      change compare.Agrees _
        (((compare.rename.on args).zip (compare.rename.on actuals)).foldlM _ _)
      rw [compare.rename.zip_on]
      exact .foldlM_on subst fun pair _ value => ih (value, pair)
  | wildcard direction bound => exact ih (subst, bound, actual)
  | _ => exact .pure rfl

theorem infer_agrees (subst : Substitution) (formal actual : TypeRef) :
    compare.Agrees (hierarchy.infer subst formal actual)
      (hierarchy'.infer (compare.rename.on subst) (compare.rename.on formal)
        (compare.rename.on actual)) :=
  .get fun _ _ _ _ _ => inferWithin_agrees classes _ _ subst formal actual

theorem narrow_agrees (variant : Name) (scrutinee : TypeRef) :
    compare.Agrees (hierarchy.narrow variant scrutinee)
      (hierarchy'.narrow variant (compare.rename.on scrutinee)) := by
  unfold ClassHierarchy.narrow
  dsimp only
  rw [classes.typeParams, compare.rename.isEmpty_on]
  refine .ite Iff.rfl (fun _ => class_agrees variant) fun _ => ?_
  refine (selfType_agrees (classes.typeParams variant)).bind fun generic => ?_
  refine (baseName?_agrees scrutinee).bind fun base => ?_
  have complete : ∀ inferred : Substitution, compare.Agrees
      ((hierarchy.typeParams variant).foldlM (fun subst param =>
        if subst.contains param = true then return subst
        else return subst.bind param (← PoolM.anyWildcard)) inferred >>= (instantiate generic ·))
      ((compare.rename.on (hierarchy.typeParams variant)).foldlM (fun subst param =>
        if subst.contains param = true then return subst
        else return subst.bind param (← PoolM.anyWildcard)) (compare.rename.on inferred) >>=
          (instantiate (compare.rename.on generic) ·)) := by
    intro inferred
    refine (Setting.Agree.foldlM_on inferred fun param _ subst => ?_).bind fun complete =>
      instantiate_agrees generic complete
    refine .ite (by rw [Substitution.contains_on]) (fun _ => .pure rfl) fun _ => ?_
    exact anyWildcard_agrees.bind fun unknown =>
      .pure (Substitution.bind_on compare.rename subst param unknown)
  cases base with
  | none => exact complete {}
  | some base =>
    refine (ancestorAt?_agrees classes generic base).bind fun ancestor => ?_
    cases ancestor with
    | none => exact complete {}
    | some ancestor => exact (infer_agrees classes {} ancestor scrutinee).bind complete

end

/-! Subtyping. -/

/-- A relation on types has the same answers. -/
def Tests (compare : Comparison) (test test' : TypeTest) : Prop :=
  ∀ first second, compare.Agrees (test first second)
    (test' (compare.rename.on first) (compare.rename.on second))

theorem triviallyRelated_agrees : compare.Tests triviallyRelated triviallyRelated := by
  intro first second
  refine .ite compare.rename.on_inj (fun _ => .pure rfl) fun _ => ?_
  exact .branch (isLenient_agrees first) (.pure rfl) (isLenient_agrees second)

section
variable {deeper deeper' : TypeTest} (tests : compare.Tests deeper deeper')
include tests

theorem wildcardContains_agrees :
    compare.Tests (ClassHierarchy.wildcardContains deeper)
      (ClassHierarchy.wildcardContains deeper') := by
  intro sup sub
  have isAny : ∀ type : TypeRef, compare.rename.on type = .any ↔ type = .any := fun _ =>
    compare.rename.on_eq_iff compare.rename.on_any
  refine (node_agrees sup).bind fun node => ?_
  cases node with
  | wildcard variance bound =>
    refine (node_agrees sub).bind fun inner => ?_
    cases variance with
    | invariant => exact .pure rfl
    | covariant =>
      have rest : ∀ upper : TypeRef, compare.Agrees
          (if bound = .any then pure true else if upper = .any then pure false else deeper
            bound upper)
          (if compare.rename.on bound = .any then pure true
            else if compare.rename.on upper = .any then pure false
            else deeper' (compare.rename.on bound) (compare.rename.on upper)) := fun upper =>
        .ite (isAny bound) (fun _ => .pure rfl) fun _ =>
          .ite (isAny upper) (fun _ => .pure rfl) fun _ => tests bound upper
      have unbounded := rest .any
      rw [compare.rename.on_any] at unbounded
      cases inner with
      | wildcard direction innerBound =>
        cases direction with
        | covariant => exact rest innerBound
        | _ => exact unbounded
      | _ => exact rest sub
    | contravariant =>
      cases inner with
      | wildcard direction lower =>
        cases direction with
        | contravariant => exact tests lower bound
        | _ => exact .pure rfl
      | _ => exact tests sub bound
  | _ => exact .pure rfl

theorem argumentContains_agrees (declared : Variance) :
    compare.Tests (ClassHierarchy.argumentContains deeper declared)
      (ClassHierarchy.argumentContains deeper' declared) := by
  intro sup sub
  refine .branch (triviallyRelated_agrees sup sub) (.pure rfl) ?_
  refine (node_agrees sup).bind fun node => ?_
  cases node with
  | wildcard variance bound => exact wildcardContains_agrees tests sup sub
  | _ =>
    refine (node_agrees sub).bind fun inner => ?_
    cases inner with
    | wildcard variance bound => exact .pure rfl
    | _ =>
      cases declared with
      | covariant => exact tests sup sub
      | contravariant => exact tests sub sup
      | invariant => exact .pure rfl

end

section
variable (bounded : compare.rename.Bounds compare.params compare.params')
include bounded

theorem param_agrees (param : ParamRef) :
    compare.Agrees (PoolM.inspect (·.param param))
      (PoolM.inspect (·.param (compare.rename.on param))) :=
  inspect fun _ _ holds => holds.boundedParam bounded param

theorem upperBound_agrees (param : ParamRef) :
    compare.Agrees (PoolM.inspect (·.upperBound param))
      (PoolM.inspect (·.upperBound (compare.rename.on param))) :=
  inspect fun _ _ holds => holds.upperBound bounded param

theorem declaredVariance_agrees (params : List ParamRef) (position : Nat) :
    compare.Agrees (ClassHierarchy.declaredVariance params position)
      (ClassHierarchy.declaredVariance (compare.rename.on params) position) := by
  unfold ClassHierarchy.declaredVariance
  rw [compare.rename.on_list, List.getElem?_map]
  cases params[position]? with
  | none => exact .pure rfl
  | some param => exact (param_agrees bounded param).bind fun declared => .pure rfl

theorem argumentsContain_agrees {deeper deeper' : TypeTest} (tests : compare.Tests deeper deeper')
    (params : List ParamRef) : ∀ (position : Nat) (sups subs : List TypeRef),
    compare.Agrees (ClassHierarchy.argumentsContain deeper params position sups subs)
      (ClassHierarchy.argumentsContain deeper' (compare.rename.on params) position
        (compare.rename.on sups) (compare.rename.on subs))
  | _, [], _ => .pure rfl
  | _, _ :: _, [] => .pure rfl
  | position, sup :: sups, sub :: subs => by
    refine (declaredVariance_agrees bounded params position).bind fun declared => ?_
    exact .branch (argumentContains_agrees tests declared sup sub)
      (argumentsContain_agrees tests params (position + 1) sups subs) (.pure rfl)

variable (classes : compare.rename.Classes hierarchy hierarchy')
include classes

theorem classSupertype_agrees {deeper deeper' : TypeTest} (tests : compare.Tests deeper deeper')
    (sup : TypeNode) (sub : TypeRef) :
    compare.Agrees (hierarchy.classSupertype deeper sup sub)
      (hierarchy'.classSupertype deeper' (compare.rename.on sup) (compare.rename.on sub)) := by
  cases sup with
  | class_ base =>
    refine (ancestorAt?_agrees classes sub base).bind fun ancestor => ?_
    cases ancestor <;> exact .pure rfl
  | applied base args =>
    refine (ancestorAt?_agrees classes sub base).bind fun ancestor => ?_
    cases ancestor with
    | none => exact .pure rfl
    | some ancestor =>
      refine (args_agrees ancestor).bind fun actuals => ?_
      refine .ite (by rw [compare.rename.isEmpty_on]) (fun _ => .pure rfl) fun _ => ?_
      rw [classes.typeParams]
      exact argumentsContain_agrees bounded tests _ 0 args actuals
  | _ => exact .pure rfl

theorem structuralSupertype_agrees {deeper deeper' : TypeTest}
    (tests : compare.Tests deeper deeper') : compare.Tests (hierarchy.structuralSupertype deeper)
    (hierarchy'.structuralSupertype deeper') := by
  intro sup sub
  refine (node_agrees sup).bind fun node => ?_
  cases node with
  | var param variance =>
    refine (upperBound_agrees bounded param).bind fun bound => ?_
    cases variance with
    | covariant => exact tests bound sub
    | contravariant => exact tests sub bound
    | invariant => exact .pure rfl
  | wildcard variance bound => exact wildcardContains_agrees tests sup sub
  | _ =>
    refine (node_agrees sub).bind fun inner => ?_
    cases inner with
    | var param variance =>
      exact (param_agrees bounded param).bind fun declared => .anyM_on fun bound _ =>
        tests sup bound
    | wildcard variance bound =>
      cases variance with
      | covariant => exact tests sup bound
      | _ => exact .pure rfl
    | _ => exact classSupertype_agrees bounded classes tests _ sub

theorem isSupertypeWithin_agrees : ∀ depth : Nat,
    compare.Tests (hierarchy.isSupertypeWithin depth) (hierarchy'.isSupertypeWithin depth)
  | 0 => triviallyRelated_agrees
  | depth + 1 => fun sup sub =>
    .branch (triviallyRelated_agrees sup sub) (.pure rfl)
      (structuralSupertype_agrees bounded classes (isSupertypeWithin_agrees depth) sup sub)

theorem isSupertype_agrees : compare.Tests hierarchy.isSupertype hierarchy'.isSupertype :=
  isSupertypeWithin_agrees bounded classes relationDepth

omit classes in
theorem erasureWithin_agrees : ∀ (depth : Nat) (type : TypeRef),
    compare.Agrees (ClassHierarchy.erasureWithin depth type)
      (ClassHierarchy.erasureWithin depth (compare.rename.on type))
  | 0, _ => .pure rfl
  | depth + 1, type => by
    refine (node_agrees type).bind fun node => ?_
    cases node with
    | var param variance =>
      exact (upperBound_agrees bounded param).bind fun bound => erasureWithin_agrees depth bound
    | wildcard variance bound => exact erasureWithin_agrees depth bound
    | _ => exact .pure rfl

theorem isSuperclassWithin_agrees : ∀ depth : Nat,
    compare.Tests (hierarchy.isSuperclassWithin depth) (hierarchy'.isSuperclassWithin depth)
  | 0 => triviallyRelated_agrees
  | depth + 1 => fun sup sub => by
    refine .branch (triviallyRelated_agrees sup sub) (.pure rfl) ?_
    refine (erasureWithin_agrees bounded 64 sup).bind fun target => ?_
    cases target with
    | none => exact .pure rfl
    | some target =>
      refine (node_agrees sub).bind fun node => ?_
      cases node with
      | var param variance =>
        exact (param_agrees bounded param).bind fun declared =>
          .anyM_on fun bound _ => isSuperclassWithin_agrees depth sup bound
      | wildcard variance bound => exact isSuperclassWithin_agrees depth sup bound
      | _ =>
        refine (ancestorAt?_agrees classes sub target).bind fun ancestor => ?_
        cases ancestor <;> exact .pure rfl

theorem isSuperclass_agrees : compare.Tests hierarchy.isSuperclass hierarchy'.isSuperclass :=
  isSuperclassWithin_agrees bounded classes relationDepth

theorem withinBound_agrees : compare.Tests hierarchy.withinBound hierarchy'.withinBound := by
  intro bound argument
  refine (node_agrees argument).bind fun node => ?_
  cases node with
  | wildcard variance upper =>
    cases variance with
    | covariant =>
      exact .branch (isSupertype_agrees bounded classes bound upper) (.pure rfl)
        (isSupertype_agrees bounded classes upper bound)
    | _ => exact .pure rfl
  | _ => exact isSupertype_agrees bounded classes bound argument

theorem violatedBound?_agrees (param : ParamRef) (argument : TypeRef) (subst : Substitution) :
    compare.Agrees (hierarchy.violatedBound? param argument subst)
      (hierarchy'.violatedBound? (compare.rename.on param) (compare.rename.on argument)
        (compare.rename.on subst)) := by
  refine (param_agrees bounded param).bind fun declared => .findSomeM?_on fun bound _ => ?_
  refine (instantiate_agrees bound subst).bind fun bound => ?_
  exact .branch (withinBound_agrees bounded classes bound argument) (.pure rfl) (.pure rfl)

end

/-! Faults. -/

namespace Holds

variable {pool pool' : TypePool} (holds : compare.Holds pool pool')
include holds

theorem declaredVariances (params : List ParamRef) :
    Corresponds compare.rename.on (pool.declaredVariances params)
      (pool'.declaredVariances (compare.rename.on params)) := by
  refine (Corresponds.mapM fun param _ => ?_).congr (Equiv.ext fun _ => rfl)
  intro variance variance' ran known'
  obtain ⟨declared, asked, answer⟩ := Except.bind_eq_ok ran
  obtain ⟨declared', asked', answer'⟩ := Except.bind_eq_ok known'
  cases answer
  cases answer'
  rw [holds.param param asked asked']
  exact (compare.rename.on_plain _).symm

theorem argumentPolarity (declared polarity : Variance) (argument : TypeRef) :
    Corresponds compare.rename.on (pool.argumentPolarity declared polarity argument)
      (pool'.argumentPolarity declared polarity (compare.rename.on argument)) := by
  refine (holds.node argument).bind fun node => ?_
  cases node <;> exact .ok rfl

end Holds

theorem concernsVariance_on (rename : Renaming) (param : ParamRef) (fault : TypeFault) :
    (rename.on fault).concernsVariance (rename.on param) = fault.concernsVariance param := by
  cases fault with
  | varianceConflict other variance position => exact rename.beq_on other param
  | _ => rfl

theorem Holds.varianceConflictsWithin {pool pool' : TypePool} (holds : compare.Holds pool pool')
    (classes : compare.rename.Classes hierarchy hierarchy') (position : TypePosition) :
    ∀ (depth depth' : Nat) (type : TypeRef) (polarity : Variance) (found : List TypeFault),
      Corresponds compare.rename.on
        (pool.varianceConflictsWithin hierarchy position depth type polarity found)
        (pool'.varianceConflictsWithin hierarchy' position depth' (compare.rename.on type) polarity
          (compare.rename.on found))
  | 0, _, _, _, _ => .failLeft _
  | _, 0, _, _, _ => .failRight _
  | depth + 1, depth' + 1, type, polarity, found => by
    unfold TypePool.varianceConflictsWithin
    rw [compare.rename.isPrimitive_on]
    split
    · exact .ok rfl
    · refine (holds.node type).bind fun node => ?_
      cases node with
      | var param variance =>
        have same : (compare.rename.on found).any (·.concernsVariance (compare.rename.on param)) =
            found.any (·.concernsVariance param) := by
          rw [compare.rename.on_list, List.any_map]
          exact congrArg found.any (funext fun fault => concernsVariance_on _ param fault)
        refine .ite (iff_of_eq (congrArg (fun found => (_ && _ && !found) = true) same))
          (fun _ => ?_)
          fun _ => .ok rfl
        exact .ok (compare.rename.on_append found [.varianceConflict param variance position]).symm
      | applied base args =>
        have declares := holds.declaredVariances (hierarchy.typeParams base)
        rw [← classes.typeParams] at declares
        refine declares.bind fun declared => ?_
        rw [compare.rename.zipIdx_on, compare.rename.on_plain declared]
        refine .foldlM found fun entry _ found => ?_
        obtain ⟨argument, index⟩ := entry
        exact (holds.argumentPolarity (declared.getD index .invariant) polarity argument).bind
          fun inner => holds.varianceConflictsWithin classes position depth depth'
          argument inner found
      | wildcard variance bound =>
        exact .ite Iff.rfl (fun _ => .ok rfl) fun _ =>
          holds.varianceConflictsWithin classes position depth depth' bound polarity found
      | _ => exact .ok rfl

theorem Holds.varianceConflicts {pool pool' : TypePool} (holds : compare.Holds pool pool')
    (classes : compare.rename.Classes hierarchy hierarchy') (type : TypeRef)
    (position : TypePosition) :
    Corresponds compare.rename.on (pool.varianceConflicts hierarchy type position)
      (pool'.varianceConflicts hierarchy' (compare.rename.on type) position) :=
  holds.varianceConflictsWithin classes position _ _ type position.variance []

/-- The report of a fault is the same. -/
theorem Holds.toDiagnostic {pool pool' : TypePool} (holds : compare.Holds pool pool')
    (fault : TypeFault) (span : Span) :
    Corresponds compare.rename.on (fault.toDiagnostic span pool)
      ((compare.rename.on fault).toDiagnostic span pool') := by
  have named : ∀ {param : ParamRef} {build : TypeParam → Diagnostic},
      (∀ declared bounds, build { declared with bounds } = build declared) →
      Corresponds compare.rename.on (do return build (← pool.param param))
        (do return build (← pool'.param (compare.rename.on param))) := by
    intro param build ignores _ _ ran known'
    obtain ⟨declared, asked, answer⟩ := Except.bind_eq_ok ran
    obtain ⟨declared', asked', answer'⟩ := Except.bind_eq_ok known'
    cases answer
    cases answer'
    rw [holds.param param asked asked', ignores]
    rfl
  cases fault with
  | outsideBound param argument bound =>
    refine (holds.display argument).bind fun argument => ?_
    refine (holds.display bound).bind fun bound => ?_
    exact named fun _ _ => rfl
  | varianceConflict param variance position => exact named fun _ _ => rfl
  | unbound param => exact named fun _ _ => rfl

end Comparison
end ClassLang
