import ClassLang.Proofs.Type.Orderly
import ClassLang.Proofs.Type.Tree

/-! Which entries the operations of the type model enter. Whatever they are asked, they enter only
classes, type variables, wildcards, a class applied to its own variables, and applied types with as
many arguments as one that was there; and they keep the order of stages. -/

namespace ClassLang

/-- Every entry of the pool is of a kind. -/
def TypePool.Only (kind : TypeNode → Prop) (pool : TypePool) : Prop :=
  ∀ (index : Nat) (node : TypeNode), pool.types[index]? = some node → kind node

/-- The kind has what replacing variables enters. -/
structure Substitutable (kind : TypeNode → Prop) : Prop where
  wildcard : ∀ variance bound, kind (.wildcard variance bound)
  applied : ∀ base args replaced, kind (.applied base args) → replaced.length = args.length →
    kind (.applied base replaced)

/-- The kind has what asking for classes and what they inherit enters. -/
structure Inheritable (hierarchy : ClassHierarchy) (kind : TypeNode → Prop) : Prop
    extends Substitutable kind where
  class_ : ∀ name, kind (.class_ name)
  var : ∀ param variance, kind (.var param variance)
  self : ∀ name args, args ≠ [] → args.length = (hierarchy.typeParams name).length →
    kind (.applied name args)

/-- An entry of the kind may be entered. -/
theorem TypePool.Only.intern {kind : TypeNode → Prop} {pool : TypePool} (only : pool.Only kind)
    {node : TypeNode} (allowed : kind node) : (pool.intern node).2.Only kind := by
  intro index found present
  unfold TypePool.intern at present
  split at present
  · exact only index found present
  · rcases lookup_push present with old | ⟨-, rfl⟩
    · exact only index found old
    · exact allowed

namespace PoolM
variable {kind : TypeNode → Prop}

/-- All entries stay where they are, all are of the kind, what is returned is as promised, and no
breach of the order of stages is raised. -/
def keeping (kind : TypeNode → Prop) : Promise PoolM where
  holds action post := ∀ floor : TypePool,
    (OrderlyKeeping fun pool => floor.Extends pool ∧ pool.Only kind).holds action post
  pure promised _ := (OrderlyKeeping _).pure promised
  bind done rest floor := (OrderlyKeeping _).bind (done floor) fun result promised =>
    rest result promised floor

/-- The action enters types of the kind only, and breaches the order of stages nowhere. -/
def Keeps (kind : TypeNode → Prop) (action : PoolM α) (post : α → Prop := fun _ => True) : Prop :=
  (keeping kind).holds action post

namespace Keeps
variable {α β : Type} {post : β → Prop}

theorem pure {result : β} (holds : post result) : Keeps kind (Pure.pure result) post :=
  (keeping kind).pure holds

theorem bind {first : PoolM α} {next : α → PoolM β} {middle : α → Prop}
    (done : Keeps kind first middle)
    (rest : ∀ result, middle result → Keeps kind (next result) post) :
    Keeps kind (first >>= next) post :=
  (keeping kind).bind done rest

theorem andThen {first : PoolM α} {next : α → PoolM β} (done : Keeps kind first)
    (rest : ∀ result, Keeps kind (next result) post) : Keeps kind (first >>= next) post :=
  (keeping kind).andThen done rest

theorem fails {fault : Abort} (other : fault.isStageOrder = false) :
    Keeps kind (throw fault : PoolM β) post :=
  fun _ _ _ => ⟨fun _ same => Except.error.inj same ▸ other, nofun⟩

theorem lift {answer : Except Abort α} (asked : Orderly answer) :
    Keeps kind (liftM answer : PoolM α) :=
  fun _ _ kept => Ordered.promise.bind asked fun _ _ => Ordered.promise.pure ⟨kept, trivial⟩

theorem get : Keeps kind (MonadState.get : PoolM TypePool) :=
  fun _ _ kept => Ordered.promise.pure ⟨kept, trivial⟩

theorem inspect {query : TypePool → Except Abort α}
    (asked : ∀ pool, Orderly (query pool)) : Keeps kind (PoolM.inspect query) :=
  andThen get fun pool => lift (asked pool)

/-- An entry that is read is of the kind. -/
theorem node {type : TypeRef} : Keeps kind (PoolM.inspect (·.node type)) kind := by
  have asked : Keeps kind (PoolM.inspect (·.node type)) := inspect (by simp)
  intro floor start kept
  refine ⟨(asked floor start kept).1, ?_⟩
  rintro ⟨result, final⟩ ran
  obtain ⟨value, answered, same⟩ := Except.bind_eq_ok ran
  obtain ⟨rfl, rfl⟩ := Prod.mk.inj (Except.ok.inj same)
  exact ⟨kept, kept.2 _ _ (TypePool.lookup_of_node answered)⟩

theorem mapM {elements : List α} {build : α → PoolM β}
    (each : ∀ element ∈ elements, Keeps kind (build element)) : Keeps kind (elements.mapM build) :=
  (keeping kind).mono ((keeping kind).mapM each) fun _ _ => trivial

theorem intern {node : TypeNode} (allowed : kind node) : Keeps kind (PoolM.intern node) := by
  rintro floor start ⟨extended, only⟩
  exact Ordered.promise.pure
    ⟨⟨extended.trans TypePool.intern_extends, only.intern allowed⟩, trivial⟩

/-- What a run leaves of the pool it started from. -/
theorem run {action : PoolM α} {post : α → Prop} (done : Keeps kind action post)
    {start final : TypePool} {result : α} (only : start.Only kind)
    (ran : action.run start = .ok (result, final)) : start.Extends final ∧ final.Only kind ∧
    post result := by
  obtain ⟨⟨extended, kept⟩, holds⟩ := (done start start ⟨.refl start, only⟩).2 (result, final) ran
  exact ⟨extended, kept, holds⟩

theorem orderly {action : PoolM α} {post : α → Prop} (done : Keeps (fun _ => True) action post) :
    Orderly action :=
  fun own => Ordered.promise.mono (done own own ⟨.refl own, fun _ _ _ => trivial⟩) fun _ _ =>
    trivial

end Keeps

section
variable (closed : Substitutable kind)
include closed

theorem wildcard_keeps (variance : Variance) (bound : TypeRef) :
    Keeps kind (PoolM.wildcard variance bound) :=
  .intern (closed.wildcard variance bound)

theorem instantiateWithin_keeps (subst : Substitution) : ∀ (depth : Nat) (type : TypeRef),
    Keeps kind (instantiateWithin subst depth type)
  | 0, _ => .fails rfl
  | depth + 1, type => by
    unfold instantiateWithin
    split
    · exact .pure trivial
    apply Keeps.bind .node
    intro node holds
    cases node with
    | applied base args =>
      apply Keeps.bind ((keeping kind).mapM fun arg _ => instantiateWithin_keeps subst depth arg)
      intro replaced same
      split
      · exact .pure trivial
      · exact .intern (closed.applied base args replaced holds same.1)
    | wildcard variance bound =>
      apply Keeps.andThen (instantiateWithin_keeps subst depth bound)
      intro replaced
      split
      · exact .pure trivial
      apply Keeps.andThen (.inspect (by simp))
      intro inner
      split
      · split
        · exact wildcard_keeps closed _ _
        · exact wildcard_keeps closed _ _
      · split
        · exact .pure trivial
        · exact wildcard_keeps closed _ _
    | _ => exact .pure trivial

theorem instantiate_keeps (type : TypeRef) (subst : Substitution) :
    Keeps kind (instantiate type subst) :=
  .andThen .get fun _ => instantiateWithin_keeps closed subst _ type

end

/-! Every kind of entry may be entered. -/

theorem substitutable_any : Substitutable fun _ => True :=
  ⟨fun _ _ => trivial, fun _ _ _ _ _ => trivial⟩

theorem inheritable_any (hierarchy : ClassHierarchy) : Inheritable hierarchy fun _ => True :=
  ⟨substitutable_any, fun _ => trivial, fun _ _ => trivial, fun _ _ _ _ => trivial⟩

section
variable {hierarchy : ClassHierarchy} (closed : Inheritable hierarchy kind)
include closed

theorem class_keeps (name : Name) : Keeps kind (PoolM.class_ name) := .intern (closed.class_ name)

theorem anyWildcard_keeps : Keeps kind PoolM.anyWildcard :=
  wildcard_keeps closed.toSubstitutable _ _

theorem var_keeps (param : ParamRef) : Keeps kind (PoolM.var param) :=
  .andThen (.inspect (by simp)) fun _ => .intern (closed.var _ _)

theorem applied_keeps {name : Name} {args : List TypeRef}
    (length : args.length = (hierarchy.typeParams name).length) :
    Keeps kind (PoolM.applied name args) := by
  unfold PoolM.applied
  split
  · exact class_keeps closed name
  · rename_i given
    exact .intern (closed.self name args (by simpa using given) length)

end
end PoolM

namespace ClassHierarchy
open PoolM

variable {kind : TypeNode → Prop} {hierarchy : ClassHierarchy} (closed : Inheritable hierarchy kind)
include closed

theorem selfType_keeps (name : Name) : Keeps kind (hierarchy.selfType name) := by
  apply Keeps.bind ((keeping kind).mapM fun param _ => var_keeps closed param)
  intro vars made
  exact applied_keeps closed made.1

theorem instantiateParts_keeps (parts : Name → List TypeRef) (type : TypeRef) :
    Keeps kind (hierarchy.instantiateParts parts type) := by
  apply Keeps.andThen (.inspect (by simp))
  intro base
  cases base with
  | none => exact .pure trivial
  | some base =>
    apply Keeps.andThen (.inspect (by simp))
    intro args
    exact .mapM fun part _ => instantiate_keeps closed.toSubstitutable part _

theorem directSupertypes_keeps (type : TypeRef) : Keeps kind (hierarchy.directSupertypes type) :=
  instantiateParts_keeps closed _ type

theorem componentsOf_keeps (type : TypeRef) : Keeps kind (hierarchy.componentsOf type) :=
  instantiateParts_keeps closed _ type

theorem ancestorsFrom_keeps : ∀ (fuel : Nat) (queue : List TypeRef) (seen : List Name),
    Keeps kind (hierarchy.ancestorsFrom fuel queue seen)
  | 0, [], _ => .pure trivial
  | _ + 1, [], _ => .pure trivial
  | 0, _ :: _, _ => .fails rfl
  | fuel + 1, type :: queue, seen => by
    apply Keeps.andThen (.inspect (by simp))
    intro base
    cases base with
    | none => exact ancestorsFrom_keeps fuel queue seen
    | some base =>
      dsimp only
      split
      · exact ancestorsFrom_keeps fuel queue seen
      · apply Keeps.andThen (directSupertypes_keeps closed type)
        intro supers
        exact .andThen (ancestorsFrom_keeps fuel _ _) fun _ => .pure trivial

theorem ancestors_keeps (type : TypeRef) : Keeps kind (hierarchy.ancestors type) :=
  ancestorsFrom_keeps closed _ _ _

omit closed in
theorem findBase?_keeps (target : Name) (types : List TypeRef) :
    Keeps kind (findBase? target types) :=
  (keeping kind).findM? fun _ _ => Keeps.andThen (.inspect (by simp)) fun _ => .pure trivial

theorem ancestorAt?_keeps (type : TypeRef) (target : Name) :
    Keeps kind (hierarchy.ancestorAt? type target) :=
  .andThen (ancestors_keeps closed type) fun _ => findBase?_keeps target _

theorem inferWithin_keeps : ∀ (depth : Nat) (subst : Substitution) (formal actual : TypeRef),
    Keeps kind (hierarchy.inferWithin depth subst formal actual)
  | 0, _, _, _ => .fails rfl
  | depth + 1, subst, formal, actual => by
    unfold inferWithin
    split
    · exact .pure trivial
    apply Keeps.andThen (.inspect (by simp))
    intro node
    cases node with
    | var param variance =>
      dsimp only
      split
      · exact .pure trivial
      apply Keeps.andThen (.inspect (by simp))
      intro given
      split <;> exact .pure trivial
    | applied base args =>
      apply Keeps.andThen (ancestorAt?_keeps closed actual base)
      intro ancestor
      cases ancestor with
      | none => exact .pure trivial
      | some ancestor =>
        apply Keeps.andThen (.inspect (by simp))
        intro actuals
        exact (keeping kind).foldlM trivial fun pair _ subst _ =>
          inferWithin_keeps depth subst pair.1 pair.2
    | wildcard variance bound => exact inferWithin_keeps depth subst bound actual
    | _ => exact .pure trivial

theorem infer_keeps (subst : Substitution) (formal actual : TypeRef) :
    Keeps kind (hierarchy.infer subst formal actual) :=
  .andThen .get fun _ => inferWithin_keeps closed _ subst formal actual

theorem narrow_keeps (variant : Name) (scrutinee : TypeRef) :
    Keeps kind (hierarchy.narrow variant scrutinee) := by
  unfold narrow
  dsimp only
  split
  · exact class_keeps closed variant
  apply Keeps.andThen (selfType_keeps closed variant)
  intro generic
  apply Keeps.andThen (.inspect (by simp))
  intro base
  have complete : ∀ inferred : Substitution, Keeps kind (do
      let complete ← (hierarchy.typeParams variant).foldlM (fun subst param =>
        if subst.contains param then return subst
        else return subst.bind param (← PoolM.anyWildcard)) inferred
      instantiate generic complete) := by
    intro inferred
    apply Keeps.andThen ((keeping kind).foldlM trivial fun param _ subst _ => ?_)
    · intro subst
      exact instantiate_keeps closed.toSubstitutable generic subst
    · split
      · exact Keeps.pure trivial
      · exact Keeps.andThen (anyWildcard_keeps closed) fun _ => .pure trivial
  cases base with
  | none => exact complete {}
  | some base =>
    apply Keeps.andThen (ancestorAt?_keeps closed generic base)
    intro ancestor
    cases ancestor with
    | none => exact complete {}
    | some ancestor => exact .andThen (infer_keeps closed {} ancestor scrutinee) complete

omit closed in
theorem triviallyRelated_keeps (first second : TypeRef) :
    Keeps kind (triviallyRelated first second) := by
  unfold triviallyRelated
  split
  · exact .pure trivial
  apply Keeps.andThen (.inspect (by simp))
  intro lenient
  split
  · exact .pure trivial
  · exact .inspect (by simp)

/-! Relations, given that those for smaller depth enter only what is allowed. -/

section
variable {deeper : TypeTest} (below : ∀ first second, Keeps kind (deeper first second))
include below

omit closed in
theorem wildcardContains_keeps (sup sub : TypeRef) :
    Keeps kind (wildcardContains deeper sup sub) := by
  apply Keeps.andThen (.inspect (by simp))
  intro outer
  cases outer with
  | wildcard variance bound =>
    apply Keeps.andThen (.inspect (by simp))
    intro inner
    cases variance with
    | invariant => exact .pure trivial
    | covariant =>
      have upTo : ∀ upper : TypeRef,
          Keeps kind (if upper = .any then pure false else deeper bound upper) := by
        intro upper
        split
        · exact .pure trivial
        · exact below bound upper
      dsimp only
      split
      · exact .pure trivial
      · exact upTo _
    | contravariant =>
      dsimp only
      split
      · exact below _ _
      · exact .pure trivial
      · exact below _ _
  | _ => exact .pure trivial

omit closed in
theorem argumentContains_keeps (declared : Variance) (sup sub : TypeRef) :
    Keeps kind (argumentContains deeper declared sup sub) := by
  apply Keeps.andThen (triviallyRelated_keeps sup sub)
  intro related
  split
  · exact .pure trivial
  apply Keeps.andThen (.inspect (by simp))
  intro outer
  split
  · exact wildcardContains_keeps below sup sub
  apply Keeps.andThen (.inspect (by simp))
  intro inner
  split
  · exact .pure trivial
  cases declared with
  | invariant => exact .pure trivial
  | _ => exact below _ _

omit closed below in
theorem declaredVariance_keeps (params : List ParamRef) (position : Nat) :
    Keeps kind (declaredVariance params position) := by
  unfold declaredVariance
  split
  · exact .andThen (.inspect (by simp)) fun _ => .pure trivial
  · exact .pure trivial

omit closed in
theorem argumentsContain_keeps (params : List ParamRef) :
    ∀ (position : Nat) (sups subs : List TypeRef),
      Keeps kind (argumentsContain deeper params position sups subs)
  | _, [], _ => .pure trivial
  | _, _ :: _, [] => .pure trivial
  | position, sup :: sups, sub :: subs => by
    apply Keeps.andThen (declaredVariance_keeps params position)
    intro declared
    apply Keeps.andThen (argumentContains_keeps below declared sup sub)
    intro contained
    split
    · exact argumentsContain_keeps params (position + 1) sups subs
    · exact .pure trivial

theorem classSupertype_keeps (sup : TypeNode) (sub : TypeRef) :
    Keeps kind (hierarchy.classSupertype deeper sup sub) := by
  cases sup with
  | class_ base => exact .andThen (ancestorAt?_keeps closed sub base) fun _ => .pure trivial
  | applied base args =>
    apply Keeps.andThen (ancestorAt?_keeps closed sub base)
    intro ancestor
    cases ancestor with
    | none => exact .pure trivial
    | some ancestor =>
      apply Keeps.andThen (.inspect (by simp))
      intro actuals
      split
      · exact .pure trivial
      · exact argumentsContain_keeps below _ _ _ _
  | _ => exact .pure trivial

theorem structuralSupertype_keeps (sup sub : TypeRef) :
    Keeps kind (hierarchy.structuralSupertype deeper sup sub) := by
  apply Keeps.andThen (.inspect (by simp))
  intro outer
  split
  · apply Keeps.andThen (.inspect (by simp))
    intro bound
    split
    · exact below _ _
    · exact below _ _
    · exact .pure trivial
  · exact wildcardContains_keeps below sup sub
  · apply Keeps.andThen (.inspect (by simp))
    intro inner
    split
    · apply Keeps.andThen (.inspect (by simp))
      intro declared
      exact (keeping kind).anyM fun bound _ => below sup bound
    · exact below _ _
    · exact .pure trivial
    · exact classSupertype_keeps closed below outer sub

end

theorem isSupertypeWithin_keeps : ∀ (depth : Nat) (sup sub : TypeRef),
    Keeps kind (hierarchy.isSupertypeWithin depth sup sub)
  | 0, sup, sub => triviallyRelated_keeps sup sub
  | depth + 1, sup, sub => by
    apply Keeps.andThen (triviallyRelated_keeps sup sub)
    intro related
    split
    · exact .pure trivial
    · exact structuralSupertype_keeps closed (isSupertypeWithin_keeps depth) sup sub

theorem isSupertype_keeps (sup sub : TypeRef) : Keeps kind (hierarchy.isSupertype sup sub) :=
  isSupertypeWithin_keeps closed _ sup sub

omit closed in
theorem erasureWithin_keeps : ∀ (depth : Nat) (type : TypeRef),
    Keeps kind (erasureWithin depth type)
  | 0, _ => .pure trivial
  | depth + 1, type => by
    apply Keeps.andThen (.inspect (by simp))
    intro node
    cases node with
    | var param variance =>
      exact .andThen (.inspect (by simp)) fun bound => erasureWithin_keeps depth bound
    | wildcard variance bound => exact erasureWithin_keeps depth bound
    | _ => exact .pure trivial

theorem isSuperclassWithin_keeps : ∀ (depth : Nat) (sup sub : TypeRef),
    Keeps kind (hierarchy.isSuperclassWithin depth sup sub)
  | 0, sup, sub => triviallyRelated_keeps sup sub
  | depth + 1, sup, sub => by
    apply Keeps.andThen (triviallyRelated_keeps sup sub)
    intro related
    split
    · exact .pure trivial
    apply Keeps.andThen (erasureWithin_keeps 64 sup)
    intro target
    cases target with
    | none => exact .pure trivial
    | some target =>
      apply Keeps.andThen (.inspect (by simp))
      intro node
      split
      · apply Keeps.andThen (.inspect (by simp))
        intro declared
        exact (keeping kind).anyM fun bound _ => isSuperclassWithin_keeps depth sup bound
      · exact isSuperclassWithin_keeps depth sup _
      · exact .andThen (ancestorAt?_keeps closed sub target) fun _ => .pure trivial

theorem isSuperclass_keeps (sup sub : TypeRef) : Keeps kind (hierarchy.isSuperclass sup sub) :=
  isSuperclassWithin_keeps closed _ sup sub

theorem withinBound_keeps (bound argument : TypeRef) :
    Keeps kind (hierarchy.withinBound bound argument) := by
  apply Keeps.andThen (.inspect (by simp))
  intro node
  split
  · apply Keeps.andThen (isSupertype_keeps closed bound _)
    intro fits
    split
    · exact .pure trivial
    · exact isSupertype_keeps closed _ _
  · exact .pure trivial
  · exact isSupertype_keeps closed _ _

theorem violatedBound?_keeps (param : ParamRef) (argument : TypeRef) (subst : Substitution) :
    Keeps kind (hierarchy.violatedBound? param argument subst) := by
  apply Keeps.andThen (.inspect (by simp))
  intro declared
  apply (keeping kind).findSomeM?
  intro bound _
  apply Keeps.andThen (instantiate_keeps closed.toSubstitutable bound subst)
  intro bound
  apply Keeps.andThen (withinBound_keeps closed bound argument)
  intro fits
  split <;> exact Keeps.pure trivial

end ClassHierarchy
end ClassLang
