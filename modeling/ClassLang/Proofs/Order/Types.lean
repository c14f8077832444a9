import ClassLang.Proofs.Order.Renaming
import ClassLang.Proofs.Type.Tree

/-! Types in two pools. Both pools are filled on the way to pools that are known, where a renaming
carries the entries of one to those of the other. Then computations on renamed types come to renamed
results, whatever else was entered before. -/

namespace ClassLang

namespace Renaming

/-- Of an entry and its number in either pool, each determines the other. -/
structure Carries (rename : Renaming) (first second : TypePool) : Prop where
  nodes : ∀ (type : TypeRef) (node node' : TypeNode), first.types[type.raw]? = some node →
    second.types[(rename.on type).raw]? = some node' → node' = rename.on node
  handles : ∀ (type type' : TypeRef) (node : TypeNode), first.find? node = some type →
    second.find? (rename.on node) = some type' → type' = rename.on type

/-- Corresponding parameters are declared alike; their bounds may not be known yet. -/
def Declares (rename : Renaming) (params params' : Array TypeParam) : Prop :=
  ∀ (param : ParamRef) (declared declared' : TypeParam), params[param.raw]? = some declared →
    params'[(rename.on param).raw]? = some declared' →
      declared' = { declared with bounds := declared'.bounds }

/-- Corresponding parameters have corresponding bounds. -/
def Bounds (rename : Renaming) (params params' : Array TypeParam) : Prop :=
  ∀ (param : ParamRef) (declared declared' : TypeParam), params[param.raw]? = some declared →
    params'[(rename.on param).raw]? = some declared' → declared' = rename.on declared

theorem Bounds.declares {rename : Renaming} {params params' : Array TypeParam}
    (bounds : rename.Bounds params params') : rename.Declares params params' := by
  intro param declared declared' found found'
  rw [bounds param declared declared' found found']
  rfl

/-- What is asked about a class has corresponding answers. -/
structure Classes (rename : Renaming) (hierarchy hierarchy' : ClassHierarchy) : Prop where
  superclass : ∀ name, hierarchy'.superclass name = rename.on (hierarchy.superclass name)
  interfaces : ∀ name, hierarchy'.interfaces name = rename.on (hierarchy.interfaces name)
  typeParams : ∀ name, hierarchy'.typeParams name = rename.on (hierarchy.typeParams name)
  variants : ∀ name, hierarchy'.variants name = hierarchy.variants name
  isAbstract : ∀ name, hierarchy'.isAbstract name = hierarchy.isAbstract name
  components : ∀ name, hierarchy'.components name = rename.on (hierarchy.components name)

end Renaming

theorem TypePool.lookup_of_param {pool : TypePool} {param : ParamRef} {declared : TypeParam}
    (ran : pool.param param = .ok declared) : pool.params[param.raw]? = some declared := by
  unfold TypePool.param at ran
  split at ran
  · cases ran
    assumption
  · cases ran

/-- Two runs to be compared: the pools that they lead to, and the parameters that they have. -/
structure Comparison where
  rename : Renaming
  first : TypePool
  second : TypePool
  carries : rename.Carries first second
  params : Array TypeParam
  params' : Array TypeParam
  declares : rename.Declares params params'

namespace Comparison

/-- Types are entered, and parameters stay as they are. -/
def pools (compare : Comparison) : Setting TypePool where
  leads := TypePool.Extends
  left pool := pool.params = compare.params
  right pool := pool.params = compare.params'
  fits pool pool' := TypePool.Prefix pool compare.first ∧ TypePool.Prefix pool' compare.second
  alike _ _ := True
  sees _ _ := True
  refl := .refl
  trans := .trans
  keepLeft led equal := led.params.trans equal
  keepRight led same := led.params.trans same
  fits_of_leads led led' fits := ⟨led.types.trans fits.1, led'.types.trans fits.2⟩
  sees_of_alike _ _ _ := trivial
  exists_right _ := ⟨{ params := compare.params' }, rfl, trivial⟩
  exists_left _ := ⟨{ params := compare.params }, rfl, trivial⟩

/-- Computations on types come to corresponding results. -/
abbrev Agrees {α : Type} [Renamable α] (compare : Comparison) (first second : PoolM α) : Prop :=
  compare.pools.Agree compare.rename.on first second

/-- Pools of the two runs that are on the way. -/
structure Holds (compare : Comparison) (pool pool' : TypePool) : Prop where
  left : pool.params = compare.params
  right : pool'.params = compare.params'
  first : TypePool.Prefix pool compare.first
  second : TypePool.Prefix pool' compare.second

variable {compare : Comparison}

/-- What follows a result without numbers follows the same result. -/
theorem bindPlain {α β : Type} [Plain α] [Renamable β] {first second : PoolM α}
    {rest rest' : α → PoolM β} (done : compare.Agrees first second)
    (goesOn : ∀ result, compare.Agrees (rest result) (rest' result)) :
    compare.Agrees (first >>= rest) (second >>= rest') :=
  Setting.Agree.bindPlain done goesOn

/-! Reading a pool. -/

theorem inspect {α : Type} [Renamable α] {query query' : TypePool → Except Abort α}
    (each : ∀ pool pool', compare.Holds pool pool' →
      Corresponds compare.rename.on (query pool) (query' pool')) :
    compare.Agrees (PoolM.inspect query) (PoolM.inspect query') :=
  .ask fun pool pool' left right fits _ => each pool pool' ⟨left, right, fits.1, fits.2⟩

namespace Holds

variable {pool pool' : TypePool} (holds : compare.Holds pool pool')
include holds

theorem node (type : TypeRef) :
    Corresponds compare.rename.on (pool.node type) (pool'.node (compare.rename.on type)) := by
  intro node node' ran known'
  exact compare.carries.nodes type node node'
    (holds.first.entries _ _ (TypePool.lookup_of_node ran))
    (holds.second.entries _ _ (TypePool.lookup_of_node known'))

theorem baseName? (type : TypeRef) :
    Corresponds compare.rename.on (pool.baseName? type)
      (pool'.baseName? (compare.rename.on type)) := by
  refine (holds.node type).bind fun node => ?_
  cases node <;> exact .ok rfl

theorem args (type : TypeRef) :
    Corresponds compare.rename.on (pool.args type) (pool'.args (compare.rename.on type)) := by
  refine (holds.node type).bind fun node => ?_
  cases node <;> exact .ok rfl

theorem isUnresolved (type : TypeRef) :
    Corresponds compare.rename.on (pool.isUnresolved type)
      (pool'.isUnresolved (compare.rename.on type)) := by
  refine (holds.node type).bind fun node => ?_
  cases node <;> exact .ok rfl

theorem isLenient (type : TypeRef) :
    Corresponds compare.rename.on (pool.isLenient type)
      (pool'.isLenient (compare.rename.on type)) := by
  unfold TypePool.isLenient
  simp only [compare.rename.on_eq_iff compare.rename.on_any]
  split
  · exact .ok rfl
  · exact holds.isUnresolved type

theorem containsUnresolvedWithin : ∀ (depth depth' : Nat) (type : TypeRef),
    Corresponds compare.rename.on (pool.containsUnresolvedWithin depth type)
      (pool'.containsUnresolvedWithin depth' (compare.rename.on type))
  | 0, _, _ => .failLeft _
  | _, 0, _ => .failRight _
  | depth + 1, depth' + 1, type => by
    refine (holds.node type).bind fun node => ?_
    cases node with
    | applied base args =>
      refine (Corresponds.anyM fun arg _ => ?_).congr compare.rename.on_eq_refl.symm
      exact (containsUnresolvedWithin depth depth' arg).congr compare.rename.on_eq_refl
    | wildcard variance bound => exact containsUnresolvedWithin depth depth' bound
    | _ => exact .ok rfl

theorem containsUnresolved (type : TypeRef) :
    Corresponds compare.rename.on (pool.containsUnresolved type)
      (pool'.containsUnresolved (compare.rename.on type)) :=
  holds.containsUnresolvedWithin _ _ type

/-- Name, owner and variance of a parameter. -/
theorem param (param : ParamRef) {declared declared' : TypeParam}
    (ran : pool.param param = .ok declared)
    (known' : pool'.param (compare.rename.on param) = .ok declared') :
    declared' = { declared with bounds := declared'.bounds } :=
  compare.declares param _ _ (holds.left ▸ TypePool.lookup_of_param ran)
    (holds.right ▸ TypePool.lookup_of_param known')

/-- A text about a type is the same. -/
theorem displayWithin : ∀ (depth depth' : Nat) (type : TypeRef),
    Corresponds compare.rename.on (pool.displayWithin depth type)
      (pool'.displayWithin depth' (compare.rename.on type))
  | 0, _, _ => .failLeft _
  | _, 0, _ => .failRight _
  | depth + 1, depth' + 1, type => by
    unfold TypePool.displayWithin
    rw [compare.rename.isAbsent_on]
    split
    · exact .ok rfl
    · refine (holds.node type).bind fun node => ?_
      cases node with
      | applied base args =>
        refine Corresponds.bind (Corresponds.mapM fun arg _ => displayWithin depth depth' arg)
          fun shown => .ok ?_
        change _ = base ++ "<" ++ ", ".intercalate shown ++ ">"
        rw [show Equiv.listEquivOfEquiv _ shown = shown from compare.rename.on_plain shown]
      | var param variance =>
        intro _ _ ran known'
        obtain ⟨declared, asked, answer⟩ := Except.bind_eq_ok ran
        obtain ⟨declared', asked', answer'⟩ := Except.bind_eq_ok known'
        cases answer
        cases answer'
        rw [holds.param param asked asked']
        rfl
      | wildcard variance bound =>
        cases variance with
        | invariant => exact .ok rfl
        | covariant => exact (displayWithin depth depth' bound).bind fun shown => .ok rfl
        | contravariant => exact (displayWithin depth depth' bound).bind fun shown => .ok rfl
      | _ => exact .ok rfl

theorem display (type : TypeRef) :
    Corresponds compare.rename.on (pool.display type) (pool'.display (compare.rename.on type)) :=
  holds.displayWithin _ _ type

/-- A declared parameter, bounds included. -/
theorem boundedParam (bounded : compare.rename.Bounds compare.params compare.params')
    (param : ParamRef) :
    Corresponds compare.rename.on (pool.param param) (pool'.param (compare.rename.on param)) :=
  fun _ _ ran known' => bounded param _ _ (holds.left ▸ TypePool.lookup_of_param ran)
    (holds.right ▸ TypePool.lookup_of_param known')

theorem upperBound (bounded : compare.rename.Bounds compare.params compare.params')
    (param : ParamRef) :
    Corresponds compare.rename.on (pool.upperBound param)
      (pool'.upperBound (compare.rename.on param)) := by
  unfold TypePool.upperBound
  rw [show ∀ (answer : Except Abort TypeParam),
    answer.map (fun declared => declared.bounds.headD .any) = answer >>= fun declared =>
      .ok (declared.bounds.headD .any) from fun answer => by
      cases answer <;> rfl]
  exact (holds.boundedParam bounded param).bind fun declared =>
    .ok (compare.rename.headD_any_on declared.bounds)

end Holds

/-! Entering types. -/

theorem intern_agrees (node : TypeNode) :
    compare.Agrees (PoolM.intern node) (PoolM.intern (compare.rename.on node)) := by
  have interned : ∀ {node : TypeNode} {pool after : TypePool} {type : TypeRef},
      (PoolM.intern node).run pool = .ok (type, after) →
        pool.Extends after ∧ after.find? node = some type := by
    intro node pool after type ran
    obtain ⟨rfl, rfl⟩ := Prod.mk.inj (Except.ok.inj ran)
    exact ⟨TypePool.intern_extends, TypePool.find?_intern_self⟩
  refine ⟨fun _ _ _ _ ran => (interned ran).1, fun _ _ _ _ ran => (interned ran).1, ?_⟩
  intro pool pool' _ _ _ type after type' after' ran ran' fits
  exact ⟨compare.carries.handles type type' node (fits.1.handles _ _ (interned ran).2)
    (fits.2.handles _ _ (interned ran').2), trivial⟩

theorem class_agrees (name : Name) : compare.Agrees (PoolM.class_ name) (PoolM.class_ name) :=
  intern_agrees (.class_ name)

theorem unresolved_agrees (name : Name) :
    compare.Agrees (PoolM.unresolved name) (PoolM.unresolved name) :=
  intern_agrees (.unresolved name)

theorem applied_agrees (base : Name) (args : List TypeRef) :
    compare.Agrees (PoolM.applied base args) (PoolM.applied base (compare.rename.on args)) := by
  unfold PoolM.applied
  rw [compare.rename.isEmpty_on]
  split
  · exact class_agrees base
  · exact intern_agrees (.applied base args)

theorem wildcard_agrees (variance : Variance) (bound : TypeRef) :
    compare.Agrees (PoolM.wildcard variance bound)
      (PoolM.wildcard variance (compare.rename.on bound)) :=
  intern_agrees (.wildcard variance bound)

theorem anyWildcard_agrees : compare.Agrees PoolM.anyWildcard PoolM.anyWildcard := by
  have same : compare.Agrees PoolM.anyWildcard
      (PoolM.wildcard .invariant (compare.rename.on .any)) :=
    wildcard_agrees .invariant .any
  rwa [compare.rename.on_any] at same

/-- The variance of a parameter is known before its bounds are. -/
theorem variance_agrees (param : ParamRef) :
    compare.Agrees (PoolM.inspect fun pool => return (← pool.param param).variance)
      (PoolM.inspect fun pool => return (← pool.param (compare.rename.on param)).variance) := by
  refine inspect fun pool pool' holds => ?_
  intro variance variance' ran known'
  obtain ⟨declared, asked, answer⟩ := Except.bind_eq_ok ran
  obtain ⟨declared', asked', answer'⟩ := Except.bind_eq_ok known'
  cases answer
  cases answer'
  rw [holds.param param asked asked']
  rfl

theorem node_agrees (type : TypeRef) :
    compare.Agrees (PoolM.inspect (·.node type))
      (PoolM.inspect (·.node (compare.rename.on type))) :=
  inspect fun _ _ holds => holds.node type

theorem baseName?_agrees (type : TypeRef) :
    compare.Agrees (PoolM.inspect (·.baseName? type))
      (PoolM.inspect (·.baseName? (compare.rename.on type))) :=
  inspect fun _ _ holds => holds.baseName? type

theorem args_agrees (type : TypeRef) :
    compare.Agrees (PoolM.inspect (·.args type))
      (PoolM.inspect (·.args (compare.rename.on type))) :=
  inspect fun _ _ holds => holds.args type

theorem isLenient_agrees (type : TypeRef) :
    compare.Agrees (PoolM.inspect (·.isLenient type))
      (PoolM.inspect (·.isLenient (compare.rename.on type))) :=
  inspect fun _ _ holds => holds.isLenient type

theorem var_agrees (param : ParamRef) :
    compare.Agrees (PoolM.var param) (PoolM.var (compare.rename.on param)) := by
  have split : ∀ param : ParamRef, PoolM.var param =
      PoolM.inspect (fun pool => return (← pool.param param).variance) >>= fun variance =>
        PoolM.intern (.var param variance) := by
    intro param
    unfold PoolM.var PoolM.inspect
    simp only [bind_assoc]
    congr
    funext pool
    cases pool.param param <;> rfl
  rw [split, split]
  exact (variance_agrees param).bind fun variance => intern_agrees (.var param variance)

/-! Replacing variables. -/

theorem instantiateWithin_agrees (subst : Substitution) (depth depth' : Nat) (type : TypeRef) :
    compare.Agrees (instantiateWithin subst depth type)
      (instantiateWithin (compare.rename.on subst) depth' (compare.rename.on type)) := by
  refine Setting.Agree.fuel (instantiateWithin subst)
    (fun depth type => instantiateWithin (compare.rename.on subst) depth (compare.rename.on type))
    (fun _ => .inl ⟨_, rfl, rfl⟩) (fun depth depth' ih type => ?_) depth depth' type
  simp only [instantiateWithin]
  rw [Substitution.isEmpty_on, compare.rename.isPrimitive_on, compare.rename.isAbsent_on]
  refine .ite Iff.rfl (fun _ => .pure rfl) fun _ => (node_agrees type).bind fun node => ?_
  cases node with
  | var param variance =>
    refine .pure ?_
    rw [Substitution.get?_on]
    cases subst.get? param <;> rfl
  | applied base args =>
    refine (Setting.Agree.mapM_on fun arg _ => ih arg).bind fun replaced => ?_
    exact .ite compare.rename.on_inj (fun _ => .pure rfl) fun _ =>
      intern_agrees (.applied base replaced)
  | wildcard variance bound =>
    refine (ih bound).bind fun replaced => ?_
    refine .ite compare.rename.on_inj (fun _ => .pure rfl) fun _ => ?_
    refine (node_agrees replaced).bind fun inner => ?_
    cases inner with
    | wildcard direction innerBound =>
      exact .ite Iff.rfl (fun _ => wildcard_agrees variance innerBound) fun _ => anyWildcard_agrees
    | _ => exact .ite Iff.rfl (fun _ => .pure rfl) fun _ => wildcard_agrees variance replaced
  | _ => exact .pure rfl

theorem instantiate_agrees (type : TypeRef) (subst : Substitution) :
    compare.Agrees (instantiate type subst)
      (instantiate (compare.rename.on type) (compare.rename.on subst)) :=
  .get fun _ _ _ _ _ => instantiateWithin_agrees subst _ _ type

end Comparison
end ClassLang
