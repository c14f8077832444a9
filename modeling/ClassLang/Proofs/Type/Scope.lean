import ClassLang.Proofs.Pledge
import ClassLang.Proofs.Type.Building
import ClassLang.Proofs.Type.Entries
import ClassLang.Proofs.Type.Instantiation
import ClassLang.Type.Fault

/-! The type variables that occur in a type. What the operations of the type model build has no
variables but those of the types they are asked about, as long as each class is used with an
argument for every parameter. -/

namespace ClassLang

/-- The entry is that of the type or of a part of it, at any depth. -/
inductive TypePool.Occurs (pool : TypePool) (node : TypeNode) : TypeRef → Prop where
  | here {type : TypeRef} (found : pool.types[type.raw]? = some node) : Occurs pool node type
  | part {type inner : TypeRef} {outer : TypeNode} (found : pool.types[type.raw]? = some outer)
      (listed : inner ∈ outer.parts) (below : Occurs pool node inner) : Occurs pool node type

/-- Some type parameters. -/
abbrev ParamSet := ParamRef → Prop

/-- What types are judged by: a pool, the type parameters of the classes, and the parameters that
may occur anywhere because nothing may be bound to them. -/
structure Scoping where
  pool : TypePool
  primitives : TypePool.Prefix {} pool
  lockstep : pool.Lockstep
  small : pool.Small
  typeParams : Name → List ParamRef
  loose : ParamSet

namespace Scoping
variable (scoping : Scoping)

/-- What an entry may be where the parameters of a scope are known. -/
def Allows (scope : ParamSet) : TypeNode → Prop
  | .var param _ => scope param ∨ scoping.loose param
  | .class_ name => ∀ param ∈ scoping.typeParams name, scoping.loose param
  | .applied base args => args.length = (scoping.typeParams base).length
  | .wildcard variance bound => variance = .invariant → bound = .any
  | _ => True

/-- All that occurs in the type is allowed. -/
def Over (scope : ParamSet) (type : TypeRef) : Prop :=
  ∀ node, scoping.pool.Occurs node type → scoping.Allows scope node

/-- Types over the parameters of `inner` become types over those of `outer`. -/
structure Carries (subst : Substitution) (inner outer : ParamSet) : Prop where
  bound : ∀ param type, subst.get? param = some type → scoping.Over outer type
  unbound : ∀ param, inner param → subst.get? param = none → outer param ∨ scoping.loose param

/-- What is declared for a class is over its own parameters. -/
structure Describes (hierarchy : ClassHierarchy) : Prop where
  typeParams : hierarchy.typeParams = scoping.typeParams
  supertypes : ∀ name, ∀ type ∈ hierarchy.supertypes name,
    scoping.Over (· ∈ scoping.typeParams name) type
  components : ∀ name, ∀ type ∈ hierarchy.components name,
    scoping.Over (· ∈ scoping.typeParams name) type

variable {scoping : Scoping} {scope inner outer : ParamSet} {type : TypeRef} {node : TypeNode}
  {variance : Variance} {subst : Substitution}

theorem Allows.mono (allowed : scoping.Allows inner node)
    (wider : ∀ param, inner param → outer param ∨ scoping.loose param) :
    scoping.Allows outer node := by
  cases node with
  | var param variance => exact allowed.elim (wider param) .inr
  | _ => exact allowed

namespace Over

theorem allows (ranges : scoping.Over scope type)
    (found : scoping.pool.types[type.raw]? = some node) :
    scoping.Allows scope node :=
  ranges node (.here found)

theorem part {part : TypeRef} (ranges : scoping.Over scope type)
    (found : scoping.pool.types[type.raw]? = some node) (listed : part ∈ node.parts) :
    scoping.Over scope part :=
  fun other occurs => ranges other (.part found listed occurs)

theorem of (found : scoping.pool.types[type.raw]? = some node) (allowed : scoping.Allows scope node)
    (parts : ∀ part ∈ node.parts, scoping.Over scope part) : scoping.Over scope type := by
  intro other occurs
  cases occurs with
  | here same =>
    cases found.symm.trans same
    exact allowed
  | part same listed below =>
    cases found.symm.trans same
    exact parts _ listed other below

theorem mono (ranges : scoping.Over inner type)
    (wider : ∀ param, inner param → outer param ∨ scoping.loose param) : scoping.Over outer type :=
  fun node occurs => (ranges node occurs).mono wider

theorem widen (ranges : scoping.Over inner type) (wider : ∀ param, inner param → outer param) :
    scoping.Over outer type :=
  ranges.mono fun param holds => .inl (wider param holds)

/-- The handle of no type has no entry. -/
theorem absent (none : type.isAbsent = true) : scoping.Over scope type := by
  have none : type = .absent := by simpa [TypeRef.isAbsent] using none
  have outside : scoping.pool.types[type.raw]? = Option.none := by
    rw [none]
    exact Array.getElem?_eq_none scoping.small
  intro node occurs
  cases occurs with
  | here found | part found => cases outside.symm.trans found

/-- Primitives have no variables. -/
theorem primitive (plain : type.isPrimitive = true) : scoping.Over scope type := by
  have atomic : ∀ index : Fin 7, ∃ node, ({} : TypePool).types[index.val]? = some node ∧
      node.parts = [] ∧ node ∈ [TypeNode.any, .void, .int, .float, .bool, .char, .string] := by
    decide
  obtain ⟨node, found, none, listed⟩ := atomic ⟨type.raw, of_decide_eq_true plain⟩
  refine of (scoping.primitives.entries _ _ found) ?_ (by simp [none])
  simp only [List.mem_cons, List.not_mem_nil, or_false] at listed
  rcases listed with rfl | rfl | rfl | rfl | rfl | rfl | rfl <;> exact trivial

theorem any : scoping.Over scope .any := primitive rfl

end Over

namespace Carries

theorem get (carries : scoping.Carries subst inner outer) (ranges : scoping.Over inner type)
    {param : ParamRef} (found : scoping.pool.types[type.raw]? = some (.var param variance)) :
    scoping.Over outer ((subst.get? param).getD type) := by
  cases missing : subst.get? param with
  | some bound => exact carries.bound param bound missing
  | none =>
    refine .of found ?_ (by simp [TypeNode.parts])
    exact (ranges.allows found).elim (fun own => carries.unbound param own missing) .inr

theorem empty : scoping.Carries {} (fun _ => False) outer :=
  ⟨by simp [Substitution.get?], fun _ => False.elim⟩

/-- A parameter that is bound to a type over the outer ones is carried, too. -/
theorem bind (carries : scoping.Carries subst inner outer) (ranges : scoping.Over outer type)
    (param : ParamRef) : scoping.Carries (subst.bind param type)
    (fun other => inner other ∨ other = param) outer := by
  refine ⟨fun other bound found => ?_, fun other own found => ?_⟩
  · rw [Substitution.get?_bind] at found
    split at found
    · cases found
      exact ranges
    · exact carries.bound other bound found
  · rw [Substitution.get?_bind] at found
    split at found
    · cases found
    · exact carries.unbound other (own.resolve_right ‹_›) found

theorem contains (carries : scoping.Carries subst inner outer) {param : ParamRef}
    (bound : subst.contains param) :
    scoping.Carries subst (fun other => inner other ∨ other = param) outer := by
  refine ⟨carries.bound, fun other own missing =>
    carries.unbound other (own.resolve_right ?_) missing⟩
  rintro rfl
  simp [Substitution.contains, missing] at bound

theorem mono {fewer : ParamSet} (carries : scoping.Carries subst inner outer)
    (narrower : ∀ param, fewer param → inner param) : scoping.Carries subst fewer outer :=
  ⟨carries.bound, fun param own => carries.unbound param (narrower param own)⟩

/-- Arguments that are as many as the parameters leave none of them open. -/
theorem zip :
    ∀ {params : List ParamRef} {args : List TypeRef} {subst : Substitution} {inner : ParamSet},
    args.length = params.length → (∀ arg ∈ args, scoping.Over outer arg) →
    scoping.Carries subst inner outer →
      scoping.Carries
        ((params.zip args).foldl (fun subst entry => subst.bind entry.1 entry.2) subst)
        (fun param => inner param ∨ param ∈ params) outer
  | [], _, _, _, _, _, carries => by simpa using carries
  | param :: rest, [], _, _, length, _, _ => nomatch length
  | param :: rest, arg :: args, _, _, length, ranges, carries => by
    have later := zip (Nat.succ.inj length)
      (fun other member => ranges other (List.mem_cons_of_mem _ member))
      (carries.bind (ranges arg List.mem_cons_self) param)
    simpa [or_assoc] using later

theorem ofArgs {params : List ParamRef} {args : List TypeRef} (length : args.length = params.length)
    (ranges : ∀ arg ∈ args, scoping.Over outer arg) :
    scoping.Carries (.ofArgs params args) (· ∈ params) outer := by
  simpa [Substitution.ofArgs] using zip length ranges .empty

/-- What is still open is bound to `any`. -/
theorem fillUnbound (carries : scoping.Carries subst inner outer) (params : List ParamRef) :
    scoping.Carries (subst.fillUnbound params).1
      (fun param => inner param ∨ param ∈ params) outer := by
  have filled :
      ∀ (params : List ParamRef) (state : Substitution × List TypeFault) (inner : ParamSet),
      scoping.Carries state.1 inner outer → scoping.Carries
        (params.foldl (fun state param => if state.1.contains param then (state.1, state.2)
          else (state.1.bind param .any, state.2 ++ [.unbound param])) state).1
        (fun param => inner param ∨ param ∈ params) outer := by
    intro params
    induction params with
    | nil => exact fun _ _ carries => by simpa using carries
    | cons param rest ih =>
      rintro ⟨subst, faults⟩ inner carries
      rw [List.foldl_cons]
      have later := ih (if subst.contains param then (subst, faults)
        else (subst.bind param .any, faults ++ [.unbound param]))
          (fun other => inner other ∨ other = param) (by
          split
          · exact carries.contains ‹_›
          · exact carries.bind .any param)
      simpa [or_assoc] using later
  exact filled params (subst, []) inner carries

end Carries

end Scoping

namespace TypePool
variable {before after : TypePool} {type : TypeRef}

theorem Prefix.node_eq (grown : before.Prefix after) {node : TypeNode}
    (asked : before.node type = .ok node) : after.node type = .ok node :=
  TypePool.node_eq (grown.entries _ _ (lookup_of_node asked))

theorem Prefix.baseName?_eq (grown : before.Prefix after) {base : Option Name}
    (asked : before.baseName? type = .ok base) : after.baseName? type = .ok base := by
  obtain ⟨node, read, answered⟩ := Except.bind_eq_ok asked
  unfold TypePool.baseName?
  rw [grown.node_eq read]
  exact answered

theorem Prefix.args_eq (grown : before.Prefix after) {args : List TypeRef}
    (asked : before.args type = .ok args) : after.args type = .ok args := by
  obtain ⟨node, read, answered⟩ := Except.bind_eq_ok asked
  unfold TypePool.args
  rw [grown.node_eq read]
  exact answered

end TypePool

namespace PoolM
variable {α β : Type} {scoping : Scoping} {params : Array TypeParam} {given : Prop}

/-- Computations that leave the entries in the pool they are judged by, and parameters as they
are. -/
abbrev judged (scoping : Scoping) (params : Array TypeParam) : Pledge PoolM :=
  Hindsight (·.Prefix scoping.pool) (·.params = params)

/-- What the action returns is as promised, as far as the pool that is judged by is a later one. -/
def Pledges (scoping : Scoping) (params : Array TypeParam) (given : Prop) (action : PoolM α)
    (post : α → Prop := fun _ => True) : Prop :=
  (judged scoping params).holds given action post

namespace Pledges
variable {post : β → Prop}

theorem pure {result : β} (holds : given → post result) : Pledges scoping params given
    (Pure.pure result) post :=
  (judged scoping params).pure holds

/-- Where nothing is found there is nothing to promise. -/
theorem none {post : α → Prop} : Pledges scoping params given (Pure.pure Option.none)
    fun found => ∀ result, found = some result → post result :=
  pure fun _ _ same => nomatch same

theorem bind {first : PoolM α} {next : α → PoolM β} {middle : α → Prop}
    (done : Pledges scoping params given first middle)
    (rest : ∀ result, Pledges scoping params (given ∧ middle result) (next result) post) :
    Pledges scoping params given (first >>= next) post :=
  (judged scoping params).bind done rest

theorem andThen {first : PoolM α} {next : α → PoolM β} (done : Pledges scoping params given first)
    (rest : ∀ result, Pledges scoping params given (next result) post) :
    Pledges scoping params given (first >>= next) post :=
  (judged scoping params).andThen done rest

theorem assume {action : PoolM β} {other : Prop} (weaken : other → given)
    (done : Pledges scoping params given action post) : Pledges scoping params other action post :=
  (judged scoping params).assume weaken done

theorem mono {action : PoolM β} {strong : β → Prop}
    (done : Pledges scoping params given action strong) (weaken : ∀ result, given → strong result →
      post result) : Pledges scoping params given action post :=
  (judged scoping params).mono done weaken

theorem fails {fault : Abort} : Pledges scoping params given (throw fault : PoolM β) post :=
  Hindsight.fails

theorem inspect {query : TypePool → Except Abort β}
    (all : ∀ pool answer, pool.Prefix scoping.pool → query pool = .ok answer → given →
      post answer) :
    Pledges scoping params given (PoolM.inspect query) post :=
  Hindsight.get fun pool => Hindsight.lift fun answer asked holds =>
    all pool answer holds.2.1 asked holds.1

/-- Nothing is to be known of an answer. -/
theorem ask {query : TypePool → Except Abort β} : Pledges scoping params given
    (PoolM.inspect query) :=
  inspect fun _ _ _ _ _ => trivial

theorem node {type : TypeRef} : Pledges scoping params given (PoolM.inspect (·.node type))
    fun node => scoping.pool.types[type.raw]? = some node :=
  inspect fun _ _ grown asked _ => grown.entries _ _ (TypePool.lookup_of_node asked)

theorem baseName? {type : TypeRef} : Pledges scoping params given (PoolM.inspect (·.baseName? type))
    fun base => scoping.pool.baseName? type = .ok base :=
  inspect fun _ _ grown asked _ => grown.baseName?_eq asked

theorem args {type : TypeRef} : Pledges scoping params given (PoolM.inspect (·.args type))
    fun args => scoping.pool.args type = .ok args :=
  inspect fun _ _ grown asked _ => grown.args_eq asked

theorem get {next : TypePool → PoolM β}
    (rest : ∀ pool, Pledges scoping params given (next pool) post) :
    Pledges scoping params given (MonadState.get >>= next) post :=
  Hindsight.get fun pool => assume And.left (rest pool)

theorem intern (node : TypeNode) : Pledges scoping params given (PoolM.intern node)
    fun type => scoping.pool.types[type.raw]? = some node := by
  intro start result final ran shown
  obtain ⟨rfl, rfl⟩ := Prod.mk.inj (Except.ok.inj ran)
  have extended : start.Extends (start.intern node).2 := TypePool.intern_extends
  have entered := shown.handles node _ TypePool.find?_intern_self
  exact ⟨extended.types.trans shown, fun _ kept =>
    ⟨extended.params.trans kept, (scoping.lockstep node _).mp entered⟩⟩

/-- An action of which only the entries are of interest. -/
theorem ofKeeps {action : PoolM α} (keeps : Keeps (fun _ => True) action) :
    Pledges scoping params given action := by
  intro start result final ran shown
  obtain ⟨extended, -, -⟩ := keeps.run (fun _ _ _ => trivial) ran
  exact ⟨extended.types.trans shown, fun _ kept => ⟨extended.params.trans kept, trivial⟩⟩

end Pledges

open Scoping
variable {scope inner outer : ParamSet}

theorem class_scoped (name : Name)
    (allowed : given → ∀ param ∈ scoping.typeParams name, scoping.loose param) :
    Pledges scoping params given (PoolM.class_ name) (scoping.Over scope) :=
  (Pledges.intern _).mono fun _ holds found => .of found (allowed holds) (by simp [TypeNode.parts])

theorem wildcard_scoped {variance : Variance} {bound : TypeRef}
    (ranges : given → scoping.Over scope bound)
    (open_ : given → variance = .invariant → bound = .any) :
    Pledges scoping params given (PoolM.wildcard variance bound) (scoping.Over scope) :=
  (Pledges.intern _).mono fun _ holds found =>
    .of found (open_ holds) (by simpa [TypeNode.parts] using ranges holds)

theorem anyWildcard_scoped : Pledges scoping params given PoolM.anyWildcard (scoping.Over scope) :=
  wildcard_scoped (fun _ => .any) fun _ _ => rfl

theorem var_scoped {param : ParamRef} (own : given → scope param) :
    Pledges scoping params given (PoolM.var param) (scoping.Over scope) :=
  .andThen .ask fun _ => (Pledges.intern _).mono fun _ holds found =>
    .of found (.inl (own holds)) (by simp [TypeNode.parts])

theorem applied_scoped {name : Name} {args : List TypeRef}
    (length : given → args.length = (scoping.typeParams name).length)
    (ranges : given → ∀ arg ∈ args, scoping.Over scope arg) :
    Pledges scoping params given (PoolM.applied name args) (scoping.Over scope) := by
  unfold PoolM.applied
  split
  · rename_i empty
    refine class_scoped name fun holds => ?_
    have none := length holds
    rw [List.isEmpty_iff.mp empty, eq_comm, List.length_nil, List.length_eq_zero_iff] at none
    simp [none]
  · exact (Pledges.intern _).mono fun _ holds found => .of found (length holds) (ranges holds)

theorem unresolved_scoped (name : Name) :
    Pledges scoping params given (PoolM.unresolved name) (scoping.Over scope) :=
  (Pledges.intern _).mono fun _ _ found => .of found trivial (by simp [TypeNode.parts])

/-- Replacing variables carries types from one scope to another. -/
theorem instantiateWithin_scoped {subst : Substitution} {depth : Nat} {type : TypeRef}
    {given : Prop} (carries : given → scoping.Carries subst inner outer)
    (ranges : given → scoping.Over inner type) :
    Pledges scoping params given (instantiateWithin subst depth type) (scoping.Over outer) := by
  induction depth generalizing type given with
  | zero => exact .fails
  | succ depth ih =>
    unfold instantiateWithin
    split
    · rename_i plain
      refine .pure fun holds => ?_
      simp only [Bool.or_eq_true] at plain
      rcases plain with (empty | primitive) | none
      · have none : ∀ param, subst.get? param = none := by
          have bare : subst.bindings = [] := List.isEmpty_iff.mp empty
          simp [Substitution.get?, bare]
        exact (ranges holds).mono fun param own => (carries holds).unbound param own (none param)
      · exact .primitive primitive
      · exact .absent none
    apply Pledges.bind .node
    intro node
    have unchanged : given ∧ scoping.pool.types[type.raw]? = some node →
        (∀ param variance, node ≠ .var param variance) →
        (∀ part ∈ node.parts, scoping.Over outer part) → scoping.Over outer type := by
      rintro ⟨holds, found⟩ plain parts
      refine .of found ?_ parts
      have allowed := (ranges holds).allows found
      cases node with
      | var param variance => exact absurd rfl (plain param variance)
      | _ => exact allowed
    cases node with
    | var param variance => exact .pure fun known => (carries known.1).get (ranges known.1) known.2
    | applied base args =>
      have each : ∀ arg ∈ args,
          Pledges scoping params (given ∧ scoping.pool.types[type.raw]? = some (.applied base args))
          (instantiateWithin subst depth arg) (scoping.Over outer) := fun arg member =>
        ih (fun known => carries known.1) fun known => (ranges known.1).part known.2 member
      apply Pledges.bind ((judged scoping params).mapM each)
      intro replaced
      split
      · rename_i same
        subst same
        exact .pure fun both => unchanged both.1 (by simp) both.2.2
      · refine (Pledges.intern _).mono fun _ both found => .of found ?_ both.2.2
        exact both.2.1.trans ((ranges both.1.1).allows both.1.2)
    | wildcard variance bound =>
      apply Pledges.bind (ih (fun known => carries known.1)
        fun known => (ranges known.1).part known.2 List.mem_cons_self)
      intro replaced
      split
      · rename_i same
        subst same
        exact .pure fun holding =>
          unchanged holding.1 (by simp) (by simpa [TypeNode.parts] using holding.2)
      apply Pledges.bind .node
      intro collapsed
      split
      · rename_i innerVariance innerBound
        split
        · rename_i same
          subst same
          exact wildcard_scoped (fun facts => facts.1.2.part facts.2 List.mem_cons_self)
            fun facts => facts.1.2.allows facts.2
        · exact anyWildcard_scoped
      · split
        · rename_i same
          refine .pure fun facts => unchanged facts.1.1 (by simp) ?_
          have open_ : bound = .any := (ranges facts.1.1.1).allows facts.1.1.2 same
          simpa [TypeNode.parts, open_] using Over.any
        · rename_i differs
          exact wildcard_scoped (fun facts => facts.1.2) fun _ same => absurd same differs
    | _ => exact .pure fun known => unchanged known (by simp) (by simp [TypeNode.parts])

theorem instantiate_scoped {subst : Substitution} {type : TypeRef}
    (carries : given → scoping.Carries subst inner outer)
    (ranges : given → scoping.Over inner type) :
    Pledges scoping params given (instantiate type subst) (scoping.Over outer) :=
  .get fun _ => instantiateWithin_scoped carries ranges

end PoolM

namespace ClassHierarchy
open PoolM

variable {scoping : Scoping} {params : Array TypeParam} {given : Prop} {scope inner : ParamSet}
    {type : TypeRef}
  {hierarchy : ClassHierarchy}

/-- The arguments of a type are over its scope. -/
theorem args_over {args : List TypeRef} (read : scoping.pool.args type = .ok args)
    (ranges : scoping.Over scope type) : ∀ arg ∈ args, scoping.Over scope arg := by
  obtain ⟨node, asked, answered⟩ := Except.bind_eq_ok read
  have found := TypePool.lookup_of_node asked
  cases node with
  | applied base args =>
    cases answered
    exact fun arg member => ranges.part found member
  | _ =>
    cases answered
    simp

variable (describes : given → scoping.Describes hierarchy)
include describes

/-- The arguments of a type carry what is declared for its class to the scope of the type. -/
theorem bindArgs_carries {base : Name} {args : List TypeRef} (holds : given)
    (named : scoping.pool.baseName? type = .ok (some base))
    (read : scoping.pool.args type = .ok args) (ranges : scoping.Over scope type) :
    scoping.Carries (hierarchy.bindArgs base args) (· ∈ scoping.typeParams base) scope := by
  unfold bindArgs
  rw [(describes holds).typeParams]
  have given_ := args_over read ranges
  obtain ⟨node, asked, answered⟩ := Except.bind_eq_ok named
  obtain ⟨other, again, listed⟩ := Except.bind_eq_ok read
  cases asked.symm.trans again
  have found := TypePool.lookup_of_node asked
  cases node with
  | applied name args =>
    cases answered
    cases listed
    exact Scoping.Carries.ofArgs (ranges.allows found) given_
  | class_ name =>
    cases answered
    cases listed
    exact ⟨by simp [Substitution.ofArgs, Substitution.get?], fun param own _ =>
      .inr (ranges.allows found param own)⟩
  | _ => cases answered

theorem selfType_scoped (name : Name) :
    Pledges scoping params given (hierarchy.selfType name)
      (scoping.Over (· ∈ scoping.typeParams name)) := by
  by_cases fails : given
  · unfold selfType
    rw [(describes fails).typeParams]
    apply Pledges.bind ((judged scoping params).mapM fun param member => var_scoped fun _ => member)
    exact fun vars => applied_scoped (fun facts => facts.2.1) fun facts => facts.2.2
  · exact .mono (.ofKeeps (selfType_keeps (inheritable_any hierarchy) name)) fun _ holds =>
      absurd holds fails

theorem instantiateParts_scoped {parts : Name → List TypeRef}
    (declared : given → ∀ name, ∀ part ∈ parts name,
      scoping.Over (· ∈ scoping.typeParams name) part)
    (ranges : given → scoping.Over scope type) :
    Pledges scoping params given (hierarchy.instantiateParts parts type)
      fun results => ∀ result ∈ results, scoping.Over scope result := by
  apply Pledges.bind .baseName?
  intro base
  cases base with
  | none => exact .pure fun _ => by simp
  | some base =>
    apply Pledges.bind .args
    intro args
    refine .mono ((judged scoping params).mapM fun part member => instantiate_scoped
      (fun facts => bindArgs_carries describes facts.1.1 facts.1.2 facts.2 (ranges facts.1.1))
      fun facts => declared facts.1.1 base part member) fun _ _ all => all.2

theorem directSupertypes_scoped (ranges : given → scoping.Over scope type) :
    Pledges scoping params given (hierarchy.directSupertypes type)
      fun supers => ∀ super ∈ supers, scoping.Over scope super :=
  instantiateParts_scoped describes (fun holds => (describes holds).supertypes) ranges

theorem componentsOf_scoped (ranges : given → scoping.Over scope type) :
    Pledges scoping params given (hierarchy.componentsOf type)
      fun components => ∀ component ∈ components, scoping.Over scope component :=
  instantiateParts_scoped describes (fun holds => (describes holds).components) ranges

omit describes in
theorem ancestorsFrom_scoped :
    ∀ {fuel : Nat} {queue : List TypeRef} {seen : List Name} {given : Prop},
    (given → scoping.Describes hierarchy) → (given → ∀ type ∈ queue, scoping.Over scope type) →
      Pledges scoping params given (hierarchy.ancestorsFrom fuel queue seen)
        fun ancestors => ∀ ancestor ∈ ancestors, scoping.Over scope ancestor
  | 0, [], _, _, _, _ => .pure fun _ => by simp
  | _ + 1, [], _, _, _, _ => .pure fun _ => by simp
  | 0, _ :: _, _, _, _, _ => .fails
  | fuel + 1, type :: queue, seen, given, describes, ranges => by
    have later : ∀ {given : Prop}, (given → ∀ other ∈ type :: queue, scoping.Over scope other) →
        given → ∀ other ∈ queue, scoping.Over scope other :=
      fun ranges holds other member => ranges holds other (List.mem_cons_of_mem _ member)
    apply Pledges.bind .baseName?
    intro base
    cases base with
    | none => exact ancestorsFrom_scoped (fun holding =>
      describes holding.1) fun holding => later ranges holding.1
    | some base =>
      dsimp only
      split
      · exact ancestorsFrom_scoped (fun holding => describes holding.1) fun holding =>
          later ranges holding.1
      · apply Pledges.bind (directSupertypes_scoped (fun holding => describes holding.1)
          fun holding => ranges holding.1 type List.mem_cons_self)
        intro supers
        apply Pledges.bind (ancestorsFrom_scoped (fun both => describes both.1.1)
          fun both other member => (List.mem_append.mp member).elim (later ranges both.1.1 other)
          (both.2 other))
        intro rest
        refine .pure fun facts ancestor member => ?_
        rcases List.mem_cons.mp member with rfl | above
        · exact ranges facts.1.1.1 ancestor List.mem_cons_self
        · exact facts.2 ancestor above

theorem ancestors_scoped (ranges : given → scoping.Over scope type) :
    Pledges scoping params given (hierarchy.ancestors type)
      fun ancestors => ∀ ancestor ∈ ancestors, scoping.Over scope ancestor :=
  ancestorsFrom_scoped describes fun holds => by simpa using ranges holds

theorem ancestorAt?_scoped (target : Name) (ranges : given → scoping.Over scope type) :
    Pledges scoping params given (hierarchy.ancestorAt? type target)
      fun found => ∀ ancestor, found = some ancestor → scoping.Over scope ancestor := by
  apply Pledges.bind (ancestors_scoped describes ranges)
  intro ancestors
  exact .mono ((judged scoping params).findM? fun ancestor _ => Pledges.andThen .ask fun _ =>
    .pure fun _ => trivial)
    fun _ facts found ancestor same => facts.2 ancestor (found ancestor same)

omit describes in
/-- What is inferred is over the scope of the actual type, whatever the formal one is, and what was
carried is. -/
theorem inferWithin_scoped :
    ∀ {depth : Nat} {subst : Substitution} {formal actual : TypeRef} {given : Prop},
    (given → scoping.Describes hierarchy) → (given → scoping.Carries subst inner scope) →
      (given → scoping.Over scope actual) →
      Pledges scoping params given (hierarchy.inferWithin depth subst formal actual)
        (scoping.Carries · inner scope)
  | 0, _, _, _, _, _, _, _ => .fails
  | depth + 1, subst, formal, actual, given, describes, carries, ranges => by
    unfold inferWithin
    split
    · exact .pure carries
    apply Pledges.andThen .ask
    intro node
    cases node with
    | var param variance =>
      have bound : ∀ type, given → scoping.Over scope type →
          scoping.Carries (subst.bind param type) inner scope :=
        fun _ holds ranged => ((carries holds).bind ranged param).mono fun _ => .inl
      dsimp only
      split
      · exact .pure carries
      apply Pledges.bind .node
      intro actualNode
      split
      · exact .pure fun holding =>
          bound _ holding.1 ((ranges holding.1).part holding.2 List.mem_cons_self)
      · exact .pure fun holding => bound _ holding.1 (ranges holding.1)
    | applied base args =>
      apply Pledges.bind (ancestorAt?_scoped describes base ranges)
      intro ancestor
      cases ancestor with
      | none => exact .pure fun known => carries known.1
      | some ancestor =>
        apply Pledges.bind .args
        intro actuals
        refine (judged scoping params).foldlM (fun both => carries both.1.1)
          fun pair member subst => ?_
        exact inferWithin_scoped (fun facts => describes facts.1.1.1) And.right fun facts =>
          args_over facts.1.2 (facts.1.1.2 ancestor rfl) pair.2 (List.of_mem_zip member).2
    | wildcard variance bound => exact inferWithin_scoped describes carries ranges
    | _ => exact .pure carries

theorem infer_scoped {subst : Substitution} {formal actual : TypeRef}
    (carries : given → scoping.Carries subst inner scope)
    (ranges : given → scoping.Over scope actual) :
    Pledges scoping params given (hierarchy.infer subst formal actual)
      (scoping.Carries · inner scope) :=
  .get fun _ => inferWithin_scoped describes carries ranges

omit describes in
/-- Parameters that are still open are bound to `?`. -/
theorem bindRest_scoped :
    ∀ {names : List ParamRef} {start : Substitution} {inner : ParamSet} {given : Prop},
    (given → scoping.Carries start inner scope) →
    Pledges scoping params given (names.foldlM (fun subst param =>
      if subst.contains param then return subst
      else return subst.bind param (← PoolM.anyWildcard)) start)
        (scoping.Carries · (fun param => inner param ∨ param ∈ names) scope)
  | [], _, _, _, carries => .pure fun holds => by simpa using carries holds
  | first :: rest, start, inner, given, carries => by
    have step : Pledges scoping params given (if start.contains first then pure start
        else do pure (start.bind first (← PoolM.anyWildcard)))
        (scoping.Carries · (fun param => inner param ∨ param = first) scope) := by
      split
      · exact .pure fun holds => (carries holds).contains ‹_›
      · exact .bind anyWildcard_scoped fun wildcard => .pure fun facts =>
          (carries facts.1).bind facts.2 first
    rw [List.foldlM_cons]
    apply Pledges.bind step
    intro next
    exact (bindRest_scoped And.right).mono fun _ _ carried => by simpa [or_assoc] using carried

/-- Each parameter of the variant is bound to what the scrutinee determines, or to `?`. -/
theorem narrow_scoped (variant : Name) {scrutinee : TypeRef}
    (ranges : given → scoping.Over scope scrutinee) :
    Pledges scoping params given (hierarchy.narrow variant scrutinee) (scoping.Over scope) := by
  unfold narrow
  dsimp only
  split
  · rename_i none
    refine class_scoped variant fun holds => ?_
    rw [← (describes holds).typeParams, List.isEmpty_iff.mp none]
    simp
  apply Pledges.bind (selfType_scoped describes variant)
  intro generic
  let given' := given ∧ scoping.Over (· ∈ scoping.typeParams variant) generic
  have completed (inferred : Substitution) :
      Pledges scoping params (given' ∧ scoping.Carries inferred (fun _ => False) scope) (do
        let complete ← (hierarchy.typeParams variant).foldlM (fun subst param =>
          if subst.contains param then return subst
          else return subst.bind param (← PoolM.anyWildcard)) inferred
        instantiate generic complete) (scoping.Over scope) := by
    apply Pledges.bind (bindRest_scoped And.right)
    intro complete
    refine instantiate_scoped (fun facts => facts.2.mono fun param own => .inr ?_) fun facts =>
      facts.1.1.2
    rwa [(describes facts.1.1.1).typeParams]
  have bare : Pledges scoping params given' _ (scoping.Over scope) :=
    (completed {}).assume fun holds => ⟨holds, .empty⟩
  apply Pledges.andThen .ask
  intro base
  cases base with
  | none => exact bare
  | some base =>
    apply Pledges.andThen (.ofKeeps (ancestorAt?_keeps (inheritable_any hierarchy) generic base))
    intro ancestor
    cases ancestor with
    | none => exact bare
    | some ancestor =>
      exact .bind (infer_scoped (fun both => describes both.1) (fun _ => .empty) fun both =>
        ranges both.1) completed

end ClassHierarchy
end ClassLang
