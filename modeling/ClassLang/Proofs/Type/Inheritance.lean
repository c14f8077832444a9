import ClassLang.Proofs.Type.Instantiation
import ClassLang.Type.Hierarchy

/-! Inheritance on trees, and that the computations on pooled types follow it. -/

namespace ClassLang

/-- What classes declare, as trees. -/
structure TreeHierarchy where
  supertypes : Name → List TypeTree
  components : Name → List TypeTree
  params : Name → List (ParamRef × Variance)
  /-- Number of inheritance declarations. -/
  edges : Nat

namespace TypeTree

/-- The class of a class type. -/
def base? : TypeTree → Option Name
  | class_ name => some name
  | applied base _ => some base
  | _ => none

/-- The arguments of an applied type. -/
def args : TypeTree → List TypeTree
  | applied _ args => args
  | _ => []

/-- A covariant wildcard stands for its bound. -/
def covariantBound : TypeTree → TypeTree
  | wildcard .covariant bound => bound
  | tree => tree

theorem covariantBound_of_ne {tree : TypeTree}
    (differs : ∀ bound, tree ≠ .wildcard .covariant bound) : tree.covariantBound = tree := by
  unfold covariantBound
  split
  · exact absurd rfl (differs _)
  · rfl

end TypeTree

namespace TreeHierarchy
variable (hierarchy : TreeHierarchy)

/-- The parameters of a class bound to arguments. -/
def bindArgs (name : Name) (args : List TypeTree) : TreeSubstitution :=
  .ofArgs ((hierarchy.params name).map Prod.fst) args

/-- Declared parts of a class, instantiated with the arguments of a type. -/
def instantiateParts (parts : Name → List TypeTree) (tree : TypeTree) : List TypeTree :=
  match tree.base? with
  | some base => (parts base).map (·.instantiate (hierarchy.bindArgs base tree.args))
  | none => []

/-- Work through a queue of types, adding the supertypes of each class when it is first met. -/
def ancestorsFrom : Nat → List TypeTree → List Name → List TypeTree
  | _, [], _ => []
  | 0, _ :: _, _ => []
  | fuel + 1, tree :: queue, seen =>
    match tree.base? with
    | none => ancestorsFrom fuel queue seen
    | some base =>
      if seen.contains base then ancestorsFrom fuel queue seen
      else
        tree :: ancestorsFrom fuel
          (queue ++ hierarchy.instantiateParts hierarchy.supertypes tree) (base :: seen)

/-- A type and every class type it inherits from. -/
def ancestors (tree : TypeTree) : List TypeTree :=
  hierarchy.ancestorsFrom (hierarchy.edges + 1) [tree] []

/-- A class as an ancestor of a type. -/
def ancestorAt? (tree : TypeTree) (target : Name) : Option TypeTree :=
  (hierarchy.ancestors tree).find? (·.base? == some target)

mutual

/-- Bind the variables of the first type by laying it over the second. -/
def infer (subst : TreeSubstitution) : TypeTree → TypeTree → TreeSubstitution
  | .var param _, actual =>
    if (subst param).isSome then subst else subst.bind param actual.covariantBound
  | .applied base args, actual =>
    match hierarchy.ancestorAt? actual base with
    | some ancestor => inferAll subst args ancestor.args
    | none => subst
  | .wildcard _ bound, actual => infer subst bound actual
  | _, _ => subst

def inferAll (subst : TreeSubstitution) : List TypeTree → List TypeTree → TreeSubstitution
  | formal :: formals, actual :: actuals => inferAll (infer subst formal actual) formals actuals
  | _, _ => subst

end

/-- The class applied to its own type variables. -/
def selfType (name : Name) : TypeTree :=
  if (hierarchy.params name).isEmpty then .class_ name
  else .applied name ((hierarchy.params name).map fun param => .var param.1 param.2)

/-- The type of a value once its class is known. -/
def narrow (variant : Name) (scrutinee : TypeTree) : TypeTree :=
  let inferred : TreeSubstitution := match scrutinee.base? with
    | none => fun _ => none
    | some base =>
      match hierarchy.ancestorAt? (hierarchy.selfType variant) base with
      | none => fun _ => none
      | some ancestor => hierarchy.infer (fun _ => none) ancestor scrutinee
  let complete := (hierarchy.params variant).foldl (fun (subst : TreeSubstitution) param =>
    if (subst param.1).isSome then subst
    else subst.bind param.1 (.wildcard .invariant .any)) inferred
  (hierarchy.selfType variant).instantiate complete

/-- The components of a type. -/
def componentsOf (tree : TypeTree) : List TypeTree :=
  hierarchy.instantiateParts hierarchy.components tree

end TreeHierarchy

namespace ClassHierarchy

/-- The declarations of a hierarchy as trees. -/
def unfold (hierarchy : ClassHierarchy) (pool : TypePool) : TreeHierarchy where
  supertypes name := (hierarchy.supertypes name).map pool.tree
  components name := (hierarchy.components name).map pool.tree
  params name := (hierarchy.typeParams name).map fun param =>
    (param, ((pool.params[param.raw]?).map (·.variance)).getD .invariant)
  edges := hierarchy.edges

/-- What a hierarchy declares is in the pool, and only its classes declare supertypes. -/
structure HeldBy (hierarchy : ClassHierarchy) (pool : TypePool) : Prop where
  supertypes : ∀ name, ∀ type ∈ hierarchy.supertypes name, pool.Has type
  components : ∀ name, ∀ type ∈ hierarchy.components name, pool.Has type
  params : ∀ name, ∀ param ∈ hierarchy.typeParams name, pool.Declares param
  classes : ∀ name, hierarchy.supertypes name ≠ [] → name ∈ hierarchy.classes

variable {hierarchy : ClassHierarchy} {before after : TypePool}

theorem HeldBy.grow (held : hierarchy.HeldBy before) (growth : before.Growth after) :
    hierarchy.HeldBy after where
  supertypes name type member := growth.has (held.supertypes name type member)
  components name type member := growth.has (held.components name type member)
  params name param member := growth.declares (held.params name param member)
  classes := held.classes

theorem HeldBy.unfold_eq (held : hierarchy.HeldBy before) (valid : before.Valid)
    (growth : before.Growth after) : hierarchy.unfold after = hierarchy.unfold before := by
  unfold ClassHierarchy.unfold
  congr 1
  · funext name
    exact growth.map_tree_eq valid (held.supertypes name)
  · funext name
    exact growth.map_tree_eq valid (held.components name)
  · funext name
    rw [growth.grown.params]

end ClassHierarchy

namespace TypePool.Valid
variable {pool : TypePool} {type : TypeRef} (valid : pool.Valid) (inside : pool.Has type)
include valid inside

theorem baseName?_eq : pool.baseName? type = .ok (pool.tree type).base? := by
  obtain ⟨node, found⟩ := inside.lookup
  rw [valid.tree_eq found]
  cases node <;> simp [TypePool.baseName?, node_eq found, TypeNode.toTree, TypeTree.base?]

theorem args_eq : ∃ args, pool.args type = .ok args ∧ (∀ arg ∈ args, pool.Has arg) ∧
    args.map pool.tree = (pool.tree type).args := by
  obtain ⟨node, found⟩ := inside.lookup
  rw [valid.tree_eq found]
  cases node with
  | applied base args =>
    refine ⟨args, by simp [TypePool.args, node_eq found], fun arg member => ?_, rfl⟩
    exact Nat.lt_trans (valid.parts _ _ found arg member) inside
  | _ => exact ⟨[], by simp [TypePool.args, node_eq found], by simp, rfl⟩

end TypePool.Valid

namespace Substitution
variable {pool : TypePool}

theorem ofArgs_heldBy {args : List TypeRef} (params : List ParamRef)
    (inside : ∀ arg ∈ args, pool.Has arg) : (ofArgs params args).HeldBy pool := by
  have fold : ∀ (entries : List (ParamRef × TypeRef)) (subst : Substitution),
      (∀ entry ∈ entries, pool.Has entry.2) → subst.HeldBy pool →
      (entries.foldl (fun subst entry => subst.bind entry.1 entry.2) subst).HeldBy pool := by
    intro entries
    induction entries with
    | nil => exact fun _ _ held => held
    | cons entry entries ih =>
      intro subst inPool held
      exact ih _ (fun other member => inPool other (List.mem_cons_of_mem _ member))
        (held.bind entry.1 (inPool entry List.mem_cons_self))
  exact fold _ _ (fun entry member => inside _ (List.of_mem_zip member).2) heldBy_empty

theorem ofArgs_trees (params : List ParamRef) (args : List TypeRef) :
    (ofArgs params args).trees pool = TreeSubstitution.ofArgs params (args.map pool.tree) := by
  have fold : ∀ (entries : List (ParamRef × TypeRef)) (subst : Substitution),
      (entries.foldl (fun subst entry => subst.bind entry.1 entry.2) subst).trees pool =
        (entries.map fun entry => (entry.1, pool.tree entry.2)).foldl
          (fun subst entry => subst.bind entry.1 entry.2) (subst.trees pool) := by
    intro entries
    induction entries with
    | nil => exact fun _ => rfl
    | cons entry entries ih =>
      intro subst
      rw [List.foldl_cons, ih, trees_bind]
      rfl
  unfold ofArgs TreeSubstitution.ofArgs
  rw [fold, List.zip_map_right]
  rfl

end Substitution

namespace ClassHierarchy

variable {hierarchy : ClassHierarchy} {pool : TypePool}

theorem bindArgs_trees (name : Name) (args : List TypeRef) :
    (hierarchy.bindArgs name args).trees pool =
      (hierarchy.unfold pool).bindArgs name (args.map pool.tree) := by
  have params : ((hierarchy.unfold pool).params name).map Prod.fst = hierarchy.typeParams name := by
    simp [ClassHierarchy.unfold, Function.comp_def]
  unfold bindArgs TreeHierarchy.bindArgs
  rw [Substitution.ofArgs_trees, params]

/-- Number of supertypes that may still enter the queue: those of classes not met before. -/
def pending (hierarchy : ClassHierarchy) (seen : List Name) : Nat :=
  ((hierarchy.classes.filter fun name => !seen.contains name).map fun name =>
    (hierarchy.supertypes name).length).sum

theorem pending_nil (hierarchy : ClassHierarchy) : hierarchy.pending [] = hierarchy.edges := by
  have all : (hierarchy.classes.filter fun name => !([] : List Name).contains name) =
      hierarchy.classes := List.filter_eq_self.mpr (by simp)
  rw [pending, all, edges]

/-- The supertypes of a class are pending until it is met. -/
theorem HeldBy.pending_cons (held : hierarchy.HeldBy pool) {name : Name} {seen : List Name}
    (fresh : seen.contains name = false) :
    (hierarchy.supertypes name).length + hierarchy.pending (name :: seen) ≤
      hierarchy.pending seen := by
  have sums : ∀ classes : List Name,
      ((classes.filter fun other => !(name :: seen).contains other).map fun other =>
          (hierarchy.supertypes other).length).sum +
        (if name ∈ classes then (hierarchy.supertypes name).length else 0) ≤
      ((classes.filter fun other => !seen.contains other).map fun other =>
          (hierarchy.supertypes other).length).sum := by
    intro classes
    induction classes with
    | nil => simp
    | cons first classes ih =>
      by_cases same : first = name
      · subst same
        have dropped : ((first :: seen).contains first) = true := by simp
        simp only [List.filter_cons, dropped, fresh, Bool.not_true, Bool.not_false,
          Bool.false_eq_true, if_false, if_true, List.map_cons, List.sum_cons, List.mem_cons_self]
        split at ih <;> omega
      · have kept : (name :: seen).contains first = seen.contains first := by
          simp [same]
        have elsewhere : name ∈ first :: classes ↔ name ∈ classes := by
          simp [Ne.symm same]
        simp only [List.filter_cons, kept, elsewhere]
        split
        · simp only [List.map_cons, List.sum_cons]
          omega
        · exact ih
  have whole := sums hierarchy.classes
  unfold pending
  split at whole
  · omega
  · rename_i missing
    have none : hierarchy.supertypes name = [] := by
      refine Classical.byContradiction fun some => ?_
      exact missing (held.classes name some)
    rw [none]
    simpa using whole

end ClassHierarchy

/-- What one class declares about its place among the others. -/
structure ClassHeader where
  name : Name
  typeParams : List ParamRef := []
  superclass : Option TypeRef := none
  interfaces : List TypeRef := []

namespace ClassHeader

def supertypes (header : ClassHeader) : List TypeRef :=
  header.superclass.toList ++ header.interfaces

/-- What the header names is in the pool. -/
structure HeldBy (header : ClassHeader) (pool : TypePool) : Prop where
  supertypes : ∀ type ∈ header.supertypes, pool.Has type
  params : ∀ param ∈ header.typeParams, pool.Declares param

instance (header : ClassHeader) (pool : TypePool) : Decidable (header.HeldBy pool) :=
  decidable_of_iff ((∀ type ∈ header.supertypes, pool.Has type) ∧ ∀ param ∈ header.typeParams,
    pool.Declares param) ⟨fun both => ⟨both.1, both.2⟩, fun held => ⟨held.supertypes, held.params⟩⟩

end ClassHeader

namespace ClassHierarchy

/-- The hierarchy of the classes in a list; of two with one name the first counts. -/
def ofHeaders (headers : List ClassHeader) : ClassHierarchy where
  superclass name := (headers.find? (·.name = name)).bind (·.superclass)
  interfaces name := ((headers.find? (·.name = name)).map (·.interfaces)).getD []
  typeParams name := ((headers.find? (·.name = name)).map (·.typeParams)).getD []
  variants _ := none
  isAbstract _ := false
  components _ := []
  classes := headers.map (·.name)

variable {headers : List ClassHeader} {name : Name} {pool : TypePool}

/-- The declaration that counts for a class. -/
theorem exists_header {field : ClassHeader → List α} {element : α}
    (member : element ∈ ((headers.find? (·.name = name)).map field).getD []) :
    ∃ header ∈ headers, header.name = name ∧ headers.find? (·.name = name) = some header ∧
    element ∈ field header := by
  cases found : headers.find? (·.name = name) with
  | none => simp [found] at member
  | some header =>
    have named := List.find?_some found
    exact ⟨header, List.mem_of_find?_eq_some found, of_decide_eq_true named,
      rfl, by simpa [found] using member⟩

theorem supertypes_ofHeaders (headers : List ClassHeader) (name : Name) :
    (ofHeaders headers).supertypes name =
      ((headers.find? (·.name = name)).map (·.supertypes)).getD [] := by
  cases found : headers.find? (·.name = name) <;>
    simp [supertypes, ofHeaders, found, ClassHeader.supertypes]

theorem heldBy_ofHeaders (held : ∀ header ∈ headers, header.HeldBy pool) :
    (ofHeaders headers).HeldBy pool := by
  refine ⟨fun name type member => ?_, fun _ _ => by simp [ofHeaders], fun name param member => ?_,
    fun name some => ?_⟩
  · rw [supertypes_ofHeaders] at member
    obtain ⟨header, listed, _, _, declared⟩ := exists_header member
    exact (held header listed).supertypes type declared
  · obtain ⟨header, listed, _, _, declared⟩ := exists_header member
    exact (held header listed).params param declared
  · obtain ⟨type, member⟩ := List.exists_mem_of_ne_nil _ some
    rw [supertypes_ofHeaders] at member
    obtain ⟨header, listed, rfl, _⟩ := exists_header member
    exact List.mem_map_of_mem listed

end ClassHierarchy

namespace PoolM.Builds
open TypePool

variable {hierarchy : ClassHierarchy} {pool : TypePool}

/-- Instantiated parts of a class. -/
theorem instantiateParts {parts : Name → List TypeRef} {type : TypeRef}
    (inside : pool.Has type) (inPool : ∀ name, ∀ part ∈ parts name, pool.Has part) :
    PoolM.Builds (hierarchy.instantiateParts parts type) pool fun types after =>
      after.DenotesAll types ((hierarchy.unfold pool).instantiateParts
          (fun name => (parts name).map pool.tree) (pool.tree type)) ∧
        ∀ base, (pool.tree type).base? = some base → types.length = (parts base).length := by
  refine ofValid fun valid => inspect (valid.baseName?_eq inside) ?_
  unfold TreeHierarchy.instantiateParts
  cases (pool.tree type).base? with
  | none => exact pure ⟨.nil, by simp⟩
  | some base =>
    obtain ⟨args, read, argsHere, argTrees⟩ := valid.args_eq inside
    refine inspect read ?_
    have held := Substitution.ofArgs_heldBy (hierarchy.typeParams base) argsHere
    have each : ∀ part ∈ parts base, ∀ between, pool.Growth between →
        PoolM.Builds (ClassLang.instantiate part (hierarchy.bindArgs base args)) between
          fun result after => after.Denotes result ((pool.tree part).instantiate
            ((hierarchy.unfold pool).bindArgs base (pool.tree type).args)) := by
      intro part member between growth
      have denotes := (Denotes.self (inPool base part member)).grow valid growth
      have bound : (hierarchy.bindArgs base args).Denotes pool
          ((hierarchy.unfold pool).bindArgs base (pool.tree type).args) :=
        ⟨held, fun _ => by rw [← argTrees, ClassHierarchy.bindArgs_trees]⟩
      exact instantiate denotes (bound.grow valid growth)
    refine (mapM each).mono fun types after growth built => ⟨⟨built.1.has, fun small => ?_⟩, ?_⟩
    · rw [built.1.reads small]
      simp only [List.map_map]
      rfl
    · intro other same
      cases same
      exact built.2

/-- The supertypes of a type. -/
theorem directSupertypes {type : TypeRef} (inside : pool.Has type) (held : hierarchy.HeldBy pool) :
    PoolM.Builds (hierarchy.directSupertypes type) pool fun types after =>
      after.DenotesAll types ((hierarchy.unfold pool).instantiateParts
          (hierarchy.unfold pool).supertypes (pool.tree type)) ∧
        ∀ base, (pool.tree type).base? = some base →
          types.length = (hierarchy.supertypes base).length :=
  instantiateParts inside held.supertypes

/-- The components of a type. -/
theorem componentsOf {type : TypeRef} (inside : pool.Has type) (held : hierarchy.HeldBy pool) :
    PoolM.Builds (hierarchy.componentsOf type) pool fun types after =>
      after.DenotesAll types ((hierarchy.unfold pool).componentsOf (pool.tree type)) ∧
        ∀ base, (pool.tree type).base? = some base →
          types.length = (hierarchy.components base).length :=
  instantiateParts inside held.components

/-- The queue is worked through before the fuel is spent: what is in it and what may still enter it
is no more than the fuel. -/
theorem ancestorsFrom : ∀ (fuel : Nat) (queue : List TypeRef) (seen : List Name) (pool : TypePool),
    hierarchy.HeldBy pool → (∀ type ∈ queue, pool.Has type) →
    queue.length + hierarchy.pending seen ≤ fuel →
    PoolM.Builds (hierarchy.ancestorsFrom fuel queue seen) pool fun types after =>
      after.DenotesAll types
        ((hierarchy.unfold pool).ancestorsFrom fuel (queue.map pool.tree) seen)
  | _, [], _, _, _, _, _ => by
    unfold ClassHierarchy.ancestorsFrom TreeHierarchy.ancestorsFrom
    exact pure .nil
  | 0, _ :: _, _, _, _, _, enough => by
    simp only [List.length_cons] at enough
    omega
  | fuel + 1, type :: queue, seen, pool, held, inside, enough => by
    have inPool := inside type List.mem_cons_self
    have later : ∀ other ∈ queue, pool.Has other :=
      fun other member => inside other (List.mem_cons_of_mem _ member)
    simp only [List.length_cons] at enough
    refine ofValid fun valid => inspect (valid.baseName?_eq inPool) ?_
    simp only [List.map_cons, TreeHierarchy.ancestorsFrom]
    cases base : (pool.tree type).base? with
    | none => exact ancestorsFrom fuel queue seen pool held later (by omega)
    | some name =>
      dsimp only
      split
      · exact ancestorsFrom fuel queue seen pool held later (by omega)
      · rename_i fresh
        refine bind (directSupertypes inPool held) ?_
        rintro supers between growth ⟨denotes, length⟩
        have entering := held.pending_cons (Bool.eq_false_iff.mpr fresh)
        have room : (queue ++ supers).length + hierarchy.pending (name :: seen) ≤ fuel := by
          rw [List.length_append, length name base]
          omega
        refine bind (ancestorsFrom fuel (queue ++ supers) (name :: seen) between
          (held.grow growth) ?_ room) ?_
        · intro other member
          rcases List.mem_append.mp member with old | new
          · exact growth.has (later other old)
          · exact denotes.has other new
        · intro rest after grown listed
          have first := ((Denotes.self inPool).grow valid growth).grow growth.valid grown
          refine pure (.cons first ⟨listed.has, fun small => ?_⟩)
          rw [listed.reads small, held.unfold_eq valid growth, List.map_append,
            denotes.reads (grown.small small), growth.map_tree_eq valid later]

/-- All ancestors of a type. -/
theorem ancestors {type : TypeRef} (inside : pool.Has type) (held : hierarchy.HeldBy pool) :
    PoolM.Builds (hierarchy.ancestors type) pool fun types after =>
      after.DenotesAll types ((hierarchy.unfold pool).ancestors (pool.tree type)) := by
  refine ancestorsFrom _ [type] [] pool held ?_ ?_
  · intro other member
    rw [List.mem_singleton.mp member]
    exact inside
  · rw [ClassHierarchy.pending_nil, List.length_singleton]
    omega

/-- The search for a class reads the pool only. -/
theorem findBase? (target : Name) : ∀ {types : List TypeRef}, (∀ type ∈ types, pool.Has type) →
    PoolM.Builds (ClassHierarchy.findBase? target types) pool fun found after =>
      after = pool ∧ found = types.find? fun type => (pool.tree type).base? == some target
  | [], _ => pure ⟨rfl, rfl⟩
  | type :: types, inside => by
    refine ofValid fun valid => ?_
    have asked := valid.baseName?_eq (inside type List.mem_cons_self)
    have tested : PoolM.Builds
        (return (← PoolM.inspect (·.baseName? type)) == some target) pool fun passed after =>
          after = pool ∧ passed = ((pool.tree type).base? == some target) :=
      inspect asked (pure ⟨rfl, rfl⟩)
    rw [List.find?_cons]
    refine bind tested ?_
    rintro passed between growth ⟨unchanged, rfl⟩
    rw [unchanged]
    cases (pool.tree type).base? == some target with
    | true => exact pure ⟨rfl, rfl⟩
    | false =>
      exact findBase? target fun other member => inside other (List.mem_cons_of_mem _ member)

/-- A class as an ancestor of a type. -/
theorem ancestorAt? {type : TypeRef} (target : Name) (inside : pool.Has type)
    (held : hierarchy.HeldBy pool) :
    PoolM.Builds (hierarchy.ancestorAt? type target) pool fun found after =>
      (∀ ancestor ∈ found, after.Has ancestor) ∧ (after.Small →
        found.map after.tree = (hierarchy.unfold pool).ancestorAt? (pool.tree type) target) := by
  refine bind (ancestors inside held) fun types between growth denotes => ?_
  refine (findBase? target denotes.has).mono ?_
  rintro found after _ ⟨rfl, rfl⟩
  refine ⟨fun ancestor found => denotes.has ancestor (List.mem_of_find?_eq_some found), ?_⟩
  intro small
  rw [TreeHierarchy.ancestorAt?, ← denotes.reads small, List.find?_map]
  rfl

/-- Inference in the arguments of an applied type, one pair after the other. -/
theorem inferArgs {step : Substitution → TypeRef → TypeRef → PoolM Substitution}
    {treeHierarchy : TreeHierarchy} :
    ∀ (formals actuals : List TypeRef) (subst : Substitution) (trees : TreeSubstitution)
      (pool : TypePool), subst.Denotes pool trees → (∀ formal ∈ formals, pool.Has formal) →
      (∀ actual ∈ actuals, pool.Has actual) →
      (∀ formal ∈ formals, ∀ (actual : TypeRef) (subst : Substitution) (trees : TreeSubstitution)
        (between : TypePool), pool.Growth between → between.Has actual →
        subst.Denotes between trees →
        PoolM.Builds (step subst formal actual) between fun result after =>
          result.Denotes after
            (treeHierarchy.infer trees (pool.tree formal) (between.tree actual))) →
      PoolM.Builds ((formals.zip actuals).foldlM (fun subst pair => step subst pair.1 pair.2) subst)
        pool fun result after => result.Denotes after
          (treeHierarchy.inferAll trees (formals.map pool.tree) (actuals.map pool.tree))
  | [], _, subst, trees, pool, denotes, _, _, _ => by
    simpa [TreeHierarchy.inferAll] using pure denotes
  | _ :: _, [], subst, trees, pool, denotes, _, _, _ => by
    simpa [TreeHierarchy.inferAll] using pure denotes
  | formal :: formals, actual :: actuals, subst, trees, pool, denotes, formalsHere, actualsHere,
      each => by
    have laterFormals : ∀ other ∈ formals, pool.Has other :=
      fun other member => formalsHere other (List.mem_cons_of_mem _ member)
    have laterActuals : ∀ other ∈ actuals, pool.Has other :=
      fun other member => actualsHere other (List.mem_cons_of_mem _ member)
    refine ofValid fun valid => ?_
    rw [List.zip_cons_cons, List.foldlM_cons]
    refine bind (each formal List.mem_cons_self actual subst trees pool valid.growth
      (actualsHere actual List.mem_cons_self) denotes) fun result between growth first => ?_
    have rest := inferArgs formals actuals result _ between first
      (fun other member => growth.has (laterFormals other member))
      (fun other member => growth.has (laterActuals other member))
      fun other member actual subst trees later grown held bound => by
        rw [growth.tree_eq valid (laterFormals other member)]
        exact each other (List.mem_cons_of_mem _ member) actual subst trees later
          (growth.trans grown) held bound
    rw [growth.map_tree_eq valid laterFormals, growth.map_tree_eq valid laterActuals] at rest
    exact rest

theorem binding {action : PoolM Substitution} {trees others : TreeSubstitution}
    (builds : PoolM.Builds action pool fun subst after => subst.Denotes after trees)
    (same : pool.Small → trees = others) :
    PoolM.Builds action pool fun subst after => subst.Denotes after others :=
  builds.mono fun _ _ growth denotes =>
    ⟨denotes.held, fun small => (denotes.reads small).trans (same (growth.small small))⟩

/-- A variable without a binding is bound to the type that it is laid over, or to the bound of a
covariant one. -/
theorem bindVariable (param : ParamRef) {subst : Substitution} {trees : TreeSubstitution}
    {actual : TypeRef} (denotes : subst.Denotes pool trees) (actualHere : pool.Has actual) :
    PoolM.Builds (do
      match ← PoolM.inspect (·.node actual) with
      | .wildcard .covariant bound => return subst.bind param bound
      | _ => return subst.bind param actual) pool fun result after =>
        result.Denotes after (trees.bind param (pool.tree actual).covariantBound) := by
  refine ofValid fun valid => readNode actualHere fun node found => ?_
  have tree := valid.tree_eq found
  split
  · rename_i inner
    rw [tree]
    exact pure
      (.bind denotes param
        (.self (Nat.lt_trans (valid.parts _ _ found _ List.mem_cons_self) actualHere)))
  · rename_i other
    have plain : ∀ bound, pool.tree actual ≠ .wildcard .covariant bound := by
      intro bound same
      rw [tree] at same
      cases node <;> cases same
      exact other _ rfl
    rw [TypeTree.covariantBound_of_ne plain]
    exact pure (.bind denotes param (.self actualHere))

theorem inferWithin : ∀ (depth : Nat) (subst : Substitution) (formal actual : TypeRef)
    (pool : TypePool), hierarchy.HeldBy pool → subst.HeldBy pool → pool.Has formal →
    pool.Has actual → formal.raw < depth →
    PoolM.Builds (hierarchy.inferWithin depth subst formal actual) pool fun result after =>
      result.Denotes after
        ((hierarchy.unfold pool).infer (subst.trees pool) (pool.tree formal) (pool.tree actual))
  | 0, _, _, _, _, _, _, _, _, deep => absurd deep (Nat.not_lt_zero _)
  | depth + 1, subst, formal, actual, pool, held, bound, formalHere, actualHere, deep => by
    refine ofValid fun valid => ?_
    unfold ClassHierarchy.inferWithin
    split
    · rename_i primitive
      refine pure ⟨bound, fun _ => ?_⟩
      rw [valid.tree_primitive primitive]
      obtain ⟨raw⟩ := formal
      have below : raw < 7 := of_decide_eq_true primitive
      match raw, below with
      | 0, _ | 1, _ | 2, _ | 3, _ | 4, _ | 5, _ | 6, _ => rfl
    · refine readNode formalHere fun node found => ?_
      have below := valid.parts _ _ found
      rw [valid.tree_eq found]
      cases node with
      | var param variance =>
        have same : ((subst.trees pool param).isSome) = subst.contains param := by
          simp [Substitution.trees, Substitution.contains]
        simp only [TypeNode.toTree, TreeHierarchy.infer, same]
        split
        · exact pure ⟨bound, fun _ => rfl⟩
        · exact bindVariable param ⟨bound, fun _ => rfl⟩ actualHere
      | applied base args =>
        have argsHere : ∀ arg ∈ args, pool.Has arg :=
          fun arg member => Nat.lt_trans (below arg member) formalHere
        refine bind (ancestorAt? base actualHere held) ?_
        rintro found between growth ⟨ancestorHere, reads⟩
        have kept : subst.Denotes between (subst.trees pool) :=
          Substitution.Denotes.grow ⟨bound, fun _ => rfl⟩ valid growth
        cases found with
        | none =>
          refine binding (pure kept) fun small => ?_
          simp only [TypeNode.toTree, TreeHierarchy.infer, ← reads small, Option.map_none]
        | some ancestor =>
          obtain ⟨actuals, read, actualsHere, actualTrees⟩ :=
            growth.valid.args_eq (ancestorHere ancestor rfl)
          refine inspect read ?_
          have inferred := inferArgs args actuals subst (subst.trees pool) between kept
            (fun arg member => growth.has (argsHere arg member)) actualsHere
            fun arg member other subst trees later grown inPool denotes => by
              have whole := growth.trans grown
              have step := inferWithin depth subst arg other later (held.grow whole) denotes.held
                (whole.has (argsHere arg member)) inPool
                (Nat.lt_of_lt_of_le (below arg member) (Nat.le_of_lt_succ deep))
              rw [held.unfold_eq valid whole, whole.tree_eq valid (argsHere arg member)] at step
              rw [growth.tree_eq valid (argsHere arg member)]
              exact step.binding fun small => by rw [denotes.reads small]
          refine inferred.binding fun small => ?_
          simp only [TypeNode.toTree, TreeHierarchy.infer, ← reads small, Option.map_some]
          rw [growth.map_tree_eq valid argsHere, actualTrees]
      | wildcard variance inner =>
        exact inferWithin depth subst inner actual pool held bound
          (Nat.lt_trans (below inner List.mem_cons_self) formalHere) actualHere
          (Nat.lt_of_lt_of_le (below inner List.mem_cons_self) (Nat.le_of_lt_succ deep))
      | _ => exact pure ⟨bound, fun _ => rfl⟩

/-- Inference lays one type over another. -/
theorem infer {subst : Substitution} {formal actual : TypeRef} (held : hierarchy.HeldBy pool)
    (bound : subst.HeldBy pool) (formalHere : pool.Has formal) (actualHere : pool.Has actual) :
    PoolM.Builds (hierarchy.infer subst formal actual) pool fun result after =>
      result.Denotes after
        ((hierarchy.unfold pool).infer (subst.trees pool) (pool.tree formal) (pool.tree actual)) :=
  get (inferWithin _ subst formal actual pool held bound formalHere actualHere
    (Nat.lt_succ_of_lt formalHere))

/-- A class applied to its own type variables. -/
theorem selfType (name : Name) (held : hierarchy.HeldBy pool) :
    PoolM.Builds (hierarchy.selfType name) pool fun type after =>
      after.Denotes type ((hierarchy.unfold pool).selfType name) := by
  have each : ∀ param ∈ hierarchy.typeParams name, ∀ between, pool.Growth between →
      PoolM.Builds (PoolM.var param) between fun type after => after.Denotes type
        (.var param (((pool.params[param.raw]?).map (·.variance)).getD .invariant)) := by
    intro param member between growth
    obtain ⟨declared, found⟩ := (held.params name param member).lookup
    rw [found]
    rw [← growth.grown.params] at found
    exact var found
  refine bind (mapM each) fun vars between growth denotes => ?_
  refine (applied name denotes.1).denoting fun _ => ?_
  simp only [TreeHierarchy.selfType, ClassHierarchy.unfold, List.isEmpty_map, List.map_map]
  rfl

/-- Parameters that were not inferred become `?`. -/
theorem completeParams :
    ∀ (params : List ParamRef) (subst : Substitution) (trees : TreeSubstitution)
    (pool : TypePool), subst.Denotes pool trees →
    PoolM.Builds (params.foldlM (fun subst param =>
        if subst.contains param then return subst
        else return subst.bind param (← PoolM.anyWildcard)) subst) pool fun result after =>
      result.Denotes after (params.foldl (fun (subst : TreeSubstitution) param =>
        if (subst param).isSome then subst
        else subst.bind param (.wildcard .invariant .any)) trees)
  | [], _, _, _, denotes => pure denotes
  | param :: params, subst, trees, pool, denotes => by
    have same : pool.Small → (trees param).isSome = subst.contains param := by
      intro small
      rw [← denotes.reads small]
      simp [Substitution.trees, Substitution.contains]
    rw [List.foldlM_cons]
    have step : PoolM.Builds (if subst.contains param then return subst
        else return subst.bind param (← PoolM.anyWildcard)) pool fun result after =>
        result.Denotes after (if (trees param).isSome then trees
          else trees.bind param (.wildcard .invariant .any)) := by
      refine ofValid fun valid => ?_
      split
      · rename_i bound
        exact binding (pure denotes) fun small => by rw [same small, if_pos bound]
      · rename_i unbound
        refine bind anyWildcard fun type between growth wildcard => ?_
        refine binding (pure ((denotes.grow valid growth).bind param wildcard)) fun small => ?_
        rw [same (growth.small small), if_neg unbound]
    exact bind step fun result between growth complete =>
      completeParams params result _ between complete

/-- The end of narrowing: what was not inferred becomes `?`, and the generic type is
instantiated. -/
theorem completeNarrow {generic : TypeRef} {tree : TypeTree} {subst : Substitution}
    {trees : TreeSubstitution} (params : List ParamRef) (denotes : pool.Denotes generic tree)
    (denotesTree : subst.Denotes pool trees) :
    PoolM.Builds (do
      let complete ← params.foldlM (fun subst param =>
        if subst.contains param then return subst
        else return subst.bind param (← PoolM.anyWildcard)) subst
      ClassLang.instantiate generic complete) pool fun type after =>
        after.Denotes type (tree.instantiate (params.foldl (fun (subst : TreeSubstitution) param =>
          if (subst param).isSome then subst
          else subst.bind param (.wildcard .invariant .any)) trees)) :=
  ofValid fun valid => bind (completeParams params subst trees pool denotesTree)
    fun _ _ growth all => instantiate (denotes.grow valid growth) all

/-- The type of a value once its class is known. -/
theorem narrow (variant : Name) {scrutinee : TypeRef} (held : hierarchy.HeldBy pool)
    (inside : pool.Has scrutinee) :
    PoolM.Builds (hierarchy.narrow variant scrutinee) pool fun type after =>
      after.Denotes type ((hierarchy.unfold pool).narrow variant (pool.tree scrutinee)) := by
  refine ofValid fun valid => ?_
  have params : (hierarchy.unfold pool).params variant =
      (hierarchy.typeParams variant).map fun param =>
        (param, ((pool.params[param.raw]?).map (·.variance)).getD .invariant) := rfl
  have nothing : ∀ pool : TypePool, Substitution.Denotes {} pool fun _ => none :=
    fun pool => ⟨Substitution.heldBy_empty, fun _ => Substitution.trees_of_isEmpty rfl⟩
  unfold ClassHierarchy.narrow
  dsimp only
  split
  · rename_i empty
    have none : hierarchy.typeParams variant = [] := List.isEmpty_iff.mp empty
    refine (class_ variant).denoting fun _ => ?_
    simp [TreeHierarchy.narrow, TreeHierarchy.selfType, params, none, TypeTree.instantiate]
  · refine bind (selfType variant held) fun generic between growth self => ?_
    have inPool := growth.has inside
    have scrutineeTree := growth.tree_eq valid inside
    have heldNow := held.grow growth
    have hierarchies := held.unfold_eq valid growth
    refine inspect (growth.valid.baseName?_eq inPool) ?_
    rw [scrutineeTree]
    simp only [TreeHierarchy.narrow, params, List.foldl_map]
    cases (pool.tree scrutinee).base? with
    | none => exact completeNarrow _ self (nothing between)
    | some base =>
      refine bind (ancestorAt? base self.has heldNow) ?_
      rintro found later grown ⟨ancestorHere, reads⟩
      have same : later.Small → found.map later.tree = (hierarchy.unfold pool).ancestorAt?
          ((hierarchy.unfold pool).selfType variant) base := by
        intro small
        rw [reads small, hierarchies, self.reads (grown.small small)]
      have selfLater := self.grow growth.valid grown
      cases found with
      | none =>
        refine (completeNarrow _ selfLater (nothing later)).denoting fun small => ?_
        dsimp only
        rw [← same small]
        rfl
      | some ancestor =>
        refine bind (infer (heldNow.grow grown) Substitution.heldBy_empty
          (ancestorHere ancestor rfl) (grown.has inPool)) fun subst last more laid => ?_
        refine (completeNarrow _ (selfLater.grow grown.valid more) laid).denoting fun small => ?_
        dsimp only
        rw [← same (more.small small), heldNow.unfold_eq growth.valid grown, hierarchies,
          grown.tree_eq growth.valid inPool, scrutineeTree, Substitution.trees_of_isEmpty rfl]
        rfl

end PoolM.Builds
end ClassLang
