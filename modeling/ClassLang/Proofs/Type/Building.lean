import ClassLang.Proofs.Type.Tree

/-! Computations that build types. They start in a valid pool, end without failure, and leave the
pool grown and valid; what they return is described by the tree it stands for. -/

namespace ClassLang

namespace TypePool

/-- The handle of no type is not that of an entry. -/
def Small (pool : TypePool) : Prop := pool.size ≤ TypeRef.absent.raw

instance (pool : TypePool) : Decidable pool.Small :=
  inferInstanceAs (Decidable (pool.size ≤ TypeRef.absent.raw))

/-- A handle of the pool stands for a tree. -/
structure Denotes (pool : TypePool) (type : TypeRef) (tree : TypeTree) : Prop where
  has : pool.Has type
  reads : pool.Small → pool.tree type = tree

/-- Handles of the pool stand for trees, in order. -/
structure DenotesAll (pool : TypePool) (types : List TypeRef) (trees : List TypeTree) : Prop where
  has : ∀ type ∈ types, pool.Has type
  reads : pool.Small → types.map pool.tree = trees

variable {pool before after : TypePool} {type : TypeRef} {tree : TypeTree} {node : TypeNode}

theorem Growth.small (growth : before.Growth after) (small : after.Small) : before.Small :=
  Nat.le_trans growth.size_le small

theorem Denotes.self (inside : pool.Has type) : pool.Denotes type (pool.tree type) :=
  ⟨inside, fun _ => rfl⟩

theorem DenotesAll.self {types : List TypeRef} (inside : ∀ type ∈ types, pool.Has type) :
    pool.DenotesAll types (types.map pool.tree) :=
  ⟨inside, fun _ => rfl⟩

theorem Denotes.grow (denotes : before.Denotes type tree) (valid : before.Valid)
    (growth : before.Growth after) : after.Denotes type tree :=
  ⟨growth.has denotes.has, fun small =>
    (growth.tree_eq valid denotes.has).trans (denotes.reads (growth.small small))⟩

theorem DenotesAll.grow {types : List TypeRef} {trees : List TypeTree}
    (denotes : before.DenotesAll types trees) (valid : before.Valid)
    (growth : before.Growth after) : after.DenotesAll types trees :=
  ⟨fun type member => growth.has (denotes.has type member), fun small =>
    (growth.map_tree_eq valid denotes.has).trans (denotes.reads (growth.small small))⟩

theorem DenotesAll.cons {types : List TypeRef} {trees : List TypeTree}
    (first : pool.Denotes type tree) (rest : pool.DenotesAll types trees) :
    pool.DenotesAll (type :: types) (tree :: trees) := by
  refine ⟨?_, fun small => ?_⟩
  · intro other member
    rcases List.mem_cons.mp member with rfl | later
    · exact first.has
    · exact rest.has other later
  · rw [List.map_cons, first.reads small, rest.reads small]

theorem DenotesAll.nil : pool.DenotesAll [] [] := ⟨by simp, fun _ => rfl⟩

theorem has_empty (primitive : type.isPrimitive = true) : Has {} type := by
  have below : type.raw < 7 := of_decide_eq_true primitive
  exact below

/-- A primitive type is the first entry of its kind. -/
theorem Valid.has_primitive (valid : pool.Valid) (primitive : type.isPrimitive = true) :
    pool.Has type :=
  valid.primitives.has (has_empty primitive)

theorem Valid.tree_primitive (valid : pool.Valid) (primitive : type.isPrimitive = true) :
    pool.tree type = TypePool.tree {} type :=
  valid.primitives.tree_eq valid_empty (has_empty primitive)

@[simp] theorem Valid.tree_any (valid : pool.Valid) : pool.tree .any = .any :=
  valid.tree_primitive rfl

theorem Valid.has_any (valid : pool.Valid) : pool.Has .any := valid.has_primitive rfl

/-- The first bound of a parameter is in the pool. -/
theorem Valid.has_upperBound (valid : pool.Valid) {param : ParamRef} {bound : TypeRef}
    (asked : pool.upperBound param = .ok bound) : pool.Has bound := by
  unfold TypePool.upperBound TypePool.param at asked
  split at asked
  · rename_i declared found
    cases asked
    dsimp only
    cases bounds : declared.bounds with
    | nil => exact valid.has_any
    | cons first rest => exact valid.bounds _ declared found first (by simp [bounds])
  · cases asked

theorem Growth.upperBound_eq (growth : before.Growth after) (param : ParamRef) :
    after.upperBound param = before.upperBound param := by
  unfold TypePool.upperBound TypePool.param
  rw [growth.grown.params]

end TypePool

/-- From a valid pool the action ends, with the pool grown and valid. -/
def PoolM.Builds (action : PoolM α) (pool : TypePool) (post : α → TypePool → Prop) : Prop :=
  pool.Valid → Completes action pool fun result after => pool.Growth after ∧ post result after

namespace PoolM.Builds
open TypePool

variable {pool : TypePool} {post : β → TypePool → Prop}

theorem mono {action : PoolM α} {weak strong : α → TypePool → Prop}
    (builds : PoolM.Builds action pool strong)
    (weaken : ∀ result after, pool.Growth after → strong result after → weak result after) :
    PoolM.Builds action pool weak :=
  fun valid => (builds valid).mono fun result after holds =>
    ⟨holds.1, weaken result after holds.1 holds.2⟩

/-- A run of an action that builds is the one it promises. -/
theorem ensures {action : PoolM α} {post : α → TypePool → Prop}
    (builds : PoolM.Builds action pool post) (valid : pool.Valid) :
    Ensures action pool fun result after => pool.Growth after ∧ post result after := by
  intro result after ran
  obtain ⟨value, final, done, holds⟩ := builds valid
  rw [done] at ran
  cases ran
  exact holds

/-- The validity of the pool may be used. -/
theorem ofValid {action : PoolM α} {post : α → TypePool → Prop}
    (builds : pool.Valid → PoolM.Builds action pool post) : PoolM.Builds action pool post :=
  fun valid => builds valid valid

theorem pure {result : α} {post : α → TypePool → Prop} (holds : post result pool) :
    PoolM.Builds (Pure.pure result) pool post :=
  fun valid => Completes.pure ⟨valid.growth, holds⟩

theorem bind {action : PoolM α} {next : α → PoolM β} {middle : α → TypePool → Prop}
    (first : PoolM.Builds action pool middle)
    (rest : ∀ result between, pool.Growth between → middle result between →
      PoolM.Builds (next result) between post) :
    PoolM.Builds (action >>= next) pool post := by
  intro valid
  refine Completes.bind ((first valid).mono fun result between holds => ?_)
  refine (rest result between holds.1 holds.2 holds.1.valid).mono fun value after done => ?_
  exact ⟨holds.1.trans done.1, done.2⟩

theorem inspect {query : TypePool → Except Abort α} {next : α → PoolM β} {answer : α}
    (ran : query pool = .ok answer) (rest : PoolM.Builds (next answer) pool post) :
    PoolM.Builds (PoolM.inspect query >>= next) pool post :=
  fun valid => Completes.bind (Completes.bind (Completes.get (Completes.lift ran (rest valid))))

theorem get {next : TypePool → PoolM β} (rest : PoolM.Builds (next pool) pool post) :
    PoolM.Builds (MonadState.get >>= next) pool post :=
  fun valid => Completes.bind (Completes.get (rest valid))

/-- The entry of a handle is read. -/
theorem readNode {next : TypeNode → PoolM β} {type : TypeRef} (inside : pool.Has type)
    (rest : ∀ node, pool.types[type.raw]? = some node → PoolM.Builds (next node) pool post) :
    PoolM.Builds (PoolM.inspect (·.node type) >>= next) pool post := by
  obtain ⟨node, found⟩ := inside.lookup
  exact inspect (node_eq found) (rest node found)

/-- The handle returned is that of the entry. -/
theorem entry {node : TypeNode} (admits : pool.Admits node) :
    PoolM.Builds (PoolM.intern node) pool fun type after =>
      after.types[type.raw]? = some node :=
  fun valid => Completes.modifyGet (intern_growth valid admits)

theorem intern {node : TypeNode} (admits : pool.Admits node) :
    PoolM.Builds (PoolM.intern node) pool fun type after =>
      after.Denotes type (node.toTree pool.tree) := by
  refine ofValid fun valid => (entry admits).mono fun type after growth found =>
    ⟨has_of_lookup found, fun _ => ?_⟩
  rw [growth.valid.tree_eq found]
  exact TypeNode.toTree_congr fun part member => growth.tree_eq valid (admits.parts part member)

theorem class_ (name : Name) :
    PoolM.Builds (PoolM.class_ name) pool fun type after => after.Denotes type (.class_ name) :=
  intern ⟨by simp [TypeNode.parts], by simp⟩

theorem denoting {action : PoolM TypeRef} {tree other : TypeTree}
    (builds : PoolM.Builds action pool fun type after => after.Denotes type tree)
    (same : pool.Small → tree = other) :
    PoolM.Builds action pool fun type after => after.Denotes type other :=
  builds.mono fun _ _ growth denotes =>
    ⟨denotes.has, fun small => (denotes.reads small).trans (same (growth.small small))⟩

theorem denotingAll {action : PoolM (List TypeRef)} {trees others : List TypeTree}
    (builds : PoolM.Builds action pool fun types after => after.DenotesAll types trees)
    (same : pool.Small → trees = others) :
    PoolM.Builds action pool fun types after => after.DenotesAll types others :=
  builds.mono fun _ _ growth denotes =>
    ⟨denotes.has, fun small => (denotes.reads small).trans (same (growth.small small))⟩

theorem wildcard (variance : Variance) {bound : TypeRef} {tree : TypeTree}
    (denotes : pool.Denotes bound tree) :
    PoolM.Builds (PoolM.wildcard variance bound) pool fun type after =>
      after.Denotes type (.wildcard variance tree) := by
  refine (intern ⟨?_, by simp⟩).denoting fun small => ?_
  · intro part member
    rw [List.mem_singleton.mp member]
    exact denotes.has
  · rw [TypeNode.toTree, denotes.reads small]

theorem anyWildcard :
    PoolM.Builds PoolM.anyWildcard pool fun type after =>
      after.Denotes type (.wildcard .invariant .any) :=
  ofValid fun valid => wildcard .invariant ⟨valid.has_any, fun _ => valid.tree_any⟩

/-- A class with arguments; without any it is the class itself. -/
theorem applied (base : Name) {args : List TypeRef} {trees : List TypeTree}
    (denotes : pool.DenotesAll args trees) :
    PoolM.Builds (PoolM.applied base args) pool fun type after =>
      after.Denotes type (if trees.isEmpty then .class_ base else .applied base trees) := by
  have sameEnd : pool.Small → trees.isEmpty = args.isEmpty := by
    intro small
    rw [← denotes.reads small, List.isEmpty_map]
  unfold PoolM.applied
  split
  · rename_i empty
    refine (class_ base).denoting fun small => ?_
    rw [sameEnd small, if_pos empty]
  · rename_i some
    have admits : pool.Admits (.applied base args) := ⟨denotes.has, by simp⟩
    refine (intern admits).denoting fun small => ?_
    rw [sameEnd small, if_neg some, TypeNode.toTree, denotes.reads small]

/-- The type variable of a declared parameter. -/
theorem var {param : ParamRef} {declared : TypeParam}
    (found : pool.params[param.raw]? = some declared) :
    PoolM.Builds (PoolM.var param) pool fun type after =>
      after.Denotes type (.var param declared.variance) := by
  have asked : pool.param param = .ok declared := by simp [TypePool.param, found]
  refine inspect asked (intern ⟨by simp [TypeNode.parts], ?_⟩)
  intro other variance same
  cases same
  exact (Array.getElem?_eq_some_iff.mp found).1

theorem unresolved (name : Name) :
    PoolM.Builds (PoolM.unresolved name) pool fun type after =>
      after.Denotes type (.unresolved name) :=
  intern ⟨by simp [TypeNode.parts], by simp⟩

/-- Types are built one after the other; those built stay what they are. -/
theorem mapM {build : α → PoolM TypeRef} {tree : α → TypeTree} {elements : List α}
    (each : ∀ element ∈ elements, ∀ between, pool.Growth between →
      PoolM.Builds (build element) between fun type after => after.Denotes type (tree element)) :
    PoolM.Builds (elements.mapM build) pool fun types after =>
      after.DenotesAll types (elements.map tree) ∧ types.length = elements.length := by
  induction elements generalizing pool with
  | nil => exact pure ⟨.nil, rfl⟩
  | cons element elements ih =>
    rw [List.mapM_cons]
    refine ofValid fun valid => bind (each element List.mem_cons_self pool valid.growth) ?_
    intro type between growth denotes
    refine bind (ih fun other member later grown =>
      each other (List.mem_cons_of_mem _ member) later (growth.trans grown)) ?_
    rintro types after grown ⟨rest, length⟩
    exact pure ⟨.cons (denotes.grow growth.valid grown) rest, congrArg (· + 1) length⟩

end PoolM.Builds
end ClassLang
