import ClassLang.Proofs.Type.Building
import ClassLang.Type.Substitution

/-! Instantiation on trees, and that instantiation of pooled types computes it. -/

namespace ClassLang

/-- What some type parameters stand for, as trees. -/
abbrev TreeSubstitution := ParamRef → Option TypeTree

namespace TypeTree

/-- A wildcard with its bound replaced. A wildcard inside a wildcard collapses. -/
def wildcardOver (variance : Variance) (bound replaced : TypeTree) : TypeTree :=
  if replaced = bound then wildcard variance bound
  else
    match replaced with
    | wildcard inner innerBound =>
      if inner = variance then wildcard variance innerBound else wildcard .invariant any
    | _ => if variance = .invariant then wildcard variance bound else wildcard variance replaced

section
variable (variance : Variance) {bound replaced : TypeTree}

theorem wildcardOver_self : wildcardOver variance bound bound = wildcard variance bound := by
  simp [wildcardOver]

theorem wildcardOver_wildcard {inner : Variance} {innerBound : TypeTree}
    (differ : wildcard inner innerBound ≠ bound) :
    wildcardOver variance bound (wildcard inner innerBound) =
      if inner = variance then wildcard variance innerBound else wildcard .invariant any := by
  simp [wildcardOver, differ]

theorem wildcardOver_other (differ : replaced ≠ bound)
    (other : ∀ inner innerBound, replaced ≠ wildcard inner innerBound) :
    wildcardOver variance bound replaced =
      if variance = .invariant then wildcard variance bound else wildcard variance replaced := by
  unfold wildcardOver
  rw [if_neg differ]
  split
  · exact absurd rfl (other _ _)
  · rfl

end

mutual

/-- Replace the variables that `subst` binds. -/
def instantiate (subst : TreeSubstitution) : TypeTree → TypeTree
  | applied base args => applied base (instantiateAll subst args)
  | var param variance => (subst param).getD (var param variance)
  | wildcard variance bound => wildcardOver variance bound (instantiate subst bound)
  | any => any
  | void => void
  | int => int
  | float => float
  | bool => bool
  | char => char
  | string => string
  | class_ name => class_ name
  | unresolved name => unresolved name

def instantiateAll (subst : TreeSubstitution) : List TypeTree → List TypeTree
  | [] => []
  | tree :: trees => instantiate subst tree :: instantiateAll subst trees

end

theorem instantiateAll_eq_map (subst : TreeSubstitution) (trees : List TypeTree) :
    instantiateAll subst trees = trees.map (instantiate subst) := by
  induction trees with
  | nil => rfl
  | cons tree trees ih => rw [instantiateAll, ih, List.map_cons]

/-- Without bindings nothing changes. -/
theorem instantiate_none (tree : TypeTree) : tree.instantiate (fun _ => none) = tree := by
  induction tree with
  | applied base args ih =>
    rw [instantiate, instantiateAll_eq_map, List.map_congr_left ih, List.map_id']
  | wildcard variance bound ih => simp [instantiate, wildcardOver, ih]
  | _ => rfl

end TypeTree

namespace TreeSubstitution

/-- Bind a parameter, in place of an earlier binding. -/
def bind (subst : TreeSubstitution) (param : ParamRef) (tree : TypeTree) : TreeSubstitution :=
  fun other => if other = param then some tree else subst other

/-- Bind parameters to arguments by position, as far as both go. -/
def ofArgs (params : List ParamRef) (args : List TypeTree) : TreeSubstitution :=
  (params.zip args).foldl (fun subst entry => subst.bind entry.1 entry.2) fun _ => none

end TreeSubstitution

namespace Substitution

/-- The trees of what is bound. -/
def trees (subst : Substitution) (pool : TypePool) : TreeSubstitution :=
  fun param => (subst.get? param).map pool.tree

/-- A substitution of handles of the pool. -/
def HeldBy (subst : Substitution) (pool : TypePool) : Prop :=
  ∀ param type, subst.get? param = some type → pool.Has type

variable {subst : Substitution} {pool before after : TypePool}

theorem HeldBy.grow (held : subst.HeldBy before) (growth : before.Growth after) :
    subst.HeldBy after :=
  fun param type bound => growth.has (held param type bound)

theorem HeldBy.trees_eq (held : subst.HeldBy before) (valid : before.Valid)
    (growth : before.Growth after) : subst.trees after = subst.trees before := by
  funext param
  unfold trees
  cases bound : subst.get? param with
  | none => rfl
  | some type => exact congrArg some (growth.tree_eq valid (held param type bound))

theorem trees_of_isEmpty (empty : subst.isEmpty = true) : subst.trees pool = fun _ => none := by
  funext param
  have none : subst.bindings = [] := List.isEmpty_iff.mp empty
  simp [trees, get?, none]

theorem get?_empty (param : ParamRef) : ({} : Substitution).get? param = none := rfl

theorem heldBy_empty : HeldBy {} pool := by
  intro param type bound
  rw [get?_empty] at bound
  cases bound

theorem lookup_replace (param other : ParamRef) (type : TypeRef) :
    ∀ bindings : List (ParamRef × TypeRef),
      (bindings.map fun entry => if entry.1 = param then (param, type) else entry).lookup other =
        if other = param then (bindings.lookup param).map fun _ => type else bindings.lookup other
  | [] => by simp
  | (key, bound) :: bindings => by
    have rest := lookup_replace param other type bindings
    rw [List.map_cons]
    by_cases replaced : key = param
    · subst replaced
      by_cases asked : other = key
      · subst asked
        simp
      · have differ : (other == key) = false := by simpa using asked
        simpa [List.lookup_cons, differ, asked] using rest
    · by_cases asked : other = key
      · subst asked
        simp [replaced]
      · have differ : (other == key) = false := by simpa using asked
        have unlike : (param == key) = false := by simpa using Ne.symm replaced
        simpa [List.lookup_cons, replaced, differ, unlike] using rest

/-- A new binding replaces an earlier one and leaves the others. -/
theorem get?_bind (subst : Substitution) (param other : ParamRef) (type : TypeRef) :
    (subst.bind param type).get? other = if other = param then some type else subst.get? other := by
  unfold bind
  split
  · rename_i bound
    obtain ⟨old, found⟩ := Option.isSome_iff_exists.mp bound
    have present : subst.bindings.lookup param = some old := found
    have answer := lookup_replace param other type subst.bindings
    rw [present] at answer
    exact answer
  · rename_i unbound
    have missing : subst.bindings.lookup param = none :=
      Option.not_isSome_iff_eq_none.mp unbound
    simp only [get?, List.lookup_append, List.lookup_cons, List.lookup_nil]
    by_cases asked : other = param
    · subst asked
      simp [missing]
    · have differ : (other == param) = false := by simpa using asked
      simp [asked, differ]

theorem trees_bind (subst : Substitution) (param : ParamRef) (type : TypeRef) (pool : TypePool) :
    (subst.bind param type).trees pool = (subst.trees pool).bind param (pool.tree type) := by
  funext other
  unfold trees TreeSubstitution.bind
  rw [get?_bind]
  split <;> rfl

theorem HeldBy.bind (held : subst.HeldBy pool) (param : ParamRef) {type : TypeRef}
    (inside : pool.Has type) : (subst.bind param type).HeldBy pool := by
  intro other found bound
  rw [get?_bind] at bound
  split at bound
  · cases bound
    exact inside
  · exact held other found bound

/-- A substitution of handles stands for a substitution of trees. -/
structure Denotes (subst : Substitution) (pool : TypePool) (trees : TreeSubstitution) : Prop where
  held : subst.HeldBy pool
  reads : pool.Small → subst.trees pool = trees

theorem Denotes.grow {trees : TreeSubstitution} (denotes : subst.Denotes before trees)
    (valid : before.Valid) (growth : before.Growth after) : subst.Denotes after trees :=
  ⟨denotes.held.grow growth, fun small =>
    (denotes.held.trees_eq valid growth).trans (denotes.reads (growth.small small))⟩

theorem Denotes.bind {trees : TreeSubstitution} (denotes : subst.Denotes pool trees)
    (param : ParamRef) {type : TypeRef} {tree : TypeTree} (bound : pool.Denotes type tree) :
    (subst.bind param type).Denotes pool (trees.bind param tree) :=
  ⟨denotes.held.bind param bound.has, fun small => by
    rw [trees_bind, denotes.reads small, bound.reads small]⟩

end Substitution

namespace TypePool

variable {pool : TypePool} {type : TypeRef}

theorem Valid.instantiate_primitive (valid : pool.Valid) (primitive : type.isPrimitive = true)
    (subst : TreeSubstitution) : (pool.tree type).instantiate subst = pool.tree type := by
  rw [valid.tree_primitive primitive]
  obtain ⟨raw⟩ := type
  have below : raw < 7 := of_decide_eq_true primitive
  match raw, below with
  | 0, _ | 1, _ | 2, _ | 3, _ | 4, _ | 5, _ | 6, _ => rfl

/-- In a small pool the handle of no type is not there. -/
theorem Has.not_absent (inside : pool.Has type) (small : pool.Small) : type.isAbsent ≠ true := by
  intro absent
  have same : type = .absent := by simpa [TypeRef.isAbsent] using absent
  subst same
  exact Nat.lt_irrefl _ (Nat.lt_of_lt_of_le inside small)

end TypePool

namespace PoolM.Builds
open TypePool

variable {pool : TypePool} {subst : Substitution}

/-- The wildcard of a replaced bound. -/
theorem overBound (variance : Variance) {type bound replaced : TypeRef}
    {boundTree replacedTree : TypeTree} (whole : pool.Denotes type (.wildcard variance boundTree))
    (part : pool.Denotes bound boundTree) (denotes : pool.Denotes replaced replacedTree) :
    PoolM.Builds (do
      if replaced = bound then return type
      match ← PoolM.inspect (·.node replaced) with
      | .wildcard inner innerBound =>
        if inner = variance then PoolM.wildcard variance innerBound else PoolM.anyWildcard
      | _ => if variance = .invariant then return type else PoolM.wildcard variance replaced)
      pool fun result after =>
        after.Denotes result (TypeTree.wildcardOver variance boundTree replacedTree) := by
  refine ofValid fun valid => ?_
  split
  · rename_i same
    subst same
    refine pure ⟨whole.has, fun small => ?_⟩
    rw [whole.reads small, ← denotes.reads small, ← part.reads small]
    exact (TypeTree.wildcardOver_self variance).symm
  · rename_i differ
    have differs : pool.Small → replacedTree ≠ boundTree := by
      intro small same
      rw [← denotes.reads small, ← part.reads small] at same
      exact differ (valid.tree_injective _ _ denotes.has part.has same)
    refine readNode denotes.has fun inner found => ?_
    have reads : pool.Small → replacedTree = inner.toTree pool.tree :=
      fun small => (denotes.reads small).symm.trans (valid.tree_eq found)
    split
    · rename_i innerVariance innerBound
      have innerHere : pool.Has innerBound :=
        Nat.lt_trans (valid.parts _ _ found _ List.mem_cons_self) denotes.has
      have collapsed := fun small => by
        have differ := differs small
        rw [reads small] at differ
        exact TypeTree.wildcardOver_wildcard variance differ
      split
      · rename_i sameWay
        refine (wildcard variance (.self innerHere)).denoting fun small => ?_
        rw [reads small]
        exact ((collapsed small).trans (if_pos sameWay)).symm
      · rename_i otherWay
        refine anyWildcard.denoting fun small => ?_
        rw [reads small]
        exact ((collapsed small).trans (if_neg otherWay)).symm
    · rename_i other
      have outer := fun small => TypeTree.wildcardOver_other variance (differs small)
        fun innerVariance innerBound same => by
          rw [reads small] at same
          cases inner <;> cases same
          exact other _ _ rfl
      split
      · rename_i invariant
        refine pure ⟨whole.has, fun small => ?_⟩
        rw [outer small, if_pos invariant, whole.reads small]
      · rename_i directed
        refine (wildcard variance denotes).denoting fun small => ?_
        rw [outer small, if_neg directed]

theorem instantiateWithin : ∀ (depth : Nat) (type : TypeRef) (pool : TypePool),
    subst.HeldBy pool → pool.Has type → type.raw < depth →
    PoolM.Builds (instantiateWithin subst depth type) pool fun result after =>
      after.Denotes result ((pool.tree type).instantiate (subst.trees pool))
  | 0, _, _, _, _, deep => absurd deep (Nat.not_lt_zero _)
  | depth + 1, type, pool, held, inside, deep => by
    refine ofValid fun valid => ?_
    unfold ClassLang.instantiateWithin
    split
    · rename_i kept
      refine pure ⟨inside, fun small => ?_⟩
      rcases Bool.or_eq_true_iff.mp kept with early | absent
      · rcases Bool.or_eq_true_iff.mp early with empty | primitive
        · rw [Substitution.trees_of_isEmpty empty, TypeTree.instantiate_none]
        · rw [valid.instantiate_primitive primitive]
      · exact absurd absent (inside.not_absent small)
    · refine readNode inside fun node found => ?_
      have tree := valid.tree_eq found
      have below := valid.parts _ _ found
      have deeper : ∀ part ∈ node.parts, ∀ between, pool.Growth between →
          PoolM.Builds (ClassLang.instantiateWithin subst depth part) between fun result after =>
            after.Denotes result ((pool.tree part).instantiate (subst.trees pool)) := by
        intro part member between growth
        have inPool : pool.Has part := Nat.lt_trans (below part member) inside
        rw [← held.trees_eq valid growth, ← growth.tree_eq valid inPool]
        exact instantiateWithin depth part between (held.grow growth) (growth.has inPool)
          (Nat.lt_of_lt_of_le (below part member) (Nat.le_of_lt_succ deep))
      rw [tree]
      cases node with
      | var param variance =>
        refine pure ?_
        cases bound : subst.get? param with
        | none => exact ⟨inside, fun _ => by simp [tree, TypeNode.toTree, TypeTree.instantiate,
            Substitution.trees, bound]⟩
        | some replacement =>
          exact ⟨held param replacement bound, fun _ => by
            simp [TypeNode.toTree, TypeTree.instantiate, Substitution.trees, bound]⟩
      | applied base args =>
        refine bind (mapM deeper) ?_
        rintro replaced between growth ⟨denotes, _⟩
        have replacedTree : between.Small → TypeTree.applied base (replaced.map between.tree) =
            (TypeNode.toTree pool.tree (.applied base args)).instantiate (subst.trees pool) := by
          intro small
          rw [denotes.reads small, TypeNode.toTree, TypeTree.instantiate,
            TypeTree.instantiateAll_eq_map, List.map_map]
          rfl
        split
        · rename_i same
          subst same
          refine pure ⟨growth.has inside, fun small => ?_⟩
          rw [← replacedTree small, growth.valid.tree_eq (growth.grown.types.entries _ _ found)]
          rfl
        · refine (intern ⟨?_, by simp⟩).denoting replacedTree
          exact denotes.has
      | wildcard variance bound =>
        refine bind (deeper bound List.mem_cons_self pool valid.growth) ?_
        intro replaced between growth denotes
        have boundHere : pool.Has bound :=
          Nat.lt_trans (below bound List.mem_cons_self) inside
        have whole : pool.Denotes type (.wildcard variance (pool.tree bound)) :=
          ⟨inside, fun _ => tree⟩
        exact overBound variance (whole.grow valid growth)
          ((Denotes.self boundHere).grow valid growth) denotes
      | _ => exact pure ⟨inside, fun _ => tree⟩

/-- Instantiation computes instantiation of the tree. -/
theorem instantiate {type : TypeRef} {tree : TypeTree} {trees : TreeSubstitution}
    (denotes : pool.Denotes type tree) (bound : subst.Denotes pool trees) :
    PoolM.Builds (ClassLang.instantiate type subst) pool fun result after =>
      after.Denotes result (tree.instantiate trees) := by
  refine get (denoting (instantiateWithin _ type pool bound.held denotes.has ?_) fun small => ?_)
  · exact Nat.lt_succ_of_lt denotes.has
  · rw [denotes.reads small, bound.reads small]

end PoolM.Builds
end ClassLang
