import ClassLang.Proofs.Completion
import ClassLang.Type.Pool
import Mathlib.Data.List.Nodup

/-! Pooled types as trees. In a valid pool every handle stands for a finite tree, different handles
stand for different trees, and growth of the pool changes neither. -/

namespace ClassLang

/-- A type with its parts in place of their handles. -/
inductive TypeTree where
  | any
  | void
  | int
  | float
  | bool
  | char
  | string
  | class_ (name : Name)
  | applied (base : Name) (args : List TypeTree)
  | var (param : ParamRef) (variance : Variance)
  | wildcard (variance : Variance) (bound : TypeTree)
  | unresolved (name : Name)
deriving Repr, Inhabited

namespace TypeTree

/-- Induction on types, with the hypothesis for every argument. -/
@[elab_as_elim, induction_eliminator]
theorem induction {motive : TypeTree → Prop} (any : motive .any) (void : motive .void)
    (int : motive .int) (float : motive .float) (bool : motive .bool) (char : motive .char)
    (string : motive .string) (class_ : ∀ name, motive (.class_ name))
    (applied : ∀ base args, (∀ arg ∈ args, motive arg) → motive (.applied base args))
    (var : ∀ param variance, motive (.var param variance))
    (wildcard : ∀ variance bound, motive bound → motive (.wildcard variance bound))
    (unresolved : ∀ name, motive (.unresolved name)) (tree : TypeTree) : motive tree :=
  TypeTree.rec any void int float bool char string class_ applied var wildcard unresolved
    (fun arg member => by cases member)
    (fun head tail first rest arg member => by
      rcases List.mem_cons.mp member with same | later
      · exact same ▸ first
      · exact rest arg later) tree

mutual

/-- Equality of types, by their constructors. -/
def same : TypeTree → TypeTree → Bool
  | any, any | void, void | int, int | float, float | bool, bool | char, char
  | string, string => true
  | class_ name, class_ other | unresolved name, unresolved other => name = other
  | applied base args, applied other others => decide (base = other) && sameAll args others
  | var param variance, var other otherVariance =>
    decide (param = other) && decide (variance = otherVariance)
  | wildcard variance bound, wildcard other otherBound =>
    decide (variance = other) && same bound otherBound
  | _, _ => false

def sameAll : List TypeTree → List TypeTree → Bool
  | [], [] => true
  | tree :: trees, other :: others => same tree other && sameAll trees others
  | _, _ => false

end

mutual

theorem same_iff : ∀ (tree other : TypeTree), tree.same other = true ↔ tree = other
  | applied base args, other => by
    cases other <;> simp [same, sameAll_iff args]
  | wildcard variance bound, other => by
    cases other <;> simp [same, same_iff bound]
  | any, other | void, other | int, other | float, other | bool, other | char, other
  | string, other | class_ _, other | unresolved _, other | var _ _, other => by
    cases other <;> simp [same]

theorem sameAll_iff : ∀ (trees others : List TypeTree), sameAll trees others = true ↔ trees = others
  | [], others => by cases others <;> simp [sameAll]
  | tree :: trees, others => by
    cases others <;> simp [sameAll, same_iff tree, sameAll_iff trees]

end

instance : DecidableEq TypeTree := fun tree other =>
  decidable_of_iff (tree.same other = true) (same_iff tree other)

end TypeTree

namespace TypeNode

/-- The handles an entry is made of. -/
def parts : TypeNode → List TypeRef
  | applied _ args => args
  | wildcard _ bound => [bound]
  | _ => []

/-- The parameter of a variable. -/
def param? : TypeNode → Option ParamRef
  | var param _ => some param
  | _ => none

/-- The entry's own constructor over the trees of its parts. -/
def toTree (tree : TypeRef → TypeTree) : TypeNode → TypeTree
  | any => .any
  | void => .void
  | int => .int
  | float => .float
  | bool => .bool
  | char => .char
  | string => .string
  | class_ name => .class_ name
  | applied base args => .applied base (args.map tree)
  | var param variance => .var param variance
  | wildcard variance bound => .wildcard variance (tree bound)
  | unresolved name => .unresolved name

theorem toTree_congr {first second : TypeRef → TypeTree} {node : TypeNode}
    (same : ∀ part ∈ node.parts, first part = second part) :
    node.toTree first = node.toTree second := by
  cases node with
  | applied base args => exact congrArg (TypeTree.applied base) (List.map_congr_left same)
  | wildcard variance bound => simp [toTree, same bound (by simp [parts])]
  | _ => rfl

theorem eq_of_map_eq {tree : TypeRef → TypeTree} : ∀ {first second : List TypeRef},
    (∀ part ∈ first, ∀ other ∈ second, tree part = tree other → part = other) →
      first.map tree = second.map tree → first = second
  | [], [], _, _ => rfl
  | part :: first, other :: second, parts, same => by
    obtain ⟨head, tail⟩ := List.cons.inj same
    rw [parts part List.mem_cons_self other List.mem_cons_self head,
      eq_of_map_eq (fun part member other member' =>
        parts part (List.mem_cons_of_mem _ member) other (List.mem_cons_of_mem _ member')) tail]

/-- Entries with the same tree are equal when their parts with the same trees are. -/
theorem toTree_injective {tree : TypeRef → TypeTree} {first second : TypeNode}
    (parts : ∀ part ∈ first.parts, ∀ other ∈ second.parts, tree part = tree other → part = other)
    (same : first.toTree tree = second.toTree tree) : first = second := by
  cases first with
  | applied base args =>
    cases second with
    | applied base' args' =>
      obtain ⟨rfl, trees⟩ := TypeTree.applied.inj same
      have equal : args = args' := eq_of_map_eq parts trees
      rw [equal]
    | _ => cases same
  | wildcard variance bound =>
    cases second with
    | wildcard variance' bound' =>
      obtain ⟨rfl, trees⟩ := TypeTree.wildcard.inj same
      rw [parts bound List.mem_cons_self bound' List.mem_cons_self trees]
    | _ => cases same
  | _ =>
    cases second with
    | _ => cases same <;> rfl

end TypeNode

namespace TypePool

/-- `tree` with parts followed at most `depth` times. -/
def treeWithin (pool : TypePool) : Nat → TypeRef → TypeTree
  | 0, _ => .any
  | depth + 1, type =>
    match pool.types[type.raw]? with
    | some node => node.toTree (treeWithin pool depth)
    | none => .any

/-- The type a handle stands for; a handle of no entry reads as `any`. -/
def tree (pool : TypePool) (type : TypeRef) : TypeTree :=
  pool.treeWithin (type.raw + 1) type

/-- The handle of an entry. -/
def Has (pool : TypePool) (type : TypeRef) : Prop := type.raw < pool.size

instance (pool : TypePool) (type : TypeRef) : Decidable (pool.Has type) :=
  inferInstanceAs (Decidable (type.raw < pool.size))

/-- The number of a declared parameter. -/
def Declares (pool : TypePool) (param : ParamRef) : Prop := param.raw < pool.params.size

instance (pool : TypePool) (param : ParamRef) : Decidable (pool.Declares param) :=
  inferInstanceAs (Decidable (param.raw < pool.params.size))

/-- The entries of one pool stand in another at the same places, and its map has the same handles
for them. -/
structure Prefix (before after : TypePool) : Prop where
  entries : ∀ (index : Nat) (node : TypeNode), before.types[index]? = some node →
    after.types[index]? = some node
  handles : ∀ (node : TypeNode) (type : TypeRef), before.find? node = some type →
    after.find? node = some type

/-- The map has the place of every entry, and nothing else. -/
def Lockstep (pool : TypePool) : Prop :=
  ∀ (node : TypeNode) (type : TypeRef),
    pool.find? node = some type ↔ pool.types[type.raw]? = some node

namespace Prefix

variable {first second third : TypePool}

theorem refl (pool : TypePool) : pool.Prefix pool :=
  ⟨fun _ _ present => present, fun _ _ found => found⟩

theorem trans (earlier : first.Prefix second) (later : second.Prefix third) : first.Prefix third :=
  ⟨fun index node present => later.entries index node (earlier.entries index node present),
    fun node type found => later.handles node type (earlier.handles node type found)⟩

/-- Pools with the same entries and the same map. -/
theorem of_eq (types : second.types = first.types) (dedup : second.dedup = first.dedup) :
    first.Prefix second := by
  constructor
  · intro index node present
    rw [types]
    exact present
  · intro node type found
    unfold find? at found ⊢
    rw [dedup]
    exact found

end Prefix

/-- What interning keeps: the primitives come first, the map and the entries are in lockstep, and
parts come before the entry that has them. -/
structure Valid (pool : TypePool) : Prop where
  primitives : Prefix {} pool
  lockstep : pool.Lockstep
  parts : ∀ (index : Nat) (node : TypeNode), pool.types[index]? = some node →
    ∀ part ∈ node.parts, part.raw < index
  named : ∀ (index : Nat) (param : ParamRef) (variance : Variance),
    pool.types[index]? = some (.var param variance) → pool.Declares param
  bounds : ∀ (index : Nat) (declared : TypeParam), pool.params[index]? = some declared →
    ∀ bound ∈ declared.bounds, pool.Has bound

/-- `after` has the entries of `before` at their places, and the same parameters. -/
structure Extends (before after : TypePool) : Prop where
  types : Prefix before after
  params : after.params = before.params

namespace Extends

variable {first second third before after : TypePool} {type : TypeRef}

theorem refl (pool : TypePool) : pool.Extends pool := ⟨.refl pool, rfl⟩

theorem trans (earlier : first.Extends second) (later : second.Extends third) :
    first.Extends third :=
  ⟨earlier.types.trans later.types, later.params.trans earlier.params⟩

end Extends

variable {pool before after : TypePool} {type : TypeRef} {node : TypeNode}

theorem Has.lookup (inside : pool.Has type) : ∃ node, pool.types[type.raw]? = some node :=
  ⟨_, Array.getElem?_eq_getElem inside⟩

theorem has_of_lookup (found : pool.types[type.raw]? = some node) : pool.Has type :=
  (Array.getElem?_eq_some_iff.mp found).1

theorem Declares.lookup {param : ParamRef} (declares : pool.Declares param) :
    ∃ declared, pool.params[param.raw]? = some declared :=
  ⟨_, Array.getElem?_eq_getElem declares⟩

theorem Prefix.has (grown : Prefix before after) (inside : before.Has type) : after.Has type := by
  obtain ⟨node, found⟩ := inside.lookup
  exact has_of_lookup (grown.entries _ _ found)

theorem Prefix.size_le (grown : Prefix before after) : before.size ≤ after.size := by
  refine Nat.not_lt.mp fun shorter => ?_
  have inside : before.Has ⟨after.size⟩ := shorter
  exact Nat.lt_irrefl _ (grown.has inside)

/-- Reading a handle of the pool. -/
theorem node_eq (found : pool.types[type.raw]? = some node) : pool.node type = .ok node := by
  simp [TypePool.node, found]

theorem lookup_of_node (ran : pool.node type = .ok node) : pool.types[type.raw]? = some node := by
  unfold TypePool.node at ran
  split at ran
  · cases ran
    assumption
  · cases ran

namespace Valid

variable (valid : pool.Valid)
include valid

/-- No entry stands at two places, since the map has only one of them. -/
theorem distinct (first second : Nat) (node : TypeNode)
    (found : pool.types[first]? = some node) (there : pool.types[second]? = some node) :
    first = second := by
  have answer := (valid.lockstep node ⟨first⟩).mpr found
  have other := (valid.lockstep node ⟨second⟩).mpr there
  exact congrArg TypeRef.raw (Option.some.inj (answer.symm.trans other))

/-- Depth makes no difference once it is large enough. -/
theorem treeWithin_eq : ∀ (depth : Nat) (type : TypeRef), type.raw < depth →
    pool.treeWithin depth type = pool.tree type
  | 0, _, deep => absurd deep (Nat.not_lt_zero _)
  | depth + 1, type, deep => by
    unfold tree
    simp only [treeWithin]
    cases found : pool.types[type.raw]? with
    | none => rfl
    | some node =>
      refine TypeNode.toTree_congr fun part member => ?_
      have below := valid.parts _ _ found part member
      rw [treeWithin_eq depth part (by omega), treeWithin_eq type.raw part below]
  termination_by depth type => depth + type.raw
  decreasing_by all_goals omega

/-- The tree of an entry is built from the trees of its parts. -/
theorem tree_eq (found : pool.types[type.raw]? = some node) :
    pool.tree type = node.toTree pool.tree := by
  unfold tree
  simp only [treeWithin, found]
  exact TypeNode.toTree_congr fun part member =>
    valid.treeWithin_eq _ part (valid.parts _ _ found part member)

/-- Different entries stand for different types. -/
theorem tree_injective : ∀ (first second : TypeRef), pool.Has first → pool.Has second →
    pool.tree first = pool.tree second → first = second
  | first, second, inside, inside', same => by
    obtain ⟨node, found⟩ := inside.lookup
    obtain ⟨node', found'⟩ := inside'.lookup
    have below := valid.parts _ _ found
    have below' := valid.parts _ _ found'
    rw [valid.tree_eq found, valid.tree_eq found'] at same
    have parts : ∀ part ∈ node.parts, ∀ other ∈ node'.parts,
        pool.tree part = pool.tree other → part = other := by
      intro part member other member' trees
      have := below part member
      exact tree_injective part other (Nat.lt_trans (below part member) inside)
        (Nat.lt_trans (below' other member') inside') trees
    have nodes : node = node' := TypeNode.toTree_injective parts same
    subst nodes
    have raw := valid.distinct _ _ node found found'
    cases first
    cases second
    exact congrArg TypeRef.mk raw
  termination_by first => first.raw

end Valid

/-- Growth does not change what a handle stands for. -/
theorem Prefix.tree_eq (grown : Prefix before after) (valid : before.Valid)
    (inside : before.Has type) : after.tree type = before.tree type := by
  have within : ∀ (depth : Nat) (type : TypeRef), before.Has type →
      after.treeWithin depth type = before.treeWithin depth type := by
    intro depth
    induction depth with
    | zero => exact fun _ _ => rfl
    | succ depth ih =>
      intro type inside
      obtain ⟨node, found⟩ := inside.lookup
      simp only [treeWithin, found, grown.entries _ _ found]
      exact TypeNode.toTree_congr fun part member =>
        ih part (Nat.lt_trans (valid.parts _ _ found part member) inside)
  exact within _ type inside

theorem Prefix.map_tree_eq (grown : Prefix before after) (valid : before.Valid)
    {types : List TypeRef} (inside : ∀ type ∈ types, before.Has type) :
    types.map after.tree = types.map before.tree :=
  List.map_congr_left fun type member => grown.tree_eq valid (inside type member)

/-- A pool has grown by interning. -/
structure Growth (before after : TypePool) : Prop where
  grown : before.Extends after
  valid : after.Valid

namespace Growth

theorem trans {first second third : TypePool} (earlier : first.Growth second)
    (later : second.Growth third) : first.Growth third :=
  ⟨earlier.grown.trans later.grown, later.valid⟩

variable (growth : before.Growth after)
include growth

theorem has (inside : before.Has type) : after.Has type := growth.grown.types.has inside

theorem size_le : before.size ≤ after.size := growth.grown.types.size_le

theorem declares {param : ParamRef} (declared : before.Declares param) : after.Declares param := by
  unfold Declares at declared ⊢
  rwa [growth.grown.params]

theorem tree_eq (valid : before.Valid) (inside : before.Has type) :
    after.tree type = before.tree type :=
  growth.grown.types.tree_eq valid inside

theorem map_tree_eq (valid : before.Valid) {types : List TypeRef}
    (inside : ∀ type ∈ types, before.Has type) : types.map after.tree = types.map before.tree :=
  growth.grown.types.map_tree_eq valid inside

end Growth

theorem Valid.growth (valid : pool.Valid) : pool.Growth pool := ⟨.refl pool, valid⟩

/-- The parts and the parameter of a new entry are known. -/
structure Admits (pool : TypePool) (node : TypeNode) : Prop where
  parts : ∀ part ∈ node.parts, pool.Has part
  named : ∀ param variance, node = .var param variance → pool.Declares param

/-- Every entry keeps its place when one is pushed. -/
theorem push_entries (index : Nat) (other : TypeNode) (present : pool.types[index]? = some other) :
    (pool.push node).2.types[index]? = some other := by
  have inside := (Array.getElem?_eq_some_iff.mp present).1
  simpa [TypePool.push, Array.getElem?_push, Nat.ne_of_lt inside] using present

/-- The handle of a pushed entry is that of its place. -/
theorem push_lookup : (pool.push node).2.types[(pool.push node).1.raw]? = some node := by
  simp [TypePool.push, TypePool.size]

/-- Pushing changes the map at the entry only. -/
theorem find?_push (other : TypeNode) :
    (pool.push node).2.find? other =
      if other = node then some (pool.push node).1 else pool.find? other := by
  by_cases same : other = node
  · subst same
    simp [find?, TypePool.push]
  · have differs : (other == node) = false := beq_false_of_ne same
    simp [find?, TypePool.push, List.lookup_cons, differs, same]

/-- Pushing a node that has no handle yet hides no other. -/
theorem push_extends (missing : pool.find? node = none) : pool.Extends (pool.push node).2 := by
  refine ⟨⟨push_entries, fun other type found => ?_⟩, rfl⟩
  rw [find?_push]
  by_cases same : other = node
  · subst same
    rw [missing] at found
    cases found
  · rwa [if_neg same]

/-- Interning leaves the entries that are there in their places. -/
theorem intern_extends : pool.Extends (pool.intern node).2 := by
  unfold TypePool.intern
  split
  · exact .refl pool
  · rename_i missing
    exact push_extends missing

/-- The handle that interning gives is the one that the map has afterwards. -/
theorem find?_intern_self : (pool.intern node).2.find? node = some (pool.intern node).1 := by
  unfold TypePool.intern
  split
  · assumption
  · rw [find?_push, if_pos rfl]

/-- A node without a handle is no entry. -/
theorem Lockstep.absent (lockstep : pool.Lockstep) (missing : pool.find? node = none)
    (index : Nat) : pool.types[index]? ≠ some node := by
  intro present
  have found := (lockstep node ⟨index⟩).mpr present
  rw [missing] at found
  cases found

/-- The two stores grow in lockstep when the entry is new. -/
theorem Lockstep.push (lockstep : pool.Lockstep) (missing : pool.find? node = none) :
    (pool.push node).2.Lockstep := by
  intro other type
  rw [find?_push]
  by_cases same : other = node
  · subst same
    rw [if_pos rfl]
    constructor
    · intro found
      cases found
      exact push_lookup
    · intro present
      rcases lookup_push present with old | ⟨last, -⟩
      · exact absurd old (lockstep.absent missing type.raw)
      · exact congrArg (some ∘ TypeRef.mk) last.symm
  · rw [if_neg same, lockstep other type]
    constructor
    · intro present
      exact push_entries type.raw other present
    · intro present
      rcases lookup_push present with old | ⟨-, rfl⟩
      · exact old
      · exact absurd rfl same

/-- A new entry at the end keeps a pool valid. -/
theorem Valid.push (valid : pool.Valid) (admits : pool.Admits node)
    (missing : pool.find? node = none) : pool.Growth (pool.push node).2 := by
  have grown : pool.Extends (pool.push node).2 := push_extends missing
  refine ⟨grown, ⟨valid.primitives.trans grown.types, valid.lockstep.push missing, ?_, ?_, ?_⟩⟩
  · intro index found present part member
    rcases lookup_push present with old | ⟨rfl, rfl⟩
    · exact valid.parts index found old part member
    · exact admits.parts part member
  · intro index param variance present
    rcases lookup_push present with old | ⟨_, same⟩
    · exact valid.named index param variance old
    · exact admits.named param variance same.symm
  · intro index declared present bound member
    exact grown.types.has (valid.bounds index declared present bound member)

/-- Interning grows the pool, and the handle it gives is that of the entry. -/
theorem intern_growth (valid : pool.Valid) (admits : pool.Admits node) :
    pool.Growth (pool.intern node).2 ∧
      (pool.intern node).2.types[(pool.intern node).1.raw]? = some node := by
  have growth : pool.Growth (pool.intern node).2 := by
    unfold TypePool.intern
    split
    · exact valid.growth
    · rename_i missing
      exact valid.push admits missing
  exact ⟨growth, (growth.valid.lockstep node _).mp find?_intern_self⟩

/-- Distinct nodes are entered in lockstep when none of them is there. -/
theorem Lockstep.pushAll {nodes : List TypeNode} (lockstep : pool.Lockstep) (distinct : nodes.Nodup)
    (missing : ∀ node ∈ nodes, pool.find? node = none) : (pool.pushAll nodes).Lockstep := by
  induction nodes generalizing pool with
  | nil => exact lockstep
  | cons node rest ih =>
    obtain ⟨apart, distinctRest⟩ := List.nodup_cons.mp distinct
    refine ih (lockstep.push (missing node List.mem_cons_self)) distinctRest fun other member => ?_
    have differs : other ≠ node := fun same => apart (same ▸ member)
    rw [find?_push, if_neg differs]
    exact missing other (List.mem_cons_of_mem _ member)

/-- So the map of a new pool has the places of the primitives. -/
theorem lockstep_empty : Lockstep {} := by
  rw [empty_eq_pushAll]
  have nothing : Lockstep { types := #[], dedup := [] } := by
    intro node type
    simp [find?]
  exact nothing.pushAll (by decide) fun _ _ => rfl

/-- Validity, entry by entry. -/
theorem valid_iff_checks : pool.Valid ↔
    (∀ entry ∈ ({} : TypePool).types.toList.zipIdx, pool.types[entry.2]? = some entry.1) ∧
      (∀ entry ∈ pool.types.toList.zipIdx, pool.find? entry.1 = some ⟨entry.2⟩) ∧
      (∀ entry ∈ pool.dedup, ∀ type ∈ pool.find? entry.1, pool.types[type.raw]? = some entry.1) ∧
      (∀ entry ∈ pool.types.toList.zipIdx, ∀ part ∈ entry.1.parts, part.raw < entry.2) ∧
      (∀ node ∈ pool.types.toList, ∀ param ∈ node.param?, pool.Declares param) ∧
      ∀ declared ∈ pool.params.toList, ∀ bound ∈ declared.bounds, pool.Has bound := by
  constructor
  · intro valid
    refine ⟨?_, ?_, ?_, ?_, ?_, ?_⟩
    · rintro ⟨node, index⟩ member
      rw [List.mem_zipIdx_iff_getElem?, Array.getElem?_toList] at member
      exact valid.primitives.entries index node member
    · rintro ⟨node, index⟩ member
      rw [List.mem_zipIdx_iff_getElem?, Array.getElem?_toList] at member
      exact (valid.lockstep node ⟨index⟩).mpr member
    · exact fun entry _ type found => (valid.lockstep entry.1 type).mp found
    · rintro ⟨node, index⟩ member
      rw [List.mem_zipIdx_iff_getElem?, Array.getElem?_toList] at member
      exact valid.parts index node member
    · intro node member param listed
      obtain ⟨index, found⟩ := List.mem_iff_getElem?.mp member
      cases node with
      | var =>
        cases listed
        exact valid.named index _ _ (Array.getElem?_toList ▸ found)
      | _ => cases listed
    · intro declared member
      obtain ⟨index, found⟩ := List.mem_iff_getElem?.mp member
      exact valid.bounds index declared (Array.getElem?_toList ▸ found)
  · rintro ⟨primitives, placed, mapped, parts, named, bounds⟩
    have lockstep : pool.Lockstep := by
      intro node type
      constructor
      · intro found
        obtain ⟨before, after, split, -⟩ := List.lookup_eq_some_iff.mp found
        exact mapped (node, type) (by simp [split]) type found
      · intro found
        rw [← Array.getElem?_toList] at found
        exact placed (node, type.raw) (List.mem_zipIdx_iff_getElem?.mpr found)
    have entries (index : Nat) (node : TypeNode)
        (present : ({} : TypePool).types[index]? = some node) : pool.types[index]? = some node := by
      rw [← Array.getElem?_toList] at present
      exact primitives (node, index) (List.mem_zipIdx_iff_getElem?.mpr present)
    refine ⟨⟨entries, fun node type found => ?_⟩, lockstep, ?_, ?_, ?_⟩
    · have present := (lockstep_empty node type).mp found
      exact (lockstep node type).mpr (entries type.raw node present)
    · intro index node found
      rw [← Array.getElem?_toList] at found
      exact parts (node, index) (List.mem_zipIdx_iff_getElem?.mpr found)
    · intro index param variance found
      rw [← Array.getElem?_toList] at found
      exact named _ (List.mem_of_getElem? found) param rfl
    · intro index declared found
      rw [← Array.getElem?_toList] at found
      exact bounds declared (List.mem_of_getElem? found)

instance : Decidable pool.Valid := decidable_of_iff' _ valid_iff_checks

/-- A new pool holds the primitives only. -/
theorem valid_empty : Valid {} := by decide

/-- Entries from a handle on, each with its handle. -/
def numbered : Nat → List TypeNode → List (TypeNode × TypeRef)
  | _, [] => []
  | raw, node :: rest => (node, ⟨raw⟩) :: numbered (raw + 1) rest

/-- A pool of these entries, in lockstep when they are distinct. -/
def ofEntries (types : Array TypeNode) (params : Array TypeParam := #[]) : TypePool where
  types := types
  dedup := numbered 0 types.toList
  params := params

end TypePool
end ClassLang
