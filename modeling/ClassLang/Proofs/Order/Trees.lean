import ClassLang.Proofs.Order.Types
import ClassLang.Proofs.Order.Matching

/-! A renaming of the types of two pools: types that stand for the same tree correspond. -/

namespace ClassLang

namespace TypeTree

mutual

/-- The type over other numbers of parameters. -/
def renamed (params : ParamRef ≃ ParamRef) : TypeTree → TypeTree
  | .applied base args => .applied base (renamedAll params args)
  | .var param variance => .var (params param) variance
  | .wildcard variance bound => .wildcard variance (renamed params bound)
  | tree => tree

def renamedAll (params : ParamRef ≃ ParamRef) : List TypeTree → List TypeTree
  | [] => []
  | tree :: trees => renamed params tree :: renamedAll params trees

end

variable (params : ParamRef ≃ ParamRef)

theorem renamedAll_eq (trees : List TypeTree) : renamedAll params trees = trees.map
    (renamed params) := by
  induction trees with
  | nil => rfl
  | cons tree rest ih => exact congrArg (_ :: ·) ih

theorem renamed_symm (tree : TypeTree) : renamed params.symm (renamed params tree) = tree := by
  induction tree with
  | applied base args ih =>
    rw [renamed, renamed, renamedAll_eq, renamedAll_eq, List.map_map]
    exact congrArg (applied base) ((List.map_congr_left ih).trans (List.map_id _))
  | wildcard variance bound ih => rw [renamed, renamed, ih]
  | var param variance => rw [renamed, renamed, params.symm_apply_apply]
  | _ => rfl

theorem renamed_injective : Function.Injective (renamed params) :=
  Function.LeftInverse.injective (renamed_symm params)

end TypeTree

instance : Renamable TypeTree :=
  ⟨fun rename => TypeTree.renamed rename.params, fun rename tree =>
    TypeTree.renamed_symm rename.params tree⟩

theorem TypeTree.on_applied (rename : Renaming) (base : Name) (args : List TypeTree) :
    rename.on (TypeTree.applied base args) = .applied base (rename.on args) :=
  congrArg (TypeTree.applied base) (renamedAll_eq rename.params args)

namespace TypeNode

variable {rename : Renaming}

theorem parts_on (node : TypeNode) : (rename.on node).parts = rename.on node.parts := by
  cases node <;> rfl

/-- The tree of a renamed entry, when its parts stand for the renamed trees. -/
theorem toTree_on {first second : TypeRef → TypeTree} {node : TypeNode}
    (parts : ∀ part ∈ node.parts, second (rename.on part) = rename.on (first part)) :
    (rename.on node).toTree second = rename.on (node.toTree first) := by
  cases node with
  | applied base args =>
    change TypeTree.applied base ((args.map rename.on).map second) = rename.on
      (TypeTree.applied base (args.map first))
    rw [TypeTree.on_applied, List.map_map, rename.on_list, List.map_map]
    exact congrArg (TypeTree.applied base) (List.map_congr_left parts)
  | wildcard variance bound =>
    exact congrArg (TypeTree.wildcard variance) (parts bound List.mem_cons_self)
  | _ => rfl

theorem eq_on_of_map {first second : TypeRef → TypeTree} : ∀ {types types' : List TypeRef},
    (∀ part ∈ types, ∀ other ∈ types', second other = rename.on (first part) →
      other = rename.on part) → types'.map second = rename.on (types.map first) →
      types' = rename.on types
  | [], [], _, _ => rfl
  | [], _ :: _, _, same => nomatch same
  | _ :: _, [], _, same => nomatch same
  | part :: types, other :: types', parts, same => by
    obtain ⟨head, tail⟩ := List.cons.inj same
    have later := eq_on_of_map
      (fun part member other member' => parts part (List.mem_cons_of_mem _ member) other
      (List.mem_cons_of_mem _ member')) tail
    rw [parts part List.mem_cons_self other List.mem_cons_self head, later]
    rfl

/-- Entries with corresponding trees correspond, when the parts with corresponding trees do. -/
theorem eq_on_of_toTree {first second : TypeRef → TypeTree} {node node' : TypeNode}
    (parts : ∀ part ∈ node.parts, ∀ other ∈ node'.parts, second other = rename.on (first part) →
      other = rename.on part)
    (same : node'.toTree second = rename.on (node.toTree first)) : node' = rename.on node := by
  cases node with
  | applied base args =>
    rw [toTree, TypeTree.on_applied] at same
    cases node' with
    | applied base' args' =>
      obtain ⟨rfl, trees⟩ := TypeTree.applied.inj same
      exact congrArg (applied base') (eq_on_of_map parts trees)
    | _ => cases same
  | wildcard variance bound =>
    cases node' with
    | wildcard variance' bound' =>
      obtain ⟨rfl, tree⟩ := TypeTree.wildcard.inj same
      exact congrArg (wildcard variance')
        (parts bound List.mem_cons_self bound' List.mem_cons_self tree)
    | _ => cases same
  | var param variance =>
    cases node' with
    | var param' variance' =>
      obtain ⟨rfl, rfl⟩ := TypeTree.var.inj same
      rfl
    | _ => cases same
  | _ => cases node' <;> cases same; rfl

end TypeNode

namespace Renaming

/-- Types of two pools that stand for the same tree, over other numbers of parameters; the type that
is not there is none of either. -/
def Twins (params : ParamRef ≃ ParamRef) (first second : TypePool) (here there : Nat) : Prop :=
  first.Has ⟨here⟩ ∧ second.Has ⟨there⟩ ∧ second.tree ⟨there⟩ = (first.tree ⟨here⟩).renamed params ∨
    here = TypeRef.absent.raw ∧ there = TypeRef.absent.raw

variable {params : ParamRef ≃ ParamRef} {first second : TypePool}

theorem twins_matching (valid : first.Valid) (valid' : second.Valid)
    (room : first.size ≤ TypeRef.absent.raw) (room' : second.size ≤ TypeRef.absent.raw) :
    Matching (TypeRef.absent.raw + 1) (Twins params first second) := by
  have apart : ∀ {pool : TypePool}, pool.size ≤ TypeRef.absent.raw →
      ¬ pool.Has ⟨TypeRef.absent.raw⟩ :=
    fun room inside => Nat.not_lt.mpr room inside
  constructor
  case inside =>
    rintro here there (⟨inside, inside', -⟩ | ⟨gone, gone'⟩)
    · exact ⟨Nat.lt_succ_of_lt (Nat.lt_of_lt_of_le inside room),
        Nat.lt_succ_of_lt (Nat.lt_of_lt_of_le inside' room')⟩
    · exact ⟨Nat.lt_succ_of_le gone.le, Nat.lt_succ_of_le gone'.le⟩
  case right =>
    rintro here there other (⟨inside, inside', same⟩ | ⟨gone, gone'⟩)
      (⟨again, again', same'⟩ | ⟨still, still'⟩)
    · exact congrArg TypeRef.raw (valid'.tree_injective _ _ inside' again' (same.trans same'.symm))
    · exact absurd (still ▸ inside) (apart room)
    · exact absurd (gone ▸ again) (apart room)
    · exact gone'.trans still'.symm
  case left =>
    rintro here other there (⟨inside, inside', same⟩ | ⟨gone, gone'⟩)
      (⟨again, again', same'⟩ | ⟨still, still'⟩)
    · have trees := TypeTree.renamed_injective params (same.symm.trans same')
      exact congrArg TypeRef.raw (valid.tree_injective _ _ inside again trees)
    · exact absurd (still' ▸ inside') (apart room')
    · exact absurd (gone' ▸ again') (apart room')
    · exact gone.trans still.symm

theorem twins_primitive (valid : first.Valid) (valid' : second.Valid) {type : TypeRef}
    (primitive : type.isPrimitive = true) : Twins params first second type.raw type.raw := by
  have small : type.raw < 7 := of_decide_eq_true primitive
  obtain ⟨node, stored⟩ : ∃ node, ({} : TypePool).types[type.raw]? = some node :=
    ⟨_, Array.getElem?_eq_getElem small⟩
  have found := valid.primitives.entries _ _ stored
  have found' := valid'.primitives.entries _ _ stored
  have atomic : ∀ tree tree' : TypeRef → TypeTree,
      node.toTree tree' = (node.toTree tree).renamed params := by
    have listed := Array.mem_of_getElem? stored
    simp only [List.mem_toArray, List.mem_cons, List.not_mem_nil, or_false] at listed
    rcases listed with rfl | rfl | rfl | rfl | rfl | rfl | rfl <;> exact fun _ _ => rfl
  apply Or.inl
  refine ⟨TypePool.has_of_lookup found, TypePool.has_of_lookup found', ?_⟩
  change second.tree type = (first.tree type).renamed params
  rw [valid.tree_eq found, valid'.tree_eq found']
  exact atomic _ _

/-- Numbers for the types of two pools, given those for parameters, symbols and units. -/
theorem exists_carries (valid : first.Valid) (valid' : second.Valid)
    (room : first.size ≤ TypeRef.absent.raw) (room' : second.size ≤ TypeRef.absent.raw)
    (params : ParamRef ≃ ParamRef) (symbols units : Nat ≃ Nat) : ∃ rename : Renaming,
    rename.params = params ∧ rename.symbols = symbols ∧ rename.units = units ∧
      rename.Carries first second ∧ ∀ type, first.Has type → second.Has (rename.on type) →
        second.tree (rename.on type) = rename.on (first.tree type) := by
  obtain ⟨carry, carried, only⟩ :=
    (@twins_matching params first second valid valid' room room').exists_equiv
  let types : TypeRef ≃ TypeRef :=
    { toFun := fun type => ⟨carry type.raw⟩
      invFun := fun type => ⟨carry.symm type.raw⟩
      left_inv := fun type => congrArg TypeRef.mk (carry.symm_apply_apply type.raw)
      right_inv := fun type => congrArg TypeRef.mk (carry.apply_symm_apply type.raw) }
  let rename : Renaming :=
    { types, params, symbols, units
      primitive := fun type isPrimitive =>
        congrArg TypeRef.mk (carried _ _ (twins_primitive valid valid' isPrimitive))
      absent := congrArg TypeRef.mk (carried _ _ (.inr ⟨rfl, rfl⟩)) }
  have trees : ∀ type, first.Has type → second.Has (rename.on type) →
      second.tree (rename.on type) = rename.on (first.tree type) := by
    intro type inside inside'
    have paired := only type.raw (Nat.lt_succ_of_lt (Nat.lt_of_lt_of_le inside room))
      (Nat.lt_succ_of_lt (Nat.lt_of_lt_of_le inside' room'))
    rcases paired with ⟨-, -, same⟩ | ⟨gone, -⟩
    · exact same
    · exact absurd inside (Nat.not_lt.mpr (gone ▸ room))
  refine ⟨rename, rfl, rfl, rfl, ?_, trees⟩
  constructor
  case nodes =>
    intro type node node' found found'
    have held : first.Has type := TypePool.has_of_lookup found
    have there : second.Has (rename.on type) := TypePool.has_of_lookup found'
    have same := trees type held there
    rw [valid.tree_eq found, valid'.tree_eq found'] at same
    apply TypeNode.eq_on_of_toTree _ same
    intro part member other member' twins
    have below := Nat.lt_trans (valid.parts _ _ found part member) held
    have below' := Nat.lt_trans (valid'.parts _ _ found' other member') there
    exact congrArg TypeRef.mk (carried _ _ (.inl ⟨below, below', twins⟩)).symm
  case handles =>
    intro type type' node mapped mapped'
    have found := (valid.lockstep node type).mp mapped
    have found' := (valid'.lockstep (rename.on node) type').mp mapped'
    have held : first.Has type := TypePool.has_of_lookup found
    have there : second.Has type' := TypePool.has_of_lookup found'
    have same : second.tree type' = rename.on (first.tree type) := by
      rw [valid.tree_eq found, valid'.tree_eq found']
      apply TypeNode.toTree_on
      intro part member
      have listed : rename.on part ∈ (rename.on node).parts := by
        rw [TypeNode.parts_on]
        exact List.mem_map_of_mem member
      exact trees part (Nat.lt_trans (valid.parts _ _ found part member) held)
        (Nat.lt_trans (valid'.parts _ _ found' _ listed) there)
    exact congrArg TypeRef.mk (carried _ _ (.inl ⟨held, there, same⟩)).symm

end Renaming

end ClassLang
