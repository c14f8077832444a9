import ClassLang.Proofs.Type.Inheritance
import Mathlib.Data.List.Find
import Mathlib.Data.List.Nodup

/-! What a generic type inherits is what its instances inherit: instantiating one after the other is
instantiating once, so that arguments may be put in before or after the ancestors are collected. -/

namespace ClassLang

namespace TypeTree

/-- The parameter occurs in the type. -/
inductive Mentions (param : ParamRef) : TypeTree → Prop where
  | var (variance : Variance) : Mentions param (.var param variance)
  | arg {base : Name} {args : List TypeTree} {arg : TypeTree} (member : arg ∈ args)
      (inside : Mentions param arg) : Mentions param (.applied base args)
  | bound {variance : Variance} {bound : TypeTree} (inside : Mentions param bound) :
      Mentions param (.wildcard variance bound)

section
variable {param : ParamRef}

@[simp] theorem mentions_class (name : Name) : ¬ (class_ name).Mentions param := by rintro ⟨⟩

@[simp] theorem mentions_var {other : ParamRef} {variance : Variance} :
    (var other variance).Mentions param ↔ other = param :=
  ⟨fun | .var _ => rfl, fun same => same ▸ .var variance⟩

@[simp] theorem mentions_applied {base : Name} {args : List TypeTree} :
    (applied base args).Mentions param ↔ ∃ arg ∈ args, arg.Mentions param :=
  ⟨fun | .arg member inside => ⟨_, member, inside⟩, fun ⟨_, member, inside⟩ => .arg member inside⟩

end

def IsWildcard : TypeTree → Prop
  | wildcard _ _ => True
  | _ => False

variable {first second : TreeSubstitution} {tree : TypeTree}

/-- Only what is put in for the parameters of a type matters. -/
theorem instantiate_congr (same : ∀ param, tree.Mentions param → first param = second param) :
    tree.instantiate first = tree.instantiate second := by
  induction tree with
  | applied base args ih =>
    simp only [instantiate, instantiateAll_eq_map]
    refine congrArg _ (List.map_congr_left fun arg member => ?_)
    exact ih arg member fun param inside => same param (.arg member inside)
  | var param variance => simp only [instantiate, same param (.var variance)]
  | wildcard variance bound ih =>
    simp only [instantiate, ih fun param inside => same param (.bound inside)]
  | _ => rfl

/-- A class type is one of that class whatever is put in. -/
theorem base?_instantiate {name : Name} (named : tree.base? = some name)
    (subst : TreeSubstitution) : (tree.instantiate subst).base? = some name := by
  cases tree with
  | class_ | applied => exact named
  | _ => cases named

theorem args_instantiate {name : Name} (named : tree.base? = some name) (subst : TreeSubstitution) :
    (tree.instantiate subst).args = tree.args.map (·.instantiate subst) := by
  cases tree with
  | applied base args => exact instantiateAll_eq_map subst args
  | class_ => rfl
  | _ => cases named

mutual

/-- No wildcard is the bound of another one, and one that goes neither way is `?`. -/
def Plain : TypeTree → Prop
  | applied _ args => PlainAll args
  | wildcard variance bound => bound.Plain ∧ ¬ bound.IsWildcard ∧
      (variance = .invariant → bound = any)
  | _ => True

def PlainAll : List TypeTree → Prop
  | [] => True
  | tree :: trees => tree.Plain ∧ PlainAll trees

end

theorem PlainAll.mem {trees : List TypeTree} (plain : PlainAll trees) (member : tree ∈ trees) :
    tree.Plain := by
  induction trees with
  | nil => cases member
  | cons first trees ih =>
    rcases List.mem_cons.mp member with rfl | later
    · exact plain.1
    · exact ih plain.2 later

/-- A replaced bound below a wildcard that is none goes into it, or collapses with it. -/
theorem wildcardOver_directed {variance : Variance} (directed : variance ≠ .invariant)
    {bound : TypeTree} (plain : ¬ bound.IsWildcard) (replaced : TypeTree) :
    wildcardOver variance bound replaced = match replaced with
      | wildcard inner innerBound =>
        if inner = variance then wildcard variance innerBound else wildcard .invariant any
      | _ => wildcard variance replaced := by
  by_cases same : replaced = bound
  · subst same
    rw [wildcardOver_self]
    cases replaced with
    | wildcard => exact absurd trivial plain
    | _ => rfl
  · cases replaced with
    | wildcard inner innerBound => exact wildcardOver_wildcard variance same
    | _ => rw [wildcardOver_other variance same (by simp), if_neg directed]

/-- A replaced bound leaves the direction of the wildcard, or there is none left. -/
theorem wildcardOver_shape (variance : Variance) (bound replaced : TypeTree) :
    (∃ inner, wildcardOver variance bound replaced = wildcard variance inner) ∨
      wildcardOver variance bound replaced = wildcard .invariant any := by
  unfold wildcardOver
  split
  · exact .inl ⟨_, rfl⟩
  · split
    · split
      · exact .inl ⟨_, rfl⟩
      · exact .inr rfl
    · split
      · exact .inl ⟨_, rfl⟩
      · exact .inl ⟨_, rfl⟩

end TypeTree

namespace TreeSubstitution

/-- One substitution, and another one in what it puts in. -/
def andThen (first second : TreeSubstitution) : TreeSubstitution := fun param =>
  match first param with
  | some tree => some (tree.instantiate second)
  | none => second param

end TreeSubstitution

namespace TypeTree
variable {first second : TreeSubstitution} {tree : TypeTree}

theorem instantiate_instantiate (plain : tree.Plain) :
    (tree.instantiate first).instantiate second = tree.instantiate (first.andThen second) := by
  induction tree with
  | applied base args ih =>
    simp only [instantiate, instantiateAll_eq_map, List.map_map]
    exact congrArg _ (List.map_congr_left fun arg member =>
      ih arg member (PlainAll.mem plain member))
  | var param variance =>
    unfold TreeSubstitution.andThen
    cases bound : first param with
    | none => simp [instantiate, bound]
    | some tree => simp [instantiate, bound]
  | wildcard variance bound ih =>
    obtain ⟨plainBound, noWildcard, whole⟩ := plain
    have inner := ih plainBound
    by_cases neither : variance = .invariant
    · rw [whole neither]
      simp [instantiate, wildcardOver_self]
    · have directed := wildcardOver_directed neither noWildcard
      have shaped {bound : TypeTree} (plain : ¬ bound.IsWildcard) :=
        wildcardOver_directed neither plain
      rw [instantiate, instantiate, ← inner, directed, directed]
      cases replaced : bound.instantiate first with
      | wildcard direction other =>
        rcases wildcardOver_shape direction other (other.instantiate second) with ⟨rest, shape⟩ |
          shape
        · by_cases same : direction = variance
          · subst same
            simp [instantiate, shape]
          · simp [instantiate, shape, same, wildcardOver_self]
        · by_cases same : direction = variance
          · subst same
            simp [instantiate, shape, Ne.symm neither]
          · simp [instantiate, shape, same, wildcardOver_self, Ne.symm neither]
      | _ => exact shaped id _
  | _ => rfl

end TypeTree

namespace TreeSubstitution

/-- What is bound to a parameter is an argument that stands at one of its positions. -/
theorem foldl_bind (params : List ParamRef) (args : List TypeTree) (subst : TreeSubstitution)
    (change : TypeTree → TypeTree) (changed : TreeSubstitution) {param : ParamRef}
    (start : changed param = (subst param).map change) :
    (params.zip (args.map change)).foldl (fun subst entry => subst.bind entry.1 entry.2)
      changed param = ((params.zip args).foldl (fun subst entry => subst.bind entry.1 entry.2)
        subst param).map change := by
  induction params generalizing args subst changed with
  | nil => exact start
  | cons first params ih =>
    cases args with
    | nil => exact start
    | cons arg args =>
      refine ih args _ _ ?_
      simp only [bind]
      split
      · rfl
      · exact start

/-- Arguments may be changed before they are bound or after. -/
theorem ofArgs_map (params : List ParamRef) (args : List TypeTree) (change : TypeTree → TypeTree)
    (param : ParamRef) : ofArgs params (args.map change) param =
    (ofArgs params args param).map change :=
  foldl_bind params args _ change _ rfl

/-- Other parameters keep what they are bound to. -/
theorem foldl_bind_other {params : List ParamRef} {param : ParamRef} (other : param ∉ params)
    (args : List TypeTree) (subst : TreeSubstitution) :
    (params.zip args).foldl (fun subst entry => subst.bind entry.1 entry.2) subst param =
      subst param := by
  induction params generalizing args subst with
  | nil => rfl
  | cons first params ih =>
    cases args with
    | nil => rfl
    | cons arg args =>
      rw [List.zip_cons_cons, List.foldl_cons,
        ih (fun later => other (List.mem_cons_of_mem _ later))]
      exact if_neg fun (same : param = first) => other (same ▸ List.mem_cons_self)

theorem ofArgs_other {params : List ParamRef} {param : ParamRef} (other : param ∉ params)
    (args : List TypeTree) : ofArgs params args param = none :=
  foldl_bind_other other args _

/-- With as many arguments as parameters, each parameter is bound to the argument at its
position. -/
theorem ofArgs_getElem {params : List ParamRef} (distinct : params.Nodup) {args : List TypeTree}
    {position : Nat} {param : ParamRef} {arg : TypeTree} (named : params[position]? = some param)
    (given : args[position]? = some arg) : ofArgs params args param = some arg := by
  have fold (subst : TreeSubstitution) :
      (params.zip args).foldl (fun subst entry => subst.bind entry.1 entry.2) subst param =
        some arg := by
    induction params generalizing args position subst with
    | nil => cases named
    | cons first params ih =>
      cases args with
      | nil => cases given
      | cons other args =>
        rw [List.zip_cons_cons, List.foldl_cons]
        cases position with
        | zero =>
          cases named
          cases given
          rw [foldl_bind_other (List.nodup_cons.mp distinct).1]
          exact if_pos rfl
        | succ position => exact ih (List.nodup_cons.mp distinct).2 named given _
  exact fold _

end TreeSubstitution

namespace TreeHierarchy

/-- The type parameters of a class. -/
def paramRefs (hierarchy : TreeHierarchy) (name : Name) : List ParamRef :=
  (hierarchy.params name).map Prod.fst

/-- What classes declare: their supertypes are class types over their own parameters, no two classes
share a parameter, and inheritance has no cycles. -/
structure WellFormed (hierarchy : TreeHierarchy) : Prop where
  classes : ∀ name, ∀ tree ∈ hierarchy.supertypes name, tree.base?.isSome
  plain : ∀ name, ∀ tree ∈ hierarchy.supertypes name, tree.Plain
  own : ∀ name, ∀ tree ∈ hierarchy.supertypes name, ∀ param, tree.Mentions param →
    param ∈ hierarchy.paramRefs name
  distinct : ∀ name, (hierarchy.paramRefs name).Nodup
  apart : ∀ name other param, param ∈ hierarchy.paramRefs name → param ∈ hierarchy.paramRefs other →
    name = other
  ranked : ∃ rank : Name → Nat, ∀ name, ∀ tree ∈ hierarchy.supertypes name, ∀ base,
    tree.base? = some base → rank base < rank name

/-- The same without a word on cycles. -/
structure Regular (hierarchy : TreeHierarchy) : Prop where
  classes : ∀ name, ∀ tree ∈ hierarchy.supertypes name, tree.base?.isSome
  plain : ∀ name, ∀ tree ∈ hierarchy.supertypes name, tree.Plain
  own : ∀ name, ∀ tree ∈ hierarchy.supertypes name, ∀ param, tree.Mentions param →
    param ∈ hierarchy.paramRefs name
  distinct : ∀ name, (hierarchy.paramRefs name).Nodup
  apart : ∀ name other param, param ∈ hierarchy.paramRefs name → param ∈ hierarchy.paramRefs other →
    name = other

theorem WellFormed.regular {hierarchy : TreeHierarchy} (formed : hierarchy.WellFormed) :
    hierarchy.Regular :=
  ⟨formed.classes, formed.plain, formed.own, formed.distinct, formed.apart⟩

variable {hierarchy : TreeHierarchy} {subst : TreeSubstitution} {tree : TypeTree} {name : Name}

/-- A substitution for the parameters of one class alone. -/
def OnlyOf (hierarchy : TreeHierarchy) (name : Name) (subst : TreeSubstitution) : Prop :=
  ∀ param, subst param ≠ none → param ∈ hierarchy.paramRefs name

theorem onlyOf_bindArgs (hierarchy : TreeHierarchy) (name : Name) (args : List TypeTree) :
    hierarchy.OnlyOf name (hierarchy.bindArgs name args) := by
  intro param bound
  by_contra other
  exact bound (TreeSubstitution.ofArgs_other other args)

namespace Regular
variable (regular : hierarchy.Regular)
include regular

/-- The supertypes of an instance of another class are instances of its supertypes. -/
theorem supertypes_instantiate {other : Name} (only : hierarchy.OnlyOf other subst)
    (named : tree.base? = some name) (differs : name ≠ other) :
    hierarchy.instantiateParts hierarchy.supertypes (tree.instantiate subst) =
      (hierarchy.instantiateParts hierarchy.supertypes tree).map (·.instantiate subst) := by
  simp only [instantiateParts, TypeTree.base?_instantiate named, named,
    TypeTree.args_instantiate named, List.map_map]
  refine List.map_congr_left fun part member => ?_
  refine Eq.trans ?_ (TypeTree.instantiate_instantiate (regular.plain name part member)).symm
  refine TypeTree.instantiate_congr fun param inside => ?_
  have own := regular.own name part member param inside
  have none : subst param = none := by
    by_contra bound
    exact differs (regular.apart name other param own (only param bound))
  unfold bindArgs TreeSubstitution.andThen
  rw [TreeSubstitution.ofArgs_map, none]
  cases TreeSubstitution.ofArgs ((hierarchy.params name).map Prod.fst) tree.args param <;> rfl

/-- A supertype of an instance is of the class of a declared one. -/
theorem base?_of_supertype {other : TypeTree} (named : tree.base? = some name)
    (member : other ∈ hierarchy.instantiateParts hierarchy.supertypes tree) :
    ∃ declared ∈ hierarchy.supertypes name, ∃ base, declared.base? = some base ∧
    other.base? = some base := by
  simp only [instantiateParts, named] at member
  obtain ⟨declared, listed, rfl⟩ := List.mem_map.mp member
  obtain ⟨base, hasBase⟩ := Option.isSome_iff_exists.mp (regular.classes name declared listed)
  exact ⟨declared, listed, base, hasBase, TypeTree.base?_instantiate hasBase _⟩

theorem isSome_of_supertype (named : tree.base? = some name) :
    ∀ other ∈ hierarchy.instantiateParts hierarchy.supertypes tree, other.base?.isSome := by
  intro other member
  obtain ⟨_, _, base, _, hasBase⟩ := regular.base?_of_supertype named member
  exact Option.isSome_iff_exists.mpr ⟨base, hasBase⟩

theorem ancestorsFrom_instantiate {variant : Name} (only : hierarchy.OnlyOf variant subst) :
    ∀ (fuel : Nat) (queue : List TypeTree) (seen : List Name), (∀ tree ∈ queue, tree.base?.isSome) →
    variant ∈ seen →
      hierarchy.ancestorsFrom fuel (queue.map (·.instantiate subst)) seen =
        (hierarchy.ancestorsFrom fuel queue seen).map (·.instantiate subst)
  | 0, [], _, _, _ | _ + 1, [], _, _, _ => by simp [ancestorsFrom]
  | 0, _ :: _, _, _, _ => rfl
  | fuel + 1, tree :: queue, seen, classes, listed => by
    obtain ⟨name, named⟩ := Option.isSome_iff_exists.mp (classes tree List.mem_cons_self)
    have later : ∀ other ∈ queue, other.base?.isSome :=
      fun other member => classes other (List.mem_cons_of_mem _ member)
    simp only [List.map_cons, ancestorsFrom, TypeTree.base?_instantiate named, named]
    split
    · exact ancestorsFrom_instantiate only fuel queue seen later listed
    · rename_i fresh
      have differs : name ≠ variant := by
        rintro rfl
        exact fresh (by simpa using listed)
      rw [regular.supertypes_instantiate only named differs, ← List.map_append, List.map_cons]
      refine congrArg _ (ancestorsFrom_instantiate only fuel _ _ ?_ (List.mem_cons_of_mem _ listed))
      intro other member
      rcases List.mem_append.mp member with old | new
      · exact later other old
      · exact regular.isSome_of_supertype named other new

end Regular

theorem base?_selfType (hierarchy : TreeHierarchy) (name : Name) :
    (hierarchy.selfType name).base? = some name := by
  unfold selfType
  split <;> rfl

/-- The generic type with its parameters replaced. -/
theorem selfType_instantiate (generic : hierarchy.params name ≠ []) (subst : TreeSubstitution) :
    (hierarchy.selfType name).instantiate subst =
      .applied name ((hierarchy.params name).map fun param =>
        (subst param.1).getD (.var param.1 param.2)) := by
  simp only [selfType, List.isEmpty_iff, if_neg generic, TypeTree.instantiate,
    TypeTree.instantiateAll_eq_map, List.map_map]
  rfl

/-- A class type is the first of its ancestors. -/
theorem ancestors_eq (named : tree.base? = some name) : hierarchy.ancestors tree =
    tree :: hierarchy.ancestorsFrom hierarchy.edges
      (hierarchy.instantiateParts hierarchy.supertypes tree) [name] := by
  simp [ancestors, ancestorsFrom, named]

theorem ancestorAt?_self (named : tree.base? = some name) :
    hierarchy.ancestorAt? tree name = some tree := by
  simp [ancestorAt?, ancestors_eq named, named]

/-- What is no class type has no ancestors. -/
theorem ancestorAt?_of_base?_none (none : tree.base? = none) (target : Name) :
    hierarchy.ancestorAt? tree target = .none := by
  unfold ancestorAt? ancestors
  simp [ancestorsFrom, none]

/-- Only class types are ancestors. -/
theorem isSome_of_mem_ancestorsFrom : ∀ (fuel : Nat) (queue : List TypeTree) (seen : List Name),
    ∀ other ∈ hierarchy.ancestorsFrom fuel queue seen, other.base?.isSome
  | 0, [], _, _, member | _ + 1, [], _, _, member | 0, _ :: _, _, _, member => by
    simp [ancestorsFrom] at member
  | fuel + 1, tree :: queue, seen, other, member => by
    unfold ancestorsFrom at member
    split at member
    · exact isSome_of_mem_ancestorsFrom fuel queue seen other member
    · rename_i base named
      split at member
      · exact isSome_of_mem_ancestorsFrom fuel queue seen other member
      · rcases List.mem_cons.mp member with rfl | later
        · exact Option.isSome_iff_exists.mpr ⟨base, named⟩
        · exact isSome_of_mem_ancestorsFrom fuel _ _ other later

namespace Regular
variable (regular : hierarchy.Regular)
include regular

/-- The parameter at a position is bound to the argument there. -/
theorem bindArgs_getElem {args : List TypeTree} {position : Nat} {param : ParamRef × Variance}
    {arg : TypeTree} (named : (hierarchy.params name)[position]? = some param)
    (given : args[position]? = some arg) : hierarchy.bindArgs name args param.1 = some arg :=
  TreeSubstitution.ofArgs_getElem (regular.distinct name) (by simp [paramRefs, named]) given

section
variable {args : List TypeTree} (full : args.length = (hierarchy.params name).length)
include full

/-- An argument for each parameter. -/
theorem exists_bindArgs {param : ParamRef} (own : param ∈ hierarchy.paramRefs name) :
    ∃ (position : Nat) (variance : Variance) (arg : TypeTree),
      (hierarchy.params name)[position]? = some (param, variance) ∧
      args[position]? = some arg ∧ hierarchy.bindArgs name args param = some arg := by
  obtain ⟨declared, listed, rfl⟩ := List.mem_map.mp own
  obtain ⟨position, named⟩ := List.mem_iff_getElem?.mp listed
  have inside : position < args.length := full ▸ (List.getElem?_eq_some_iff.mp named).1
  have given : args[position]? = some args[position] := List.getElem?_eq_getElem inside
  exact ⟨position, declared.2, _, named, given, regular.bindArgs_getElem named given⟩

/-- The generic type becomes the instance. -/
theorem selfType_bindArgs (generic : hierarchy.params name ≠ []) :
    (hierarchy.selfType name).instantiate (hierarchy.bindArgs name args) = .applied name args := by
  rw [selfType_instantiate generic]
  refine congrArg _ (List.ext_getElem? fun position => ?_)
  rw [List.getElem?_map]
  cases named : (hierarchy.params name)[position]? with
  | none =>
    have outside := List.getElem?_eq_none_iff.mp named
    exact (List.getElem?_eq_none_iff.mpr (full ▸ outside)).symm
  | some param =>
    have inside : position < args.length := full ▸ (List.getElem?_eq_some_iff.mp named).1
    have given : args[position]? = some args[position] := List.getElem?_eq_getElem inside
    simp [regular.bindArgs_getElem named given]

/-- The supertypes of the instance are those of the generic type, with the arguments put in. -/
theorem supertypes_selfType (generic : hierarchy.params name ≠ []) :
    hierarchy.instantiateParts hierarchy.supertypes (.applied name args) =
      (hierarchy.instantiateParts hierarchy.supertypes (hierarchy.selfType name)).map
        (·.instantiate (hierarchy.bindArgs name args)) := by
  have hasBase : (TypeTree.applied name args).base? = some name := rfl
  simp only [instantiateParts, base?_selfType, hasBase, List.map_map]
  refine List.map_congr_left fun part member => ?_
  refine Eq.trans ?_ (TypeTree.instantiate_instantiate (regular.plain name part member)).symm
  refine TypeTree.instantiate_congr fun param inside => ?_
  obtain ⟨position, variance, arg, named, given, bound⟩ :=
    regular.exists_bindArgs full (regular.own name part member param inside)
  have var : (hierarchy.selfType name).args[position]? = some (.var param variance) := by
    simp [selfType, List.isEmpty_iff, generic, TypeTree.args, named]
  have self : hierarchy.bindArgs name (hierarchy.selfType name).args param =
      some (.var param variance) :=
    regular.bindArgs_getElem named var
  change hierarchy.bindArgs name args param = _
  simp only [TreeSubstitution.andThen, self, TypeTree.instantiate, bound, Option.getD_some]

/-- What the instance inherits is what the generic type inherits, with the arguments put in. -/
theorem ancestors_instantiate (generic : hierarchy.params name ≠ []) :
    hierarchy.ancestors (.applied name args) =
      (hierarchy.ancestors (hierarchy.selfType name)).map
        (·.instantiate (hierarchy.bindArgs name args)) := by
  have self := hierarchy.base?_selfType name
  have named : (TypeTree.applied name args).base? = some name := rfl
  rw [ancestors_eq named, ancestors_eq self, List.map_cons, regular.selfType_bindArgs full generic,
    regular.supertypes_selfType full generic]
  exact congrArg _ (regular.ancestorsFrom_instantiate (hierarchy.onlyOf_bindArgs name args) _ _ _
    (regular.isSome_of_supertype self) List.mem_cons_self)

theorem ancestorAt?_instantiate (generic : hierarchy.params name ≠ []) (target : Name) :
    hierarchy.ancestorAt? (.applied name args) target =
      (hierarchy.ancestorAt? (hierarchy.selfType name) target).map
        (·.instantiate (hierarchy.bindArgs name args)) := by
  unfold ancestorAt?
  rw [regular.ancestors_instantiate full generic, List.find?_map]
  refine congrArg _ (List.find?_congr fun other member => ?_)
  obtain ⟨base, named⟩ := Option.isSome_iff_exists.mp
    (isSome_of_mem_ancestorsFrom _ _ _ other member)
  simp [TypeTree.base?_instantiate named, named]

end

end Regular

namespace WellFormed
variable (formed : hierarchy.WellFormed)
include formed

/-- What is inherited stands below the bound that all in the queue stand below. -/
theorem rank_lt_of_mem {rank : Name → Nat} (ranked : ∀ name, ∀ tree ∈ hierarchy.supertypes name,
    ∀ base, tree.base? = some base → rank base < rank name) {bound : Nat} :
    ∀ (fuel : Nat) (queue : List TypeTree) (seen : List Name),
      (∀ other ∈ queue, ∀ base, other.base? = some base → rank base < bound) →
      ∀ other ∈ hierarchy.ancestorsFrom fuel queue seen, ∀ base, other.base? = some base →
      rank base < bound
  | 0, [], _, _, _, member | _ + 1, [], _, _, _, member | 0, _ :: _, _, _, _, member => by
    simp [ancestorsFrom] at member
  | fuel + 1, tree :: queue, seen, below, other, member => by
    have later : ∀ other ∈ queue, ∀ base, other.base? = some base → rank base < bound :=
      fun other member => below other (List.mem_cons_of_mem _ member)
    unfold ancestorsFrom at member
    split at member
    · exact rank_lt_of_mem ranked fuel queue seen later other member
    · rename_i name named
      split at member
      · exact rank_lt_of_mem ranked fuel queue seen later other member
      · have within := below tree List.mem_cons_self
        rcases List.mem_cons.mp member with rfl | inherited
        · exact within
        · refine rank_lt_of_mem ranked fuel _ _ ?_ other inherited
          intro next entered
          rcases List.mem_append.mp entered with old | new
          · exact later next old
          · intro base hasBase
            obtain ⟨declared, listed, _, isDeclared, same⟩ :=
              formed.regular.base?_of_supertype named new
            cases hasBase.symm.trans same
            exact Nat.lt_trans (ranked name declared listed _ isDeclared) (within name named)

/-- Two classes that inherit from each other are one. -/
theorem acyclic {first second : TypeTree} {other : Name} (named : first.base? = some name)
    (isOther : second.base? = some other) (above : (hierarchy.ancestorAt? first other).isSome)
    (below : (hierarchy.ancestorAt? second name).isSome) : name = other := by
  obtain ⟨rank, ranked⟩ := formed.ranked
  have lower {tree : TypeTree} {name target : Name} (named : tree.base? = some name)
      (found : (hierarchy.ancestorAt? tree target).isSome) :
      name = target ∨ rank target < rank name := by
    obtain ⟨ancestor, found⟩ := Option.isSome_iff_exists.mp found
    have base : ancestor.base? = some target := by simpa using List.find?_some found
    have member := List.mem_of_find?_eq_some found
    rw [ancestors_eq named] at member
    rcases List.mem_cons.mp member with rfl | inherited
    · exact .inl (Option.some.inj (named.symm.trans base))
    · refine .inr (formed.rank_lt_of_mem ranked _ _ _ ?_ ancestor inherited target base)
      intro next new base hasBase
      obtain ⟨declared, listed, _, isDeclared, same⟩ := formed.regular.base?_of_supertype named new
      cases hasBase.symm.trans same
      exact ranked name declared listed _ isDeclared
  rcases lower named above with same | less
  · exact same
  · rcases lower isOther below with same | more
    · exact same.symm
    · exact absurd more (Nat.lt_asymm less)

end WellFormed
end TreeHierarchy
end ClassLang
