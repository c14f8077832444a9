import ClassLang.Proofs.Type.Inference
import ClassLang.Proofs.Type.Transitivity

/-! A narrowed type stays within its scrutinee. Where a variant passes parameters of its own through
to the class of the scrutinee, the narrowed type inherits from that class with the arguments that
the scrutinee has, or with the bounds of those that are wildcards. The search for ancestors goes the
same way for the generic variant and for the narrowed type, and whatever is a parameter of the
variant on one side is what was put in for it on the other. -/

namespace ClassLang
open Relation

namespace TypeTree

/-- A wildcard becomes a wildcard. -/
theorem instantiate_wildcard (variance : Variance) (bound : TypeTree) (subst : TreeSubstitution) :
    ∃ direction inner, (wildcard variance bound).instantiate subst = .wildcard direction inner := by
  rw [instantiate]
  rcases wildcardOver_shape variance bound (bound.instantiate subst) with ⟨inner, shape⟩ | shape
  · exact ⟨variance, inner, shape⟩
  · exact ⟨.invariant, any, shape⟩

/-- Only a variable becomes a variable. -/
theorem eq_var_of_instantiate {subst : TreeSubstitution} {tree : TypeTree} {param : ParamRef}
    {variance : Variance} (becomes : tree.instantiate subst = .var param variance) :
    ∃ param variance, tree = .var param variance := by
  cases tree with
  | var param variance => exact ⟨param, variance, rfl⟩
  | wildcard direction bound =>
    obtain ⟨_, _, shape⟩ := instantiate_wildcard direction bound subst
    cases shape.symm.trans becomes
  | _ => cases becomes

end TypeTree

namespace TreeSubstitution

variable {params : List ParamRef} {args others : List TypeTree}

/-- Lists of arguments that are related place by place bind each parameter to related arguments. -/
theorem ofArgs_rel {related : TypeTree → TypeTree → Prop} (each : List.Forall₂ related args others)
    (param : ParamRef) : Option.Rel related (ofArgs params args param)
    (ofArgs params others param) := by
  have fold : ∀ (first second : TreeSubstitution), Option.Rel related (first param) (second param) →
      Option.Rel related
        ((params.zip args).foldl (fun subst entry => subst.bind entry.1 entry.2) first param)
        ((params.zip others).foldl (fun subst entry => subst.bind entry.1 entry.2) second
          param) := by
    induction each generalizing params with
    | nil => simp
    | cons head _ ih =>
      intro first second start
      cases params with
      | nil => exact start
      | cons next params =>
        refine ih _ _ ?_
        simp only [bind]
        split
        · exact .some head
        · exact start
  exact fold _ _ .none

/-- With enough arguments each parameter is bound. -/
theorem isSome_ofArgs {param : ParamRef} (member : param ∈ params)
    (enough : params.length ≤ args.length) : (ofArgs params args param).isSome := by
  have kept : ∀ (entries : List (ParamRef × TypeTree)) (subst : TreeSubstitution),
      (subst param).isSome →
      (entries.foldl (fun subst entry => subst.bind entry.1 entry.2) subst param).isSome := by
    intro entries
    induction entries with
    | nil => exact fun _ isSome => isSome
    | cons entry entries ih =>
      refine fun subst isSome => ih _ ?_
      simp only [bind]
      split
      · rfl
      · exact isSome
  have fold : ∀ subst : TreeSubstitution,
      ((params.zip args).foldl (fun subst entry => subst.bind entry.1 entry.2)
        subst param).isSome := by
    induction params generalizing args with
    | nil => cases member
    | cons first params ih =>
      cases args with
      | nil => cases enough
      | cons arg args =>
        intro subst
        rw [List.zip_cons_cons, List.foldl_cons]
        by_cases later : param ∈ params
        · exact ih later (Nat.le_of_succ_le_succ enough) _
        · have same : param = first := (List.mem_cons.mp member).resolve_right later
          exact kept _ _ (by simp [bind, same])
  exact fold _

end TreeSubstitution

namespace TreeHierarchy

variable {hierarchy : TreeHierarchy} {subst : TreeSubstitution} {param : ParamRef}
    {variant base : Name}
  {own : List ParamRef} {given : ParamRef → TypeTree} {generic actual tree : TypeTree}

/-- Where one argument is a parameter of a class, the other is what is put in for the parameter. -/
def Tracks (own : List ParamRef) (given : ParamRef → TypeTree) (arg other : TypeTree) : Prop :=
  ∀ param variance, arg = .var param variance → param ∈ own → other = given param

/-- Types of one class, of which the second has what is put in for the parameters that are arguments
of the first. -/
structure Mirrors (own : List ParamRef) (given : ParamRef → TypeTree)
    (generic actual : TypeTree) : Prop where
  base : actual.base? = generic.base?
  args : List.Forall₂ (Tracks own given) generic.args actual.args

/-- The instances of a declared type mirror each other, if the type is no bare variable and its
parameters of the class are bound. -/
theorem mirrors_instantiate {first second : TreeSubstitution}
    (noVar : ∀ param variance, tree ≠ .var param variance)
    (bound : ∀ param ∈ own, tree.Mentions param → (first param).isSome)
    (tracks : ∀ param, Option.Rel (Tracks own given) (first param) (second param)) :
    Mirrors own given (tree.instantiate first) (tree.instantiate second) := by
  cases tree with
  | applied base args =>
    refine ⟨rfl, ?_⟩
    simp only [TypeTree.instantiate, TypeTree.instantiateAll_eq_map, TypeTree.args,
      List.forall₂_map_left_iff, List.forall₂_map_right_iff, List.forall₂_same]
    intro arg member param variance becomes inOwn
    obtain ⟨source, direction, rfl⟩ := TypeTree.eq_var_of_instantiate becomes
    have related := tracks source
    simp only [TypeTree.instantiate] at becomes ⊢
    cases missing : first source with
    | none =>
      rw [missing] at becomes
      cases becomes
      exact absurd (bound _ inOwn (.arg member (.var _))) (by simp [missing])
    | some found =>
      rw [missing] at becomes related
      cases also : second source with
      | none =>
        rw [also] at related
        cases related
      | some other =>
        rw [also] at related
        cases related with
        | some matched => exact matched param variance becomes inOwn
  | wildcard variance inner =>
    obtain ⟨_, _, earlier⟩ := TypeTree.instantiate_wildcard variance inner first
    obtain ⟨_, _, later⟩ := TypeTree.instantiate_wildcard variance inner second
    rw [earlier, later]
    exact ⟨rfl, .nil⟩
  | var param variance => exact absurd rfl (noVar param variance)
  | _ => exact ⟨rfl, .nil⟩

/-- Of the variant and the classes above it none declares a type variable as a supertype, and those
above declare theirs without the parameters of the variant. -/
structure Separates (hierarchy : TreeHierarchy) (variant : Name) : Prop where
  noVar : ∀ name, ReflTransGen hierarchy.Extends variant name → ∀ tree ∈ hierarchy.supertypes name,
    ∀ param variance, tree ≠ .var param variance
  apart : ∀ name, ReflTransGen hierarchy.Extends variant name → name ≠ variant →
    ∀ tree ∈ hierarchy.supertypes name, ∀ param ∈ hierarchy.paramRefs variant, ¬ tree.Mentions param

/-- What is an instance of a class, is one of the variant or of a class above it. -/
def AllAbove (hierarchy : TreeHierarchy) (variant : Name) (trees : List TypeTree) : Prop :=
  ∀ tree ∈ trees, ∀ name, tree.base? = some name → ReflTransGen hierarchy.Extends variant name

namespace Separates
variable (separates : hierarchy.Separates variant)
include separates

/-- Supertypes of types that mirror each other do so too. -/
theorem mirrors_supertypes {name : Name} (named : generic.base? = some name)
    (above : ReflTransGen hierarchy.Extends variant name)
    (full : name = variant → (hierarchy.paramRefs variant).length ≤ generic.args.length)
    (mirrors : Mirrors (hierarchy.paramRefs variant) given generic actual) :
    List.Forall₂ (Mirrors (hierarchy.paramRefs variant) given)
      (hierarchy.instantiateParts hierarchy.supertypes generic)
      (hierarchy.instantiateParts hierarchy.supertypes actual) := by
  simp only [instantiateParts, mirrors.base.trans named, named, List.forall₂_map_left_iff,
    List.forall₂_map_right_iff, List.forall₂_same]
  intro declared listed
  refine mirrors_instantiate (separates.noVar name above declared listed)
    (fun param inOwn inside => ?_) (TreeSubstitution.ofArgs_rel mirrors.args)
  by_cases same : name = variant
  · subst same
    exact TreeSubstitution.isSome_ofArgs inOwn (full rfl)
  · exact absurd inside (separates.apart name above same declared listed param inOwn)

/-- The supertypes of a class above the variant are above it as well. -/
theorem allAbove_supertypes {name : Name} (named : generic.base? = some name)
    (above : ReflTransGen hierarchy.Extends variant name) :
    hierarchy.AllAbove variant (hierarchy.instantiateParts hierarchy.supertypes generic) := by
  intro tree member super isSuper
  simp only [instantiateParts, named] at member
  obtain ⟨declared, listed, rfl⟩ := List.mem_map.mp member
  rw [TypeTree.base?_instantiate_of_ne (separates.noVar name above declared listed)] at isSuper
  exact above.tail ⟨declared, listed, isSuper⟩

/-- Once the variant has been met, the search goes the same way on both sides. -/
theorem mirrors_ancestorsFrom : ∀ (fuel : Nat) (queue others : List TypeTree) (seen : List Name),
    List.Forall₂ (Mirrors (hierarchy.paramRefs variant) given) queue others →
    hierarchy.AllAbove variant queue → variant ∈ seen →
    List.Forall₂ (Mirrors (hierarchy.paramRefs variant) given)
      (hierarchy.ancestorsFrom fuel queue seen) (hierarchy.ancestorsFrom fuel others seen)
  | 0, _, _, _, .nil, _, _ | _ + 1, _, _, _, .nil, _, _ => by simp [ancestorsFrom]
  | 0, _, _, _, .cons _ _, _, _ => .nil
  | fuel + 1, tree :: queue, other :: others, seen, .cons head tail, above, listed => by
    have later : hierarchy.AllAbove variant queue :=
      fun next member => above next (List.mem_cons_of_mem _ member)
    simp only [ancestorsFrom, head.base]
    cases named : tree.base? with
    | none => exact mirrors_ancestorsFrom fuel queue others seen tail later listed
    | some name =>
      dsimp only
      split
      · exact mirrors_ancestorsFrom fuel queue others seen tail later listed
      · rename_i fresh
        have reached := above tree List.mem_cons_self name named
        have supers := separates.mirrors_supertypes named reached
          (fun same => absurd (same ▸ listed) (by simpa using fresh)) head
        have abovePlus : hierarchy.AllAbove variant
            (queue ++ hierarchy.instantiateParts hierarchy.supertypes tree) := by
          intro next member
          rcases List.mem_append.mp member with old | new
          · exact later next old
          · exact separates.allAbove_supertypes named reached next new
        exact .cons head (mirrors_ancestorsFrom fuel _ _ _ (List.rel_append tail supers) abovePlus
          (List.mem_cons_of_mem _ listed))

/-- The ancestors of an instance of the variant mirror those of the generic variant. -/
theorem mirrors_ancestors (named : generic.base? = some variant)
    (full : (hierarchy.paramRefs variant).length ≤ generic.args.length)
    (mirrors : Mirrors (hierarchy.paramRefs variant) given generic actual) :
    List.Forall₂ (Mirrors (hierarchy.paramRefs variant) given) (hierarchy.ancestors generic)
      (hierarchy.ancestors actual) := by
  rw [ancestors_eq named, ancestors_eq (mirrors.base.trans named)]
  have supers := separates.mirrors_supertypes named .refl (fun _ => full) mirrors
  exact .cons mirrors (separates.mirrors_ancestorsFrom _ _ _ _ supers
    (separates.allAbove_supertypes named .refl) List.mem_cons_self)

end Separates

/-- Lists that mirror each other have types of a class at the same place. -/
theorem mirrors_find? (target : Name) {trees others : List TypeTree}
    (each : List.Forall₂ (Mirrors own given) trees others) {found : TypeTree}
    (answer : trees.find? (·.base? == some target) = some found) :
    ∃ other, others.find? (·.base? == some target) = some other ∧
    Mirrors own given found other := by
  induction each with
  | nil => cases answer
  | cons head _ ih =>
    rw [List.find?_cons] at answer ⊢
    rw [head.base]
    split at answer
    · cases answer
      exact ⟨_, rfl, head⟩
    · exact ih answer

/-- What stands at a place on the right has its counterpart on the left. -/
theorem getElem?_of_forall₂ {α β : Type} {relation : α → β → Prop} {elements : List α}
    {results : List β} (each : List.Forall₂ relation elements results) {position : Nat} {result : β}
    (found : results[position]? = some result) : ∃ element, elements[position]? = some element ∧
    relation element result := by
  induction each generalizing position with
  | nil => cases found
  | @cons element _ _ _ head _ ih =>
    cases position with
    | zero =>
      cases found
      exact ⟨element, rfl, head⟩
    | succ position => exact ih found

/-- A class inherits from another one with parameters of its own as the arguments, or with none. -/
structure Passes (hierarchy : TreeHierarchy) (variant base : Name)
    (passed : List ParamRef) : Prop where
  inherits : ∃ ancestor, hierarchy.ancestorAt? (hierarchy.selfType variant) base = some ancestor ∧
    List.Forall₂ (fun param arg => ∃ variance, arg = .var param variance) passed ancestor.args
  own : ∀ param ∈ passed, param ∈ hierarchy.paramRefs variant
  distinct : passed.Nodup

/-- Inference from variables binds those that are not bound, each to the first argument it stands
against. -/
theorem inferAll_vars {passed : List ParamRef} {formals actuals : List TypeTree}
    (vars : List.Forall₂ (fun param arg => ∃ variance, arg = .var param variance) passed formals) :
    hierarchy.inferAll subst formals actuals param =
      (subst param).or (((passed.zip actuals).lookup param).map (·.covariantBound)) := by
  induction vars generalizing actuals subst with
  | nil => simp [inferAll]
  | @cons first _ passed _ head _ ih =>
    obtain ⟨variance, rfl⟩ := head
    cases actuals with
    | nil => simp [inferAll]
    | cons actual actuals =>
      rw [inferAll, ih, infer, List.zip_cons_cons, List.lookup_cons]
      by_cases same : param = first
      · subst same
        cases missing : subst param <;> simp [missing, TreeSubstitution.bind]
      · have differs : (param == first) = false := by simpa using same
        rw [differs]
        split
        · rfl
        · simp [TreeSubstitution.bind, same]

theorem inferred_of_passes {passed : List ParamRef} (passes : hierarchy.Passes variant base passed)
    (named : tree.base? = some base) : hierarchy.inferred variant tree param =
      ((passed.zip tree.args).lookup param).map (·.covariantBound) := by
  obtain ⟨ancestor, inherits, vars⟩ := passes.inherits
  have isAncestor : ancestor.base? = some base := by simpa using List.find?_some inherits
  simp only [inferred, named, inherits]
  cases ancestor with
  | applied name formals =>
    cases isAncestor
    rw [infer, ancestorAt?_self named]
    exact (inferAll_vars vars).trans (Option.none_or ..)
  | class_ name =>
    cases vars
    rfl
  | _ => cases isAncestor

/-- What a narrowed type has for a parameter of the variant. -/
def narrowedArg (hierarchy : TreeHierarchy) (variant : Name) (scrutinee : TypeTree)
    (param : ParamRef) : TypeTree :=
  (hierarchy.inferred variant scrutinee param).getD (.wildcard .invariant .any)

/-- The arguments of a narrowed type, parameter by parameter. -/
theorem narrow_args (hierarchy : TreeHierarchy) (variant : Name) (scrutinee : TypeTree) :
    (hierarchy.narrow variant scrutinee).args =
      (hierarchy.paramRefs variant).map (hierarchy.narrowedArg variant scrutinee) := by
  have narrowed : hierarchy.narrow variant scrutinee = (hierarchy.selfType variant).instantiate
      ((hierarchy.params variant).foldl (fun (subst : TreeSubstitution) param =>
        if (subst param.1).isSome then subst else subst.bind param.1 (.wildcard .invariant .any))
        (hierarchy.inferred variant scrutinee)) := rfl
  rw [narrowed]
  by_cases generic : hierarchy.params variant = []
  · simp [selfType, generic, paramRefs, TypeTree.instantiate, TypeTree.args]
  · rw [selfType_instantiate generic, TypeTree.args, paramRefs, List.map_map]
    refine List.map_congr_left fun param member => ?_
    rw [foldl_complete _ _ (List.mem_map_of_mem member)]
    rfl

theorem mirrors_narrow (hierarchy : TreeHierarchy) (variant : Name) (scrutinee : TypeTree) :
    Mirrors (hierarchy.paramRefs variant) (hierarchy.narrowedArg variant scrutinee)
      (hierarchy.selfType variant) (hierarchy.narrow variant scrutinee) := by
  have self := hierarchy.base?_selfType variant
  refine ⟨(TypeTree.base?_instantiate self _).trans self.symm, ?_⟩
  rw [narrow_args]
  by_cases generic : hierarchy.params variant = []
  · simp [selfType, generic, paramRefs, TypeTree.args]
  · simp only [selfType, List.isEmpty_iff, generic, if_false, TypeTree.args, paramRefs,
      List.forall₂_map_left_iff, List.forall₂_map_right_iff, List.forall₂_same]
    rintro param member _ _ ⟨⟩ _
    rfl

theorem length_args_selfType (hierarchy : TreeHierarchy) (name : Name) :
    (hierarchy.selfType name).args.length = (hierarchy.paramRefs name).length := by
  by_cases generic : hierarchy.params name = []
  · simp [selfType, generic, paramRefs, TypeTree.args]
  · simp [selfType, List.isEmpty_iff, generic, paramRefs, TypeTree.args]

/-- The element beside a key that is there once. -/
theorem lookup_zip {passed : List ParamRef} {args : List TypeTree} (distinct : passed.Nodup)
    {position : Nat} {arg : TypeTree} (named : passed[position]? = some param)
    (found : args[position]? = some arg) : (passed.zip args).lookup param = some arg := by
  induction passed generalizing args position with
  | nil => cases named
  | cons first passed ih =>
    obtain ⟨fresh, distinct⟩ := List.nodup_cons.mp distinct
    cases args with
    | nil => cases found
    | cons other args =>
      cases position with
      | zero =>
        cases named
        cases found
        simp
      | succ position =>
        have differs : (param == first) = false := by
          rw [beq_eq_false_iff_ne]
          rintro rfl
          exact fresh (List.mem_of_getElem? named)
        rw [List.zip_cons_cons, List.lookup_cons, differs]
        exact ih distinct named found

theorem lookup_zip_none {passed : List ParamRef} {args : List TypeTree}
    (missing : param ∉ passed.take args.length) : (passed.zip args).lookup param = none := by
  refine List.lookup_eq_none_iff.mpr fun entry member => ?_
  rw [bne_iff_ne]
  rintro rfl
  rw [List.zip_eq_zip_take_min] at member
  have listed := (List.of_mem_zip member).1
  exact missing (List.take_subset_take_left passed (Nat.min_le_right _ _) listed)

section
variable {bounds : ParamRef → List TypeTree} {depth : Nat}

/-- An argument admits the bound it has as a covariant wildcard. -/
theorem argumentContains_covariantBound {declared : Variance} {arg : TypeTree}
    (plain : ∀ bound, arg = .wildcard .covariant bound → ¬ bound.IsWildcard) :
    ArgumentContains (hierarchy.Supertype bounds depth) declared arg arg.covariantBound := by
  by_cases covariant : ∃ bound, arg = .wildcard .covariant bound
  · obtain ⟨bound, rfl⟩ := covariant
    have upper : bound.upper = bound := by
      cases bound with
      | wildcard => exact absurd trivial (plain _ rfl)
      | _ => rfl
    refine .inr (.inl (or_iff_not_imp_left.mpr fun differs => ?_))
    have directed : bound.upper ≠ .any ∧ hierarchy.Supertype bounds depth bound bound.upper := by
      rw [upper]
      exact ⟨differs, supertype_self⟩
    exact directed
  · rw [TypeTree.covariantBound_of_ne fun bound same => covariant ⟨bound, same⟩]
    exact .inl (.inl rfl)

/-- What holds between class types. -/
theorem ClassSupertype.structural {deeper : TreeTest} {sup sub : TypeTree} {name : Name}
    (named : sub.base? = some name) (above : hierarchy.ClassSupertype deeper sup sub) :
    hierarchy.StructuralSupertype bounds deeper sup sub := by
  cases sup with
  | class_ | applied =>
    cases sub with
    | class_ | applied => exact above
    | _ => cases named
  | _ => exact above.elim

/-- A scrutinee is above the type it is narrowed to. -/
theorem Separates.supertype_narrow (separates : hierarchy.Separates variant)
    {passed : List ParamRef} (passes : hierarchy.Passes variant base passed)
    (hasBase : tree.base? = some base)
    (plain : ∀ bound, .wildcard .covariant bound ∈ tree.args → ¬ bound.IsWildcard) :
    hierarchy.Supertype bounds (depth + 1) tree (hierarchy.narrow variant tree) := by
  obtain ⟨ancestor, inherits, vars⟩ := passes.inherits
  obtain ⟨found, inherited, mirrors⟩ := mirrors_find? base (separates.mirrors_ancestors
    (hierarchy.base?_selfType variant) (Nat.le_of_eq (length_args_selfType hierarchy variant).symm)
    (hierarchy.mirrors_narrow variant tree)) inherits
  have classes : hierarchy.ClassSupertype (hierarchy.Supertype bounds depth) tree
      (hierarchy.narrow variant tree) := by
    cases tree with
    | class_ name =>
      cases hasBase
      exact Option.isSome_iff_exists.mpr ⟨found, inherited⟩
    | applied name args =>
      cases hasBase
      refine ⟨found, inherited, fun position sup sub supHere subHere => ?_⟩
      -- the argument of the ancestor is what was put in for the parameter that is passed there
      obtain ⟨arg, argHere, tracks⟩ := getElem?_of_forall₂ mirrors.args subHere
      obtain ⟨param, named, variance, isVar⟩ := getElem?_of_forall₂ vars argHere
      have sameArg : sub = sup.covariantBound := by
        rw [tracks param variance isVar (passes.own param (List.mem_of_getElem? named)),
          narrowedArg, inferred_of_passes passes rfl, TypeTree.args,
            lookup_zip passes.distinct named supHere]
        rfl
      rw [sameArg]
      refine argumentContains_covariantBound ?_
      rintro bound rfl
      exact plain bound (List.mem_of_getElem? supHere)
    | _ => cases hasBase
  exact .inr (classes.structural (TypeTree.base?_instantiate (hierarchy.base?_selfType variant) _))

end
end TreeHierarchy

namespace ClassHierarchy
open TypePool PoolM.Builds

variable {hierarchy : ClassHierarchy} {pool : TypePool} {scrutinee : TypeRef}

/-- A type, narrowed to a variant and then compared with what it was, as trees. -/
theorem narrow_tells (variant : Name) (held : hierarchy.HeldBy pool) (inPool : pool.Has scrutinee) :
    PoolM.Builds (do
      let narrowed ← hierarchy.narrow variant scrutinee
      return (narrowed, ← hierarchy.isSupertype scrutinee narrowed)) pool fun result after =>
        after.Denotes result.1 ((hierarchy.unfold pool).narrow variant (pool.tree scrutinee)) ∧
        (after.Small →
          (result.2 = true ↔ (hierarchy.unfold pool).Supertype pool.boundTrees relationDepth
          (pool.tree scrutinee)
          ((hierarchy.unfold pool).narrow variant (pool.tree scrutinee)))) := by
  refine ofValid fun valid =>
    bind (PoolM.Builds.narrow variant held inPool) fun narrowed between growth denotes => ?_
  refine bind (isSupertype_tells growth.valid (held.grow growth) (growth.has inPool) denotes.has)
    fun within after grown told => pure ⟨denotes.grow growth.valid grown, fun small => ?_⟩
  rw [told small, held.unfold_eq valid growth, growth.boundTrees_eq valid,
    growth.tree_eq valid inPool, denotes.reads (grown.small small)]

/-- A narrowed type stays within its scrutinee. The variant passes parameters of its own through to
the class of the scrutinee, which is used with any arguments or without them; only a covariant
wildcard is not to be bounded by another wildcard. Then the scrutinee is above the narrowed type,
and every parameter that it has no argument for is `?`. -/
theorem narrow_within_scrutinee (valid : pool.Valid) (held : hierarchy.HeldBy pool)
    {variant base : Name} (noVar : ∀ name,
      ReflTransGen (hierarchy.unfold pool).Extends variant name →
      ∀ type ∈ hierarchy.supertypes name, ∀ param variance, pool.tree type ≠ .var param variance)
    (apart : ∀ name, ReflTransGen (hierarchy.unfold pool).Extends variant name → name ≠ variant →
      ∀ type ∈ hierarchy.supertypes name, ∀ param ∈ hierarchy.typeParams variant,
        ¬ (pool.tree type).Mentions param) {passed : List ParamRef}
    (passes : (hierarchy.unfold pool).Passes variant base passed) (inPool : pool.Has scrutinee)
    (hasBase : (pool.tree scrutinee).base? = some base)
    (plain : ∀ bound, .wildcard .covariant bound ∈ (pool.tree scrutinee).args →
      ¬ bound.IsWildcard) :
    Completes (do
      let narrowed ← hierarchy.narrow variant scrutinee
      return (narrowed, ← hierarchy.isSupertype scrutinee narrowed)) pool fun result after =>
        after.Small → result.2 = true ∧ ∀ (position : Nat) (param : ParamRef),
          (hierarchy.typeParams variant)[position]? = some param →
          param ∉ passed.take (pool.tree scrutinee).args.length →
          (after.tree result.1).args[position]? = some (.wildcard .invariant .any) := by
  have params : (hierarchy.unfold pool).paramRefs variant = hierarchy.typeParams variant := by
    simp [TreeHierarchy.paramRefs, ClassHierarchy.unfold, Function.comp_def]
  have separates : (hierarchy.unfold pool).Separates variant := by
    refine ⟨fun name above tree member => ?_, fun name above other tree member param own => ?_⟩
    · obtain ⟨type, listed, rfl⟩ := List.mem_map.mp member
      exact noVar name above type listed
    · obtain ⟨type, listed, rfl⟩ := List.mem_map.mp member
      exact apart name above other type listed param (params ▸ own)
  refine (narrow_tells variant held inPool valid).mono ?_
  rintro result after ⟨_, denotes, told⟩ small
  refine ⟨(told small).mpr (separates.supertype_narrow passes hasBase plain),
    fun position param named missing => ?_⟩
  rw [denotes.reads small, TreeHierarchy.narrow_args, params, List.getElem?_map, named,
    Option.map_some, TreeHierarchy.narrowedArg, TreeHierarchy.inferred_of_passes passes hasBase,
      TreeHierarchy.lookup_zip_none missing]
  rfl

/-- A pool for two boxes, of which one is a pair, and for scrutinees with wildcards. -/
def boxPool : TypePool :=
  .ofEntries
    #[.any, .void, .int, .float, .bool, .char, .string, .var ⟨0⟩ .invariant, .var ⟨2⟩ .invariant,
      .applied "Box" [⟨8⟩], .wildcard .covariant .int, .applied "Box" [⟨10⟩]]
    #[⟨"E", "Box", .invariant, []⟩, ⟨"A", "Pair", .invariant, []⟩, ⟨"B", "Pair", .invariant, []⟩]

/-- `Pair<A, B>` extends `Box<B>`. -/
def boxClasses : ClassHierarchy := ofHeaders [
  { name := "Box", typeParams := [⟨0⟩] },
  { name := "Pair", typeParams := [⟨1⟩, ⟨2⟩], superclass := some ⟨9⟩ }]

/-- A box of some integer, once it is known to be a pair: the second component is an integer, the
first is unknown. -/
theorem narrow_within_scrutinee_box : ∃ result after, (do
      let narrowed ← boxClasses.narrow "Pair" ⟨11⟩
      return (narrowed, ← boxClasses.isSupertype ⟨11⟩ narrowed)).run boxPool = .ok (result, after) ∧
    after.tree result.1 = .applied "Pair" [.wildcard .invariant .any, .int] ∧ result.2 = true ∧
    (after.tree result.1).args[0]? = some (.wildcard .invariant .any) := by
  have held : boxClasses.HeldBy boxPool := heldBy_ofHeaders (by decide)
  have declared {name : Name} {type : TypeRef} (member : type ∈ boxClasses.supertypes name) :
      name = "Pair" ∧ boxPool.tree type = .applied "Box" [.var ⟨2⟩ .invariant] := by
    unfold boxClasses at member
    rw [supertypes_ofHeaders] at member
    obtain ⟨header, listed, rfl, _, inside⟩ := exists_header member
    simp only [List.mem_cons, List.not_mem_nil, or_false] at listed
    rcases listed with rfl | rfl
    · cases inside
    · rw [List.mem_singleton.mp inside]
      exact ⟨rfl, rfl⟩
  have passes : (boxClasses.unfold boxPool).Passes "Pair" "Box" [⟨2⟩] :=
    ⟨⟨_, rfl, .cons ⟨.invariant, rfl⟩ .nil⟩, by decide, by decide⟩
  obtain ⟨result, after, ran, within⟩ := narrow_within_scrutinee (by decide : boxPool.Valid) held
    (fun name _ type member param variance same => by cases (declared member).2.symm.trans same)
    (fun name _ other type member => absurd (declared member).1 other) passes
    (by decide : boxPool.Has ⟨11⟩) rfl (fun bound member => by
      have args : (boxPool.tree ⟨11⟩).args = [.wildcard .covariant .int] := rfl
      rw [args] at member
      cases List.mem_singleton.mp member
      exact id)
  refine ⟨result, after, ran, ?_⟩
  cases ran
  obtain ⟨above, unknown⟩ := within (by decide)
  exact ⟨rfl, above, unknown 0 ⟨1⟩ rfl (by decide)⟩

/-- A pool for a class that extends its own parameter, and for one whose parameter another class
uses. -/
def leakPool : TypePool :=
  .ofEntries
    #[.any, .void, .int, .float, .bool, .char, .string, .var ⟨0⟩ .invariant, .applied "Box" [⟨7⟩],
      .applied "Box" [⟨2⟩], .applied "Box" [⟨9⟩], .class_ "Mid"]
    #[⟨"T", "Leak", .invariant, []⟩, ⟨"U", "Box", .invariant, []⟩]

/-- `Leak<T>` extends `T` and implements `Box<T>`. -/
def leakClasses : ClassHierarchy := ofHeaders [
  { name := "Box", typeParams := [⟨1⟩] },
  { name := "Leak", typeParams := [⟨0⟩], superclass := some ⟨7⟩, interfaces := [⟨8⟩] }]

/-- `Leak<T>` extends `Mid`, and that extends `Box<T>`. -/
def foreignClasses : ClassHierarchy := ofHeaders [
  { name := "Box", typeParams := [⟨1⟩] },
  { name := "Mid", superclass := some ⟨8⟩ },
  { name := "Leak", typeParams := [⟨0⟩], superclass := some ⟨11⟩ }]

/-- It is not enough that the generic variant passes its parameters through. Where a class extends
its own parameter, the narrowed type may inherit from the class of the scrutinee by the argument
that was put in; and where another class uses the parameter, nothing is put in for it there. -/
theorem narrow_leaves_scrutinee : leakPool.Valid ∧
    (leakClasses.HeldBy leakPool ∧ (leakClasses.unfold leakPool).Passes "Leak" "Box" [⟨0⟩] ∧
      leakPool.tree ⟨10⟩ = .applied "Box" [.applied "Box" [.int]] ∧ ∃ narrowed after, (do
        let narrowed ← leakClasses.narrow "Leak" ⟨10⟩
        return (narrowed, ← leakClasses.isSupertype ⟨10⟩ narrowed)).run leakPool =
          .ok ((narrowed, false), after) ∧
      after.tree narrowed = .applied "Leak" [.applied "Box" [.int]]) ∧
    (foreignClasses.HeldBy leakPool ∧ (foreignClasses.unfold leakPool).Passes "Leak" "Box" [⟨0⟩] ∧
      leakPool.tree ⟨9⟩ = .applied "Box" [.int] ∧ ∃ narrowed after, (do
        let narrowed ← foreignClasses.narrow "Leak" ⟨9⟩
        return (narrowed, ← foreignClasses.isSupertype ⟨9⟩ narrowed)).run leakPool =
          .ok ((narrowed, false), after) ∧
      after.tree narrowed = .applied "Leak" [.int]) := by
  have held : leakClasses.HeldBy leakPool := heldBy_ofHeaders (by decide)
  have foreign : foreignClasses.HeldBy leakPool := heldBy_ofHeaders (by decide)
  refine ⟨by decide, ⟨held, ?_, rfl, _, _, rfl, rfl⟩, foreign, ?_, rfl, _, _, rfl, rfl⟩
  · exact ⟨⟨_, rfl, .cons ⟨.invariant, rfl⟩ .nil⟩, by decide, by decide⟩
  · exact ⟨⟨_, rfl, .cons ⟨.invariant, rfl⟩ .nil⟩, by decide, by decide⟩

end ClassHierarchy
end ClassLang
