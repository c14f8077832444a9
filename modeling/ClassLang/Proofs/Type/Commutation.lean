import ClassLang.Proofs.Type.Composition

/-! Inheritance commutes with substitution: what an instance of a generic class inherits is what the
class itself inherits with the arguments put in. -/

namespace ClassLang

namespace TypePool
variable {pool : TypePool} {tree : TypeTree}

/-- In a small pool trees have their handles. -/
theorem DenotesAll.unique {types others : List TypeRef} {trees : List TypeTree} (valid : pool.Valid)
    (denotes : pool.DenotesAll types trees) (also : pool.DenotesAll others trees)
    (small : pool.Small) : types = others :=
  TypeNode.eq_of_map_eq (fun type member other member' =>
    valid.tree_injective type other (denotes.has type member) (also.has other member'))
    ((denotes.reads small).trans (also.reads small).symm)

end TypePool

namespace PoolM.Builds
open TypePool

variable {subst : Substitution} {trees : TreeSubstitution} {pool : TypePool}

/-- One substitution of many types. -/
theorem mapM_instantiate {types : List TypeRef} {listed : List TypeTree}
    (denotes : pool.DenotesAll types listed) (bound : subst.Denotes pool trees) :
    PoolM.Builds (types.mapM (ClassLang.instantiate · subst)) pool fun results after =>
      after.DenotesAll results (listed.map (·.instantiate trees)) := by
  refine ofValid fun valid => ?_
  have each : ∀ type ∈ types, ∀ between, pool.Growth between →
      PoolM.Builds (ClassLang.instantiate type subst) between fun result after =>
        after.Denotes result ((pool.tree type).instantiate trees) :=
          fun type member between growth =>
    instantiate ((Denotes.self (denotes.has type member)).grow valid growth)
      (bound.grow valid growth)
  refine ((mapM each).mono fun _ _ _ built => built.1).denotingAll fun small => ?_
  rw [← denotes.reads small, List.map_map]
  rfl

theorem option_mapM_instantiate {type? : Option TypeRef} {listed : List TypeTree}
    (denotes : pool.DenotesAll type?.toList listed) (bound : subst.Denotes pool trees) :
    PoolM.Builds (type?.mapM (ClassLang.instantiate · subst)) pool fun result after =>
      after.DenotesAll result.toList (listed.map (·.instantiate trees)) := by
  cases type? with
  | none =>
    refine pure ⟨by simp, fun small => ?_⟩
    rw [← denotes.reads small]
    rfl
  | some type =>
    change PoolM.Builds (some <$> ClassLang.instantiate type subst) pool _
    rw [map_eq_pure_bind]
    refine bind (instantiate (Denotes.self (denotes.has type (by simp))) bound)
      fun result after growth denotesTree => ?_
    refine pure ⟨by simpa using denotesTree.has, fun small => ?_⟩
    rw [← denotes.reads (growth.small small)]
    exact congrArg (· :: []) (denotesTree.reads small)

end PoolM.Builds

namespace ClassHierarchy
open TypePool

variable {hierarchy : ClassHierarchy} {pool start : TypePool} {name : Name} {args : List TypeRef}
    {type : TypeRef}
  {tree : TypeTree}

section
variable (valid : start.Valid) (held : hierarchy.HeldBy start)
include valid held

theorem ancestors_denotes (growth : start.Growth pool) (denotes : pool.Denotes type tree) :
    PoolM.Builds (hierarchy.ancestors type) pool fun types after =>
      after.DenotesAll types ((hierarchy.unfold start).ancestors tree) :=
  (PoolM.Builds.ancestors denotes.has (held.grow growth)).denotingAll fun small => by
    rw [held.unfold_eq valid growth, denotes.reads small]

theorem ancestorAt?_denotes (growth : start.Growth pool) (denotes : pool.Denotes type tree)
    (target : Name) : PoolM.Builds (hierarchy.ancestorAt? type target) pool fun found after =>
      after.DenotesAll found.toList ((hierarchy.unfold start).ancestorAt? tree target).toList := by
  refine (PoolM.Builds.ancestorAt? target denotes.has (held.grow growth)).mono
    fun found after grown ⟨inPool, same⟩ => ?_
  refine ⟨by simpa using inPool, fun small => ?_⟩
  rw [← held.unfold_eq valid growth, ← denotes.reads (grown.small small), ← same small]
  cases found <;> rfl

theorem selfType_denotes (growth : start.Growth pool) (name : Name) :
    PoolM.Builds (hierarchy.selfType name) pool fun type after =>
      after.Denotes type ((hierarchy.unfold start).selfType name) :=
  (PoolM.Builds.selfType name (held.grow growth)).denoting fun _ => by
    rw [held.unfold_eq valid growth]

end

theorem bindArgs_denotes (held : ∀ arg ∈ args, pool.Has arg) (name : Name) :
    (hierarchy.bindArgs name args).Denotes pool
      ((hierarchy.unfold pool).bindArgs name (args.map pool.tree)) :=
  ⟨Substitution.ofArgs_heldBy _ held, fun _ => bindArgs_trees name args⟩

theorem instance_denotes (given : args ≠ []) (held : ∀ arg ∈ args, pool.Has arg) (name : Name) :
    PoolM.Builds (PoolM.applied name args) pool fun type after =>
      after.Denotes type (.applied name (args.map pool.tree)) :=
  (PoolM.Builds.applied name (.self held)).denoting fun _ => by simp [given]

section
variable (valid : pool.Valid) (held : hierarchy.HeldBy pool)
    (generic : hierarchy.typeParams name ≠ [])
  (full : args.length = (hierarchy.typeParams name).length) (inPool : ∀ arg ∈ args, pool.Has arg)
include valid held generic full inPool

/-- A question about types that can be asked of the instance, or of the generic type so that the
arguments are put in what it answers, when the trees of both are the same. -/
theorem asks_both_ways {α : Type} {ask : TypeRef → PoolM α} {put : α → PoolM α}
    (types : α → List TypeRef) {trees : TypeTree → List TypeTree}
    (asks : ∀ {between : TypePool} {type : TypeRef} {tree : TypeTree}, pool.Growth between →
      between.Denotes type tree → PoolM.Builds (ask type) between fun result after =>
        after.DenotesAll (types result) (trees tree))
    (puts : ∀ {between : TypePool} {result : α} {listed : List TypeTree}, pool.Growth between →
      between.DenotesAll (types result) listed →
      PoolM.Builds (put result) between fun replaced after =>
        after.DenotesAll (types replaced)
          (listed.map (·.instantiate ((hierarchy.unfold pool).bindArgs name (args.map pool.tree)))))
    (commute : trees (.applied name (args.map pool.tree)) =
      (trees ((hierarchy.unfold pool).selfType name)).map
        (·.instantiate ((hierarchy.unfold pool).bindArgs name (args.map pool.tree)))) :
    Completes (do
        let inherited ← ask (← PoolM.applied name args)
        let ancestors ← ask (← hierarchy.selfType name)
        return (inherited, ← put ancestors)) pool
      fun result after => after.Small → types result.1 = types result.2 := by
  have given : args ≠ [] := fun none =>
    generic (List.length_eq_zero_iff.mp (by rw [← full, none]; rfl))
  have builds : PoolM.Builds (do
      let inherited ← ask (← PoolM.applied name args)
      let ancestors ← ask (← hierarchy.selfType name)
      return (inherited, ← put ancestors)) pool fun result after =>
        after.Small → types result.1 = types result.2 := by
    refine .bind (instance_denotes given inPool name) fun type one growthOne denotes => ?_
    refine .bind (asks growthOne denotes) fun inherited two growthTwo inherits => ?_
    have growth := growthOne.trans growthTwo
    refine .bind (selfType_denotes valid held growth name) fun self three growthThree isSelf => ?_
    have growth := growth.trans growthThree
    refine .bind (asks growth isSelf) fun ancestors four growthFour above => ?_
    refine .bind (puts (growth.trans growthFour) above) fun replaced after last results =>
      .pure fun small => ?_
    rw [← commute] at results
    have later := (growthThree.trans growthFour).trans last
    exact (inherits.grow growthTwo.valid later).unique last.valid results small
  exact (builds valid).mono fun _ _ facts => facts.2

/-- What an instance of a generic class inherits is what the class inherits over its own parameters,
with the arguments put in: each of the ancestors, in their order, and so the one of any class. -/
theorem ancestors_instantiate_commute (regular : (hierarchy.unfold pool).Regular) :
    Completes (do
        let inherited ← hierarchy.ancestors (← PoolM.applied name args)
        let ancestors ← hierarchy.ancestors (← hierarchy.selfType name)
        return (inherited, ← ancestors.mapM (instantiate · (hierarchy.bindArgs name args)))) pool
      (fun result after => after.Small → result.1 = result.2) ∧
    ∀ target, Completes (do
        let inherited ← hierarchy.ancestorAt? (← PoolM.applied name args) target
        let ancestor ← hierarchy.ancestorAt? (← hierarchy.selfType name) target
        return (inherited, ← ancestor.mapM (instantiate · (hierarchy.bindArgs name args)))) pool
      fun result after => after.Small → result.1 = result.2 := by
  have fullTree : (args.map pool.tree).length = ((hierarchy.unfold pool).params name).length := by
    simpa [ClassHierarchy.unfold] using full
  have genericTree : (hierarchy.unfold pool).params name ≠ [] := by
    simpa [ClassHierarchy.unfold] using generic
  have bound := hierarchy.bindArgs_denotes inPool name
  constructor
  · refine asks_both_ways valid held generic full inPool id (ancestors_denotes valid held) ?_ ?_
    · exact fun growth above => PoolM.Builds.mapM_instantiate above (bound.grow valid growth)
    · exact regular.ancestors_instantiate fullTree genericTree
  · intro target
    refine (asks_both_ways valid held generic full inPool Option.toList
      (fun growth denotes => ancestorAt?_denotes valid held growth denotes target) ?_ ?_).mono ?_
    · exact fun growth above => PoolM.Builds.option_mapM_instantiate above (bound.grow valid growth)
    · rw [regular.ancestorAt?_instantiate fullTree genericTree, Option.toList_map]
    · exact fun _ _ same small => by simpa using congrArg List.head? (same small)

end

theorem regular_ofHeaders {headers : List ClassHeader}
    (classes : ∀ header ∈ headers, ∀ type ∈ header.supertypes, (pool.tree type).base?.isSome)
    (plain : ∀ header ∈ headers, ∀ type ∈ header.supertypes, (pool.tree type).Plain)
    (own : ∀ header ∈ headers, ∀ type ∈ header.supertypes, ∀ param,
      (pool.tree type).Mentions param → param ∈ header.typeParams)
    (distinct : ∀ header ∈ headers, header.typeParams.Nodup)
    (apart : ∀ header ∈ headers, ∀ other ∈ headers, ∀ param ∈ header.typeParams,
      param ∈ other.typeParams → header.name = other.name) :
        ((ofHeaders headers).unfold pool).Regular := by
  have declared {name : Name} {tree : TypeTree}
      (member : tree ∈ ((ofHeaders headers).unfold pool).supertypes name) :
      ∃ header ∈ headers, (ofHeaders headers).typeParams name = header.typeParams ∧
        ∃ type ∈ header.supertypes, pool.tree type = tree := by
    obtain ⟨type, listed, rfl⟩ := List.mem_map.mp member
    rw [supertypes_ofHeaders] at listed
    obtain ⟨header, contained, _, found, inside⟩ := exists_header listed
    exact ⟨header, contained, by simp [ofHeaders, found], type, inside, rfl⟩
  have params (name : Name) :
      ((ofHeaders headers).unfold pool).paramRefs name = (ofHeaders headers).typeParams name := by
    simp [TreeHierarchy.paramRefs, unfold, Function.comp_def]
  refine ⟨?_, ?_, ?_, ?_, ?_⟩
  · intro name tree member
    obtain ⟨header, contained, _, type, inside, rfl⟩ := declared member
    exact classes header contained type inside
  · intro name tree member
    obtain ⟨header, contained, _, type, inside, rfl⟩ := declared member
    exact plain header contained type inside
  · intro name tree member param mentioned
    obtain ⟨header, contained, same, type, inside, rfl⟩ := declared member
    rw [params, same]
    exact own header contained type inside param mentioned
  · intro name
    rw [params]
    simp only [ofHeaders]
    cases found : headers.find? (·.name = name) with
    | none => exact List.nodup_nil
    | some header => exact distinct header (List.mem_of_find?_eq_some found)
  · intro name other param inside also
    rw [params] at inside also
    obtain ⟨header, contained, rfl, _, inside⟩ := exists_header inside
    obtain ⟨header', known', rfl, _, also⟩ := exists_header also
    exact apart header contained header' known' param inside also

/-- A pool for a class with a superclass used without its arguments. -/
def packPool : TypePool :=
  .ofEntries
    #[.any, .void, .int, .float, .bool, .char, .string, .var ⟨0⟩ .invariant, .var ⟨1⟩ .invariant,
      .class_ "Mid", .applied "Top" [⟨8⟩], .applied "Pack" [⟨7⟩], .applied "Seq" [⟨11⟩]]
    #[⟨"T", "Pack", .invariant, []⟩, ⟨"U", "Mid", .invariant, []⟩, ⟨"V", "Top", .invariant, []⟩,
      ⟨"W", "Seq", .invariant, []⟩]

/-- `Pack<T>` extends `Mid` without arguments and implements `Seq<Pack<T>>`; `Mid<U>` extends
`Top<U>`. -/
def packHeaders : List ClassHeader := [
  { name := "Pack", typeParams := [⟨0⟩], superclass := some ⟨9⟩, interfaces := [⟨12⟩] },
  { name := "Mid", typeParams := [⟨1⟩], superclass := some ⟨10⟩ },
  { name := "Top", typeParams := [⟨2⟩] },
  { name := "Seq", typeParams := [⟨3⟩] }]

def packClasses : ClassHierarchy := ofHeaders packHeaders

theorem packClasses_regular : (packClasses.unfold packPool).Regular := by
  have declared : ∀ header ∈ packHeaders, ∀ type ∈ header.supertypes,
      packPool.tree type = .class_ "Mid" ∨ header.typeParams = [⟨0⟩] ∧
      packPool.tree type = .applied "Seq" [.applied "Pack" [.var ⟨0⟩ .invariant]] ∨
      header.typeParams = [⟨1⟩] ∧ packPool.tree type = .applied "Top" [.var ⟨1⟩ .invariant] := by
    decide
  refine regular_ofHeaders (by decide) (fun header member type inside => ?_)
    (fun header member type inside param mentioned => ?_) (by decide) (by decide)
  · rcases declared header member type inside with tree | ⟨_, tree⟩ | ⟨_, tree⟩ <;>
      simp [tree, TypeTree.Plain, TypeTree.PlainAll]
  · rcases declared header member type inside with tree | ⟨params, tree⟩ | ⟨params, tree⟩ <;>
      rw [tree] at mentioned
    · simp at mentioned
    · simpa [params, eq_comm] using mentioned
    · simpa [params, eq_comm] using mentioned

/-- What a pack of integers inherits: `Mid` does not tell what `Top` is one of. -/
theorem ancestors_instantiate_commute_pack :
    (∃ result after, (do
        let inherited ← packClasses.ancestors (← PoolM.applied "Pack" [⟨2⟩])
        let ancestors ← packClasses.ancestors (← packClasses.selfType "Pack")
        return (inherited, ← ancestors.mapM
          (instantiate · (packClasses.bindArgs "Pack" [⟨2⟩])))).run packPool =
          .ok (result, after) ∧ result.1 = result.2 ∧
        result.1.map after.tree =
          [.applied "Pack" [.int], .class_ "Mid", .applied "Seq" [.applied "Pack" [.int]],
          .applied "Top" [.var ⟨1⟩ .invariant]]) ∧
    ∃ result after, (do
        let inherited ← packClasses.ancestorAt? (← PoolM.applied "Pack" [⟨2⟩]) "Seq"
        let ancestor ← packClasses.ancestorAt? (← packClasses.selfType "Pack") "Seq"
        return (inherited, ← ancestor.mapM (instantiate · (packClasses.bindArgs "Pack" [⟨2⟩])))).run
          packPool = .ok (result, after) ∧ result.1 = result.2 ∧
        result.1.map after.tree = some (.applied "Seq" [.applied "Pack" [.int]]) := by
  have given : ∀ arg ∈ [(⟨2⟩ : TypeRef)], packPool.Has arg := by decide
  have held : packClasses.HeldBy packPool := heldBy_ofHeaders (by decide)
  obtain ⟨⟨result, after, ran, same⟩, found⟩ :=
    ancestors_instantiate_commute (by decide : packPool.Valid) held
    (by decide : packClasses.typeParams "Pack" ≠ []) rfl given packClasses_regular
  obtain ⟨answer, last, asked, equal⟩ := found "Seq"
  constructor
  · cases ran
    exact ⟨_, _, rfl, same (by decide), rfl⟩
  · cases asked
    exact ⟨_, _, rfl, equal (by decide), rfl⟩

end ClassHierarchy
end ClassLang
