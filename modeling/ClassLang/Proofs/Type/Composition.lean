import ClassLang.Proofs.Type.Ancestry

/-! Substitutions compose: to replace the variables of a type, and then those of the result, is to
replace them once by what both substitutions make of them. -/

namespace ClassLang

namespace Substitution

/-- One substitution, and another one in what it binds: a parameter that the first one binds stands
for its type under the second one, any other parameter for what the second one binds it to. -/
def andThen (first second : Substitution) : PoolM Substitution := do
  let replaced ← first.bindings.mapM fun entry => instantiate entry.2 second
  let others := second.bindings.filter fun entry => !first.contains entry.1
  return ⟨(first.bindings.map Prod.fst).zip replaced ++ others⟩

section
variable {α β : Type} (param : ParamRef)

theorem lookup_map_snd (read : α → β) (bindings : List (ParamRef × α)) :
    (bindings.map (Prod.map id read)).lookup param = (bindings.lookup param).map read := by
  induction bindings with
  | nil => rfl
  | cons entry bindings ih =>
    obtain ⟨key, value⟩ := entry
    simp only [List.map_cons, Prod.map_apply, List.lookup_cons, id_eq]
    split
    · rfl
    · exact ih

theorem lookup_filter (keep : ParamRef → Bool) (bindings : List (ParamRef × α)) :
    (bindings.filter fun entry => keep entry.1).lookup param =
      if keep param then bindings.lookup param else none := by
  induction bindings with
  | nil => simp
  | cons entry bindings ih =>
    obtain ⟨key, value⟩ := entry
    by_cases asked : param = key
    · subst asked
      cases kept : keep param <;> simp [kept, ih]
    · have differ : (param == key) = false := by simpa using asked
      cases kept : keep key <;> simp [List.lookup_cons, kept, differ, ih]

end

variable {pool : TypePool} {first second : Substitution}

/-- Types of the pool are bound only. -/
theorem heldBy_of_listed (listed : ∀ entry ∈ first.bindings, pool.Has entry.2) :
    first.HeldBy pool := by
  intro param type bound
  obtain ⟨_, _, split, _⟩ := List.lookup_eq_some_iff.mp bound
  exact listed (param, type) (by simp [split])

/-- A list of bindings, and those of another substitution for what the list leaves open. -/
theorem get?_append_filter (own : List (ParamRef × TypeRef)) (param : ParamRef)
    (listed : first.contains param = (own.lookup param).isSome) :
    get? ⟨own ++ second.bindings.filter fun entry => !first.contains entry.1⟩ param =
      (own.lookup param).or (second.get? param) := by
  simp only [get?, List.lookup_append, lookup_filter param fun key => !first.contains key, listed]
  cases own.lookup param <;> simp

/-- Composing substitutions computes composition on trees. -/
theorem andThen_builds (firstListed : ∀ entry ∈ first.bindings, pool.Has entry.2)
    (secondListed : ∀ entry ∈ second.bindings, pool.Has entry.2) :
    PoolM.Builds (first.andThen second) pool fun both after =>
      both.Denotes after ((first.trees pool).andThen (second.trees pool)) := by
  refine .ofValid fun valid => ?_
  have held := heldBy_of_listed secondListed
  let image (type : TypeRef) : TypeTree := (pool.tree type).instantiate (second.trees pool)
  have each : ∀ entry ∈ first.bindings, ∀ between, pool.Growth between →
      PoolM.Builds (instantiate entry.2 second) between fun type after =>
        after.Denotes type (image entry.2) := by
    intro entry member between growth
    refine PoolM.Builds.instantiate
      ((TypePool.Denotes.self (firstListed entry member)).grow valid growth) ?_
    exact ⟨held.grow growth, fun _ => held.trees_eq valid growth⟩
  refine .bind (PoolM.Builds.mapM each) fun replaced after growth ⟨denotes, length⟩ => .pure ?_
  constructor
  · apply heldBy_of_listed
    intro entry member
    rcases List.mem_append.mp member with own | other
    · exact denotes.has entry.2 (List.of_mem_zip own).2
    · exact growth.has (secondListed entry (List.mem_filter.mp other).1)
  · intro small
    funext param
    have own : (((first.bindings.map Prod.fst).zip replaced).lookup param).map after.tree =
        (first.get? param).map image := by
      rw [get?, ← lookup_map_snd, ← lookup_map_snd, ← List.zip_map_right, denotes.reads small,
        List.zip_map']
      rfl
    have present := congrArg Option.isSome own
    rw [Option.isSome_map, Option.isSome_map] at present
    have others := congrFun (held.trees_eq valid growth) param
    rw [trees, get?_append_filter _ param present.symm, Option.map_or, own]
    unfold TreeSubstitution.andThen
    simp only [trees] at others ⊢
    cases first.get? param with
    | none => exact others
    | some type => rfl

end Substitution

namespace TypePool
variable {pool : TypePool} {type : TypeRef} {first second : Substitution}

/-- Substitution composes. For a type in normal form and two substitutions, all of them over types
of the pool, what comes of replacing variables by the first one and then by the second one is what
comes of replacing them once by the two composed; and every one of these steps ends. -/
theorem instantiate_composes (valid : pool.Valid) (held : pool.Has type)
    (plain : (pool.tree type).Plain) (firstHere : ∀ entry ∈ first.bindings, pool.Has entry.2)
    (secondHere : ∀ entry ∈ second.bindings, pool.Has entry.2) :
    Completes (do
        let twice ← instantiate (← instantiate type first) second
        let once ← instantiate type (← first.andThen second)
        return (twice, once)) pool
      fun result after => after.Small → result.1 = result.2 := by
  have denotes := Denotes.self held
  have firstDenotes : first.Denotes pool (first.trees pool) :=
    ⟨Substitution.heldBy_of_listed firstHere, fun _ => rfl⟩
  have secondDenotes : second.Denotes pool (second.trees pool) :=
    ⟨Substitution.heldBy_of_listed secondHere, fun _ => rfl⟩
  have builds : PoolM.Builds (do
      let twice ← instantiate (← instantiate type first) second
      let once ← instantiate type (← first.andThen second)
      return (twice, once)) pool fun result after => after.Small → result.1 = result.2 := by
    refine .bind (PoolM.Builds.instantiate denotes firstDenotes)
      fun replaced one growthOne denotesTree => ?_
    refine .bind (PoolM.Builds.instantiate denotesTree (secondDenotes.grow valid growthOne))
      fun twice two growthTwo isTwice => ?_
    have growth := growthOne.trans growthTwo
    refine .bind
      (Substitution.andThen_builds (fun entry member => growth.has (firstHere entry member))
      fun entry member => growth.has (secondHere entry member))
      fun both three growthThree composed => ?_
    refine .bind
      (PoolM.Builds.instantiate
        ((denotes.grow valid growth).grow growth.valid growthThree) composed)
      fun once after last isOnce => .pure fun small => ?_
    have later := growthThree.trans last
    apply last.valid.tree_injective _ _ (later.has isTwice.has) isOnce.has
    rw [later.tree_eq growthTwo.valid isTwice.has, isTwice.reads (later.small small),
      isOnce.reads small, TypeTree.instantiate_instantiate plain,
        firstDenotes.held.trees_eq valid growth, secondDenotes.held.trees_eq valid growth]
  exact (builds valid).mono fun _ _ facts => facts.2

/-- A pool with the type of boxes of something below a variable. -/
def boxPool : TypePool :=
  .ofEntries
    #[.any, .void, .int, .float, .bool, .char, .string, .var ⟨0⟩ .invariant, .var ⟨1⟩ .invariant,
      .wildcard .covariant ⟨7⟩, .applied "Box" [⟨9⟩], .wildcard .covariant ⟨8⟩,
      .wildcard .contravariant .int]
    #[⟨"T", "Box", .invariant, []⟩, ⟨"U", "f", .invariant, []⟩]

theorem boxPool_valid : boxPool.Valid := by decide

/-- What is below a variable, and that below something above the integers, may be anything. -/
theorem instantiate_composes_box : ∃ result after, (do
      let twice ← instantiate (← instantiate ⟨10⟩ ⟨[(⟨0⟩, ⟨11⟩)]⟩) ⟨[(⟨1⟩, ⟨12⟩)]⟩
      let once ← instantiate ⟨10⟩ (← Substitution.andThen ⟨[(⟨0⟩, ⟨11⟩)]⟩ ⟨[(⟨1⟩, ⟨12⟩)]⟩)
      return (twice, once)).run boxPool = .ok (result, after) ∧ result.1 = result.2 ∧
        after.tree result.1 = .applied "Box" [.wildcard .invariant .any] := by
  obtain ⟨result, after, ran, same⟩ :=
    instantiate_composes boxPool_valid (by decide : boxPool.Has ⟨10⟩)
    (by simp [show boxPool.tree ⟨10⟩ = .applied "Box"
      [.wildcard .covariant (.var ⟨0⟩ .invariant)] from rfl, TypeTree.Plain, TypeTree.PlainAll,
      TypeTree.IsWildcard])
    (by decide : ∀ entry ∈ [((⟨0⟩ : ParamRef), (⟨11⟩ : TypeRef))], boxPool.Has entry.2)
    (by decide : ∀ entry ∈ [((⟨1⟩ : ParamRef), (⟨12⟩ : TypeRef))], boxPool.Has entry.2)
  cases ran
  exact ⟨_, _, rfl, same (by decide), rfl⟩

end TypePool
end ClassLang
