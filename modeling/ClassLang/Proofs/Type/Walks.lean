import ClassLang.Proofs.Type.Questions
import ClassLang.Proofs.Type.Supertype

/-! Walks over lists in a growing pool: what a filter keeps, what a search at each element finds and
what a fold carries along, each read off from what one step returns. -/

namespace ClassLang

namespace TypePool

variable {pool : TypePool}

/-- In a valid pool lists of types are equal when their trees are. -/
theorem Valid.map_tree_inj (valid : pool.Valid) {first second : List TypeRef}
    (firstHere : ∀ type ∈ first, pool.Has type) (secondHere : ∀ type ∈ second, pool.Has type) :
    first.map pool.tree = second.map pool.tree ↔ first = second := by
  refine ⟨TypeNode.eq_of_map_eq fun type member other listed => ?_, congrArg _⟩
  exact valid.tree_injective type other (firstHere type member) (secondHere other listed)

end TypePool

namespace PoolM
open TypePool

variable {pool : TypePool}

/-- A test is asked at an element where the ones before it passed. -/
theorem Tells.allM {test : α → PoolM Bool} {passes : α → Prop} :
    ∀ {elements : List α} {pool : TypePool},
    (∀ element ∈ elements, ∀ between, pool.Growth between →
      PoolM.Tells (test element) between (passes element)) →
    PoolM.Tells (elements.allM test) pool (∀ element ∈ elements, passes element)
  | [], _, _ => Tells.yes fun _ => by simp
  | first :: rest, pool, each => by
    refine Builds.ofValid fun valid => ?_
    have later : ∀ between, pool.Growth between →
        PoolM.Tells (rest.allM test) between (∀ element ∈ rest, passes element) :=
      fun between growth => Tells.allM fun element member after grown =>
        each element (List.mem_cons_of_mem _ member) after (growth.trans grown)
    have both : PoolM.Tells ((first :: rest).allM test) pool
        (passes first ∧ ∀ element ∈ rest, passes element) := by
      refine Builds.bind (each first List.mem_cons_self pool valid.growth)
        fun answer between growth told => ?_
      cases answer with
      | true => exact (later between growth).congr fun small =>
        (and_iff_right ((told small).mp rfl)).symm
      | false => exact Tells.no fun small holds => Bool.false_ne_true ((told small).mpr holds.1)
    exact both.congr fun _ => by simp

namespace Builds

/-- What is known of the end in two ways. -/
theorem and {action : PoolM α} {post other : α → TypePool → Prop}
    (builds : PoolM.Builds action pool post) (also : PoolM.Builds action pool other) :
    PoolM.Builds action pool fun result after => post result after ∧ other result after := by
  intro valid
  obtain ⟨result, after, ran, growth, holds⟩ := builds valid
  exact ⟨result, after, ran, growth, holds, (also.ensures valid result after ran).2⟩

/-- What a filter keeps are the elements that pass. -/
theorem filterM_tells {test : α → PoolM Bool} {passes : α → Bool} {elements : List α}
    (each : ∀ element ∈ elements, ∀ between, pool.Growth between →
      PoolM.Tells (test element) between (passes element = true)) :
    PoolM.Builds (elements.filterM test) pool fun kept after =>
      after.Small → kept = elements.filter passes := by
  have accumulate : ∀ (rest chosen : List α) (pool : TypePool),
      (∀ element ∈ rest, ∀ between, pool.Growth between →
        PoolM.Tells (test element) between (passes element = true)) →
      PoolM.Builds (rest.filterAuxM test chosen) pool fun kept after =>
        after.Small → kept.reverse = chosen.reverse ++ rest.filter passes := by
    intro rest
    induction rest with
    | nil => exact fun chosen pool _ => pure fun _ => by simp
    | cons first rest ih =>
      intro chosen pool each
      refine ofValid fun valid => bind (each first List.mem_cons_self pool valid.growth) ?_
      intro passed between growth told
      refine (ih (cond passed (first :: chosen) chosen) between fun element member after grown =>
        each element (List.mem_cons_of_mem _ member) after (growth.trans grown)).mono ?_
      intro kept after grown same small
      rw [same small]
      have passing := told (grown.small small)
      cases passed with
      | true => simp [List.filter_cons_of_pos (passing.mp rfl)]
      | false =>
        have fails : ¬ passes first = true := fun holds => Bool.false_ne_true (passing.mpr holds)
        rw [List.filter_cons_of_neg fails]
        rfl
  exact bind (accumulate elements [] pool each) fun kept between _ same => pure same

/-- A search at each element, whose results are read in the pool. -/
theorem filterMapM_reads {search : α → PoolM (Option β)} {holds : β → TypePool → Prop}
    {read : TypePool → β → γ} {answer : α → Option γ} {elements : List α}
    (stable : ∀ result (before after : TypePool), before.Valid → pool.Growth before →
      before.Growth after → holds result before → holds result after ∧
      read after result = read before result)
    (each : ∀ element ∈ elements, ∀ between, pool.Growth between →
      PoolM.Builds (search element) between
      fun found after => (∀ result ∈ found, holds result after) ∧
      (after.Small → found.map (read after) = answer element)) :
    PoolM.Builds (elements.filterMapM search) pool fun results after =>
      (∀ result ∈ results, holds result after) ∧
        (after.Small → results.map (read after) = elements.filterMap answer) := by
  induction elements generalizing pool with
  | nil => exact pure ⟨by simp, fun _ => rfl⟩
  | cons first rest ih =>
    rw [List.filterMapM_cons]
    refine ofValid fun valid => bind (each first List.mem_cons_self pool valid.growth) ?_
    rintro found between growth ⟨promised, reads⟩
    have later := ih (fun result before after valid grown =>
      stable result before after valid (growth.trans grown))
      fun element member after grown =>
        each element (List.mem_cons_of_mem _ member) after (growth.trans grown)
    cases found with
    | none =>
      refine later.mono fun results after grown ⟨inRest, all⟩ => ⟨inRest, fun small => ?_⟩
      rw [all small, List.filterMap_cons_none (reads (grown.small small)).symm]
    | some result =>
      refine bind later fun results after grown ⟨inRest, all⟩ =>
        pure ⟨fun other member => ?_, fun small => ?_⟩
      · rcases List.mem_cons.mp member with rfl | present
        · exact (stable _ _ _ growth.valid growth grown (promised _ rfl)).1
        · exact inRest other present
      · rw [List.map_cons, all small, (stable _ _ _ growth.valid growth grown (promised _ rfl)).2,
          List.filterMap_cons_some (reads (grown.small small)).symm]

/-- What is built at each element, read in the pool. -/
theorem mapM_reads {build : α → PoolM β} {holds : β → TypePool → Prop} {read : TypePool → β → γ}
    {answer : α → γ} {elements : List α}
    (stable : ∀ result (before after : TypePool), before.Valid → pool.Growth before →
      before.Growth after → holds result before → holds result after ∧
      read after result = read before result)
    (each : ∀ element ∈ elements, ∀ between, pool.Growth between →
      PoolM.Builds (build element) between
      fun result after => holds result after ∧ (after.Small → read after result = answer element)) :
    PoolM.Builds (elements.mapM build) pool fun results after =>
      (∀ result ∈ results, holds result after) ∧
        (after.Small → results.map (read after) = elements.map answer) := by
  induction elements generalizing pool with
  | nil => exact pure ⟨by simp, fun _ => rfl⟩
  | cons first rest ih =>
    rw [List.mapM_cons]
    refine ofValid fun valid => bind (each first List.mem_cons_self pool valid.growth) ?_
    rintro result between growth ⟨promised, reads⟩
    have later := ih (fun result before after valid grown =>
      stable result before after valid (growth.trans grown))
      fun element member after grown =>
        each element (List.mem_cons_of_mem _ member) after (growth.trans grown)
    refine bind later fun results after grown ⟨inRest, all⟩ =>
      pure ⟨fun other member => ?_, fun small => ?_⟩
    · rcases List.mem_cons.mp member with rfl | present
      · exact (stable _ _ _ growth.valid growth grown promised).1
      · exact inRest other present
    · rw [List.map_cons, all small, (stable _ _ _ growth.valid growth grown promised).2,
        reads (grown.small small), List.map_cons]

/-- A fold that follows one over other values. -/
theorem foldlM_follows {step : β → α → PoolM β} (follow : γ → α → γ)
    (relates : β → γ → TypePool → Prop) {elements : List α} {start : β} {first : γ}
    (related : relates start first pool) (each : ∀ element ∈ elements, ∀ value tree between,
      pool.Growth between → relates value tree between → PoolM.Builds (step value element) between
        fun result after => relates result (follow tree element) after) :
    PoolM.Builds (elements.foldlM step start) pool fun result after =>
      relates result (elements.foldl follow first) after := by
  induction elements generalizing pool start first with
  | nil => exact pure related
  | cons element rest ih =>
    rw [List.foldlM_cons]
    refine ofValid fun valid =>
      bind (each element List.mem_cons_self start first pool valid.growth related) ?_
    intro value between growth holds
    exact ih holds fun other member value tree after grown =>
      each other (List.mem_cons_of_mem _ member) value tree after (growth.trans grown)

end Builds
end PoolM

end ClassLang
