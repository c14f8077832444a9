import ClassLang.Proofs.Type.Inheritance
import ClassLang.Type.Fault
import ClassLang.Type.Relation

/-! Asking about types: in a valid pool the entries of a handle can be read, and what is done with
each of several elements can be done with all. -/

namespace ClassLang

/-- The action ends in a valid pool, whatever it returns. -/
abbrev PoolM.Settles (action : PoolM α) (pool : TypePool) : Prop :=
  PoolM.Builds action pool fun _ _ => True

namespace TypePool
variable {pool : TypePool} {type : TypeRef} {node : TypeNode} {param : ParamRef}

theorem Has.isLenient_eq (inside : pool.Has type) :
    ∃ lenient, pool.isLenient type = .ok lenient := by
  obtain ⟨node, found⟩ := inside.lookup
  unfold TypePool.isLenient TypePool.isUnresolved
  rw [node_eq found]
  split
  · exact ⟨true, rfl⟩
  · cases node <;> exact ⟨_, rfl⟩

theorem param_eq {declared : TypeParam} (found : pool.params[param.raw]? = some declared) :
    pool.param param = .ok declared := by
  simp [TypePool.param, found]

theorem Declares.upperBound_eq (declares : pool.Declares param) :
    ∃ bound, pool.upperBound param = .ok bound := by
  obtain ⟨declared, found⟩ := declares.lookup
  exact ⟨declared.bounds.headD .any, by simp [TypePool.upperBound, param_eq found, Except.map]⟩

/-- Parts of an entry are entries. -/
theorem Valid.has_part (valid : pool.Valid) (found : pool.types[type.raw]? = some node)
    {part : TypeRef} (member : part ∈ node.parts) : pool.Has part :=
  Nat.lt_trans (valid.parts _ _ found part member) (has_of_lookup found)

theorem Valid.has_bound (valid : pool.Valid) {variance : Variance} {bound : TypeRef}
    (found : pool.types[type.raw]? = some (.wildcard variance bound)) : pool.Has bound :=
  valid.has_part found (by simp [TypeNode.parts])

end TypePool

namespace PoolM.Builds
open TypePool

section
variable {pool : TypePool} {elements : List α}

theorem settles {action : PoolM α} {post : α → TypePool → Prop}
    (builds : PoolM.Builds action pool post) : PoolM.Settles action pool :=
  builds.mono fun _ _ _ _ => trivial

/-- A question that is the last step. -/
theorem answer {query : TypePool → Except Abort α} {post : α → TypePool → Prop} {result : α}
    (ran : query pool = .ok result) (holds : post result pool) :
    PoolM.Builds (PoolM.inspect query) pool post := by
  rw [← bind_pure (PoolM.inspect query)]
  exact inspect ran (pure holds)

theorem anyM {test : α → PoolM Bool} (each : ∀ element ∈ elements, ∀ between, pool.Growth between →
    PoolM.Settles (test element) between) : PoolM.Settles (elements.anyM test) pool := by
  induction elements generalizing pool with
  | nil => exact pure trivial
  | cons first rest ih =>
    refine ofValid fun valid => bind (each first List.mem_cons_self pool valid.growth) ?_
    intro passed between growth _
    cases passed with
    | true => exact pure trivial
    | false =>
      exact ih fun element member after grown =>
        each element (List.mem_cons_of_mem _ member) after (growth.trans grown)

theorem allM {test : α → PoolM Bool} (each : ∀ element ∈ elements, ∀ between, pool.Growth between →
    PoolM.Settles (test element) between) : PoolM.Settles (elements.allM test) pool := by
  induction elements generalizing pool with
  | nil => exact pure trivial
  | cons first rest ih =>
    refine ofValid fun valid => bind (each first List.mem_cons_self pool valid.growth) ?_
    intro passed between growth _
    cases passed with
    | false => exact pure trivial
    | true =>
      exact ih fun element member after grown =>
        each element (List.mem_cons_of_mem _ member) after (growth.trans grown)

theorem findSomeM? {search : α → PoolM (Option β)} {holds : β → TypePool → Prop}
    (each : ∀ element ∈ elements, ∀ between, pool.Growth between →
      PoolM.Builds (search element) between fun found after =>
        ∀ result ∈ found, holds result after) :
    PoolM.Builds (elements.findSomeM? search) pool fun found after =>
      ∀ result ∈ found, holds result after := by
  induction elements generalizing pool with
  | nil => exact pure (by simp)
  | cons first rest ih =>
    refine ofValid fun valid => bind (each first List.mem_cons_self pool valid.growth) ?_
    intro found between growth all
    cases found with
    | some result => exact pure all
    | none =>
      exact ih fun element member after grown =>
        each element (List.mem_cons_of_mem _ member) after (growth.trans grown)

/-- What every step keeps of the value carried along. -/
theorem foldlM {step : β → α → PoolM β} {keeps : β → TypePool → Prop} {start : β}
    (first : keeps start pool)
    (each : ∀ element ∈ elements, ∀ value between, pool.Growth between → keeps value between →
      PoolM.Builds (step value element) between keeps) :
    PoolM.Builds (elements.foldlM step start) pool keeps := by
  induction elements generalizing pool start with
  | nil => exact pure first
  | cons element rest ih =>
    rw [List.foldlM_cons]
    refine ofValid fun valid =>
      bind (each element List.mem_cons_self start pool valid.growth first) ?_
    intro value between growth holds
    exact ih holds fun other member value after grown =>
      each other (List.mem_cons_of_mem _ member) value after (growth.trans grown)

/-- What holds of every result, when growing does not end it. -/
theorem mapEach {action : α → PoolM β} {holds : β → TypePool → Prop}
    (stable : ∀ result before after, before.Growth after → holds result before → holds result after)
    (each : ∀ element ∈ elements, ∀ between, pool.Growth between →
      PoolM.Builds (action element) between holds) :
    PoolM.Builds (elements.mapM action) pool fun results after =>
      ∀ result ∈ results, holds result after := by
  induction elements generalizing pool with
  | nil => exact pure (by simp)
  | cons first rest ih =>
    rw [List.mapM_cons]
    refine ofValid fun valid => bind (each first List.mem_cons_self pool valid.growth) ?_
    intro result between growth promised
    refine bind (ih fun element member after grown =>
      each element (List.mem_cons_of_mem _ member) after (growth.trans grown)) ?_
    intro results after grown later
    refine pure fun other member => ?_
    rcases List.mem_cons.mp member with rfl | inRest
    · exact stable _ _ _ grown promised
    · exact later other inRest

theorem filterMapM {search : α → PoolM (Option β)} {holds : β → TypePool → Prop}
    (stable : ∀ result before after, before.Growth after → holds result before → holds result after)
    (each : ∀ element ∈ elements, ∀ between, pool.Growth between →
      PoolM.Builds (search element) between fun found after =>
        ∀ result ∈ found, holds result after) :
    PoolM.Builds (elements.filterMapM search) pool fun results after =>
      ∀ result ∈ results, holds result after := by
  induction elements generalizing pool with
  | nil => exact pure (by simp)
  | cons first rest ih =>
    rw [List.filterMapM_cons]
    refine ofValid fun valid => bind (each first List.mem_cons_self pool valid.growth) ?_
    intro found between growth all
    have later := ih fun element member after grown =>
      each element (List.mem_cons_of_mem _ member) after (growth.trans grown)
    cases found with
    | none => exact later
    | some result =>
      refine bind later fun results after grown inRest => pure fun other member => ?_
      rcases List.mem_cons.mp member with rfl | present
      · exact stable _ _ _ grown (all _ rfl)
      · exact inRest other present

end

/-! Reading the pool. -/

section
variable {pool : TypePool} {type : TypeRef} {post : β → TypePool → Prop}

theorem readBase {next : Option Name → PoolM β} (inside : pool.Has type)
    (rest : ∀ base, PoolM.Builds (next base) pool post) :
    PoolM.Builds (PoolM.inspect (·.baseName? type) >>= next) pool post :=
  ofValid fun valid => inspect (valid.baseName?_eq inside) (rest _)

theorem readArgs {next : List TypeRef → PoolM β} (inside : pool.Has type)
    (rest : ∀ args, (∀ arg ∈ args, pool.Has arg) → PoolM.Builds (next args) pool post) :
    PoolM.Builds (PoolM.inspect (·.args type) >>= next) pool post := by
  refine ofValid fun valid => ?_
  obtain ⟨args, ran, held, _⟩ := valid.args_eq inside
  exact inspect ran (rest args held)

theorem readParam {next : TypeParam → PoolM β} {param : ParamRef} (declares : pool.Declares param)
    (rest : ∀ declared, (∀ bound ∈ declared.bounds, pool.Has bound) →
      PoolM.Builds (next declared) pool post) :
    PoolM.Builds (PoolM.inspect (·.param param) >>= next) pool post := by
  refine ofValid fun valid => ?_
  obtain ⟨declared, found⟩ := declares.lookup
  exact inspect (param_eq found) (rest declared fun bound member =>
    valid.bounds _ declared found bound member)

theorem readUpperBound {next : TypeRef → PoolM β} {param : ParamRef}
    (declared : pool.Declares param)
    (rest : ∀ bound, pool.upperBound param = .ok bound → pool.Has bound →
      PoolM.Builds (next bound) pool post) :
    PoolM.Builds (PoolM.inspect (·.upperBound param) >>= next) pool post := by
  refine ofValid fun valid => ?_
  obtain ⟨bound, asked⟩ := declared.upperBound_eq
  exact inspect asked (rest bound asked (valid.has_upperBound asked))

end
end PoolM.Builds
end ClassLang
