import ClassLang.Proofs.Type.Tree

/-! Type parameters: declaring one and setting its bounds change no type. -/

namespace ClassLang

/-- `after` has the types of `before` at their places, and no fewer parameters. -/
structure TypePool.Within (before after : TypePool) : Prop where
  types : TypePool.Prefix before after
  params : before.params.size ≤ after.params.size

namespace TypePool.Within

variable {first second third before after : TypePool} {type : TypeRef} {param : ParamRef}

theorem refl (pool : TypePool) : pool.Within pool := ⟨.refl pool, Nat.le_refl _⟩

theorem trans (earlier : first.Within second) (later : second.Within third) : first.Within third :=
  ⟨earlier.types.trans later.types, Nat.le_trans earlier.params later.params⟩

theorem has (within : before.Within after) (inside : before.Has type) : after.Has type :=
  within.types.has inside

theorem declares (within : before.Within after) (declared : before.Declares param) :
    after.Declares param :=
  Nat.lt_of_lt_of_le declared within.params

end TypePool.Within

theorem TypePool.Growth.within {before after : TypePool} (growth : before.Growth after) :
    before.Within after :=
  ⟨growth.grown.types, Nat.le_of_eq (congrArg Array.size growth.grown.params.symm)⟩

namespace TypePool

variable {pool : TypePool} {param : ParamRef} {bounds : List TypeRef} {name owner : Name}
  {variance : Variance}

theorem setBounds_types : (pool.setBounds param bounds).types = pool.types := by
  unfold setBounds
  split <;> rfl

theorem setBounds_dedup : (pool.setBounds param bounds).dedup = pool.dedup := by
  unfold setBounds
  split <;> rfl

theorem setBounds_size : (pool.setBounds param bounds).params.size = pool.params.size := by
  unfold setBounds
  split
  · exact Array.size_setIfInBounds
  · rfl

theorem setBounds_within : pool.Within (pool.setBounds param bounds) :=
  ⟨.of_eq setBounds_types setBounds_dedup, Nat.le_of_eq setBounds_size.symm⟩

theorem setBounds_lookup {other : Nat} {declared : TypeParam}
    (found : (pool.setBounds param bounds).params[other]? = some declared) :
    ∃ old, pool.params[other]? = some old ∧
      (declared = old ∨ other = param.raw ∧ declared.bounds = bounds) := by
  unfold setBounds at found
  split at found
  · rename_i old stored
    rw [Array.getElem?_setIfInBounds] at found
    split at found
    · rename_i same
      split at found
      · cases found
        exact ⟨old, same ▸ stored, .inr ⟨same.symm, rfl⟩⟩
      · cases found
    · exact ⟨declared, found, .inl rfl⟩
  · exact ⟨declared, found, .inl rfl⟩

theorem Valid.setBounds (valid : pool.Valid) (held : ∀ bound ∈ bounds, pool.Has bound) :
    (pool.setBounds param bounds).Valid := by
  have within : pool.Within (pool.setBounds param bounds) := setBounds_within
  refine ⟨valid.primitives.trans within.types, ?_, ?_, fun index other variance found => ?_,
    fun index declared found bound member => ?_⟩
  · unfold Lockstep find?
    rw [setBounds_types, setBounds_dedup]
    exact valid.lockstep
  · rw [setBounds_types]
    exact valid.parts
  · rw [setBounds_types] at found
    exact within.declares (valid.named index other variance found)
  · obtain ⟨old, stored, same | ⟨_, same⟩⟩ := setBounds_lookup found
    · exact within.has (valid.bounds index old stored bound (same ▸ member))
    · exact within.has (held bound (same ▸ member))

/-- Setting bounds keeps the variance of every parameter. -/
theorem setBounds_variance {other : Nat} :
    ((pool.setBounds param bounds).params[other]?).map (·.variance) =
      (pool.params[other]?).map (·.variance) := by
  unfold setBounds
  split
  · rename_i declared found
    rw [Array.getElem?_setIfInBounds]
    split
    · rename_i same
      subst same
      rw [if_pos (Array.getElem?_eq_some_iff.mp found).1, found]
      rfl
    · rfl
  · rfl

theorem declareParam_types : (pool.declareParam name owner variance).2.types = pool.types := rfl

/-- A declared parameter comes after the others and has no bounds. -/
theorem declareParam_params (other : Nat) :
    (pool.declareParam name owner variance).2.params[other]? =
      if other = pool.params.size then some { name, owner, variance } else pool.params[other]? :=
  Array.getElem?_push

theorem declareParam_declares :
    (pool.declareParam name owner variance).2.Declares
      (pool.declareParam name owner variance).1 := by
  simp [declareParam, Declares]

theorem declareParam_within : pool.Within (pool.declareParam name owner variance).2 :=
  ⟨.of_eq rfl rfl, by simp [declareParam]⟩

theorem Valid.declareParam (valid : pool.Valid) :
    (pool.declareParam name owner variance).2.Valid := by
  have within : pool.Within (pool.declareParam name owner variance).2 := declareParam_within
  refine ⟨valid.primitives.trans within.types, valid.lockstep, valid.parts,
    fun index param other found => ?_, fun index declared found bound member => ?_⟩
  · exact within.declares (valid.named index param other found)
  · rw [declareParam_params] at found
    split at found
    · cases found
      cases member
    · exact valid.bounds index declared found bound member

end TypePool
end ClassLang
