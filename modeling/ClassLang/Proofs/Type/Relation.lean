import ClassLang.Proofs.Type.Supertype

/-! Questions about types always have an answer: in a valid pool, about types of the pool, every
relation ends without failure and does no more to the pool than to enter types. -/

namespace ClassLang

/-- In every pool grown from `base` the test of two types of the pool ends. -/
def TypeTest.Settles (test : TypeTest) (base : TypePool) : Prop :=
  ∀ pool, base.Growth pool → ∀ first second, pool.Has first → pool.Has second →
    PoolM.Settles (test first second) pool

namespace ClassHierarchy
open TypePool PoolM.Builds

variable {hierarchy : ClassHierarchy} {base pool : TypePool} {sup sub : TypeRef}

theorem isSupertype_settles (held : hierarchy.HeldBy pool) (supHere : pool.Has sup)
    (subHere : pool.Has sub) : PoolM.Settles (hierarchy.isSupertype sup sub) pool :=
  ofValid fun valid => (isSupertype_tells valid held supHere subHere).settles

theorem erasureWithin_settles : ∀ (depth : Nat) {type : TypeRef}, pool.Has type →
    PoolM.Settles (erasureWithin depth type) pool
  | 0, _, _ => pure trivial
  | depth + 1, type, inside => by
    refine ofValid fun valid => readNode inside fun node found => ?_
    split
    · exact pure trivial
    · exact pure trivial
    · exact readUpperBound (valid.named _ _ _ found) fun bound _ boundHere =>
        erasureWithin_settles depth boundHere
    · exact erasureWithin_settles depth (valid.has_bound found)
    · exact pure trivial

theorem isSuperclassWithin_settles (held : hierarchy.HeldBy base) :
    ∀ depth, (hierarchy.isSuperclassWithin depth).Settles base
  | 0, _, _, _, _, firstHere, secondHere => (triviallyRelated_tells firstHere secondHere).settles
  | depth + 1, pool, growth, first, second, firstHere, secondHere => by
    refine bind ((triviallyRelated_tells firstHere secondHere).settles)
      fun related between grown _ => ?_
    cases related with
    | true => exact pure trivial
    | false =>
      refine bind (erasureWithin_settles 64 (grown.has firstHere)) fun target after more _ => ?_
      have whole := grown.trans more
      have firstThere := whole.has firstHere
      have secondThere := whole.has secondHere
      have below := isSuperclassWithin_settles held depth
      cases target with
      | none => exact pure trivial
      | some target =>
        refine ofValid fun valid => readNode secondThere fun node found => ?_
        split
        · refine readParam (valid.named _ _ _ found) fun declared boundsHere => ?_
          exact anyM fun bound member later further => below later
            ((growth.trans whole).trans further) _ _ (further.has firstThere)
            (further.has (boundsHere bound member))
        · exact below after (growth.trans whole) _ _ firstThere (valid.has_bound found)
        · exact bind (PoolM.Builds.ancestorAt? _ secondThere (held.grow (growth.trans whole)))
            fun _ _ _ _ => pure trivial

theorem isSuperclass_settles (held : hierarchy.HeldBy pool) (supHere : pool.Has sup)
    (subHere : pool.Has sub) : PoolM.Settles (hierarchy.isSuperclass sup sub) pool :=
  ofValid fun valid =>
    isSuperclassWithin_settles held relationDepth pool valid.growth sup sub supHere subHere

theorem withinBound_settles (held : hierarchy.HeldBy pool) {bound argument : TypeRef}
    (boundHere : pool.Has bound) (argumentHere : pool.Has argument) :
    PoolM.Settles (hierarchy.withinBound bound argument) pool := by
  refine ofValid fun valid => readNode argumentHere fun node found => ?_
  split
  · have upperHere := valid.has_bound found
    refine bind (isSupertype_settles held boundHere upperHere) fun within between grown _ => ?_
    cases within with
    | true => exact pure trivial
    | false =>
      exact isSupertype_settles (held.grow grown) (grown.has upperHere) (grown.has boundHere)
  · exact pure trivial
  · exact isSupertype_settles held boundHere argumentHere

/-- The bound that an argument violates is a type of the pool. -/
theorem violatedBound?_builds (held : hierarchy.HeldBy pool) {param : ParamRef}
    {argument : TypeRef} {subst : Substitution} (declares : pool.Declares param)
    (argumentHere : pool.Has argument) (bound : subst.HeldBy pool) :
    PoolM.Builds (hierarchy.violatedBound? param argument subst) pool fun violated after =>
      ∀ type ∈ violated, after.Has type := by
  refine ofValid fun valid => readParam declares fun declared boundsHere => ?_
  refine findSomeM? fun type member between grown => ?_
  refine bind (PoolM.Builds.instantiate (Denotes.self (grown.has (boundsHere type member)))
    ⟨bound.grow grown, fun _ => rfl⟩) fun result after more denotes => ?_
  have whole := grown.trans more
  refine bind (withinBound_settles (held.grow whole) denotes.has (whole.has argumentHere))
    fun within later further _ => ?_
  cases within with
  | true => exact pure (by simp)
  | false =>
    refine pure fun type same => ?_
    cases same
    exact further.has denotes.has

end ClassHierarchy
end ClassLang
