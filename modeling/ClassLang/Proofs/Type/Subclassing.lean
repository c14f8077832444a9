import ClassLang.Proofs.Type.Relation

/-! Subclassing on trees, that the test on pooled types answers it, and that subtyping refines it:
what may be assigned to a class type may be tested for its class. The limit on following bounds can
only lose answers of either test. -/

namespace ClassLang

namespace TreeHierarchy

variable (hierarchy : TreeHierarchy) (bounds : ParamRef → List TypeTree)

/-- The class a type comes down to when bounds are followed at most `depth` times. -/
def erasureWithin (bounds : ParamRef → List TypeTree) : Nat → TypeTree → Option Name
  | 0, _ => none
  | depth + 1, .var param _ => erasureWithin bounds depth ((bounds param).headD .any)
  | depth + 1, .wildcard _ bound => erasureWithin bounds depth bound
  | _ + 1, tree => tree.base?

/-- A type that inherits from a class itself, or whose bounds are related. -/
def Inherits (deeper : TypeTree → Prop) (target : Name) : TypeTree → Prop
  | .var param _ => ∃ bound ∈ bounds param, deeper bound
  | .wildcard _ bound => deeper bound
  | sub => (hierarchy.ancestorAt? sub target).isSome

/-- Subclassing with bounds followed at most `depth` times. -/
def Superclass : Nat → TreeTest
  | 0, sup, sub => sup.Akin sub
  | depth + 1, sup, sub => sup.Akin sub ∨
      ∃ target, erasureWithin bounds 64 sup = some target ∧
      hierarchy.Inherits bounds (Superclass depth sup) target sub

section
variable {hierarchy bounds} {depth : Nat} {sup sub : TypeTree} {base : Name}

theorem erasureWithin_of_base? (named : sup.base? = some base) (depth : Nat) :
    erasureWithin bounds (depth + 1) sup = some base := by
  cases sup with
  | class_ | applied => exact named
  | _ => cases named

/-- Subtyping below a class type follows bounds as subclassing does, and asks more of class
types. -/
theorem PlainSupertype.inherits (named : sup.base? = some base) {deeper wider : TreeTest}
    (widens : ∀ sub, deeper sup sub → wider sup sub)
    (above : hierarchy.PlainSupertype bounds deeper sup sub) :
    hierarchy.Inherits bounds (wider sup) base sub := by
  have classes (above : hierarchy.ClassSupertype deeper sup sub) :
      (hierarchy.ancestorAt? sub base).isSome := by
    cases sup with
    | class_ name =>
      cases named
      exact above
    | applied name args =>
      cases named
      obtain ⟨ancestor, found, _⟩ := above
      exact Option.isSome_iff_exists.mpr ⟨ancestor, found⟩
    | _ => cases named
  cases sub with
  | var param variance =>
    obtain ⟨bound, member, below⟩ := above
    exact ⟨bound, member, widens bound below⟩
  | wildcard variance bound =>
    cases variance with
    | covariant => exact widens bound above
    | invariant | contravariant => exact above.elim
  | _ => exact classes above

/-- The supertypes of a type that are class types are its superclasses: the two recursions follow
the same bounds, one level at a time. -/
theorem Supertype.superclass (named : sup.base? = some base)
    (above : hierarchy.Supertype bounds depth sup sub) :
    hierarchy.Superclass bounds depth sup sub := by
  induction depth generalizing sub with
  | zero => exact above
  | succ depth ih =>
    rcases above with akin | above
    · exact .inl akin
    · have plain : hierarchy.PlainSupertype bounds (hierarchy.Supertype bounds depth) sup sub := by
        cases sup with
        | class_ | applied => exact above
        | _ => cases named
      exact .inr ⟨base, erasureWithin_of_base? named 63, plain.inherits named fun _ => ih⟩

/-- A class used without arguments is above whatever inherits from it. -/
theorem superclass_iff_supertype {other : Name} (isSub : sub.base? = some other) :
    hierarchy.Superclass bounds (depth + 1) (.class_ base) sub ↔
      hierarchy.Supertype bounds (depth + 1) (.class_ base) sub := by
  refine ⟨fun related => ?_, Supertype.superclass rfl⟩
  rcases related with akin | ⟨target, found, inherits⟩
  · exact .inl akin
  · cases found
    refine .inr ?_
    cases sub with
    | class_ | applied => exact inherits
    | _ => cases isSub

end
end TreeHierarchy

namespace ClassHierarchy
open TypePool PoolM.Builds

variable {hierarchy : ClassHierarchy} {base pool : TypePool} {sup sub : TypeRef}

theorem erasureWithin_reads : ∀ (depth : Nat) {type : TypeRef}, pool.Has type →
    PoolM.Builds (erasureWithin depth type) pool fun target _ =>
      target = TreeHierarchy.erasureWithin pool.boundTrees depth (pool.tree type)
  | 0, _, _ => pure rfl
  | depth + 1, type, inside => by
    refine ofValid fun valid => readNode inside fun node found => ?_
    rw [valid.tree_eq found]
    cases node with
    | var param variance =>
      obtain ⟨declared, stored⟩ := (valid.named _ _ _ found).lookup
      obtain ⟨asked, upper⟩ := valid.upperBound_of_param stored
      refine inspect asked ?_
      rw [TypeNode.toTree, TreeHierarchy.erasureWithin, ← upper]
      exact erasureWithin_reads depth (valid.has_upperBound asked)
    | wildcard variance bound => exact erasureWithin_reads depth (valid.has_bound found)
    | _ => exact pure rfl

/-- Subclassing of types that are not akin, once the class that is asked for is known. -/
theorem inherits_tells {deeper : TypeTest} {relation : TreeTest} (growth : base.Growth pool)
    (held : hierarchy.HeldBy base) (below : deeper.Reads base relation) (supHere : pool.Has sup)
    (subHere : pool.Has sub) (target : Name) : PoolM.Tells (do
      match ← PoolM.inspect (·.node sub) with
      | .var param _ =>
        let declared ← PoolM.inspect (·.param param)
        declared.bounds.anyM (deeper sup ·)
      | .wildcard _ bound => deeper sup bound
      | _ => return (← hierarchy.ancestorAt? sub target).isSome) pool
      ((hierarchy.unfold pool).Inherits pool.boundTrees (relation (pool.tree sup)) target
        (pool.tree sub)) := by
  refine ofValid fun valid => readNode subHere fun node found => ?_
  have subTree := valid.tree_eq found
  have atClass : PoolM.Tells (do return (← hierarchy.ancestorAt? sub target).isSome) pool
      ((hierarchy.unfold pool).ancestorAt? (pool.tree sub) target).isSome := by
    refine bind (PoolM.Builds.ancestorAt? target subHere (held.grow growth))
      fun found between grown facts => ?_
    refine pure fun small => ?_
    rw [← facts.2 small, Option.isSome_map]
  cases node with
  | var param variance =>
    obtain ⟨declared, stored⟩ := (valid.named _ _ _ found).lookup
    refine inspect (param_eq stored) ?_
    rw [subTree]
    exact below.anyBound growth supHere stored
  | wildcard variance bound =>
    rw [subTree]
    exact below pool growth _ _ supHere (valid.has_bound found)
  | _ =>
    rw [subTree] at atClass ⊢
    exact atClass

theorem isSuperclassWithin_reads (valid : base.Valid) (held : hierarchy.HeldBy base) :
    ∀ depth, (hierarchy.isSuperclassWithin depth).Reads base
      ((hierarchy.unfold base).Superclass base.boundTrees depth)
  | 0, _, _, _, _, firstHere, secondHere => triviallyRelated_tells firstHere secondHere
  | depth + 1, pool, growth, first, second, firstHere, secondHere => by
    refine PoolM.Tells.orElse (triviallyRelated_tells firstHere secondHere) fun between grown => ?_
    have whole := growth.trans grown
    rw [← grown.tree_eq growth.valid firstHere, ← grown.tree_eq growth.valid secondHere]
    refine bind (erasureWithin_reads 64 (grown.has firstHere)) ?_
    rintro _ after more rfl
    have all := whole.trans more
    have bounds : between.boundTrees = base.boundTrees := whole.boundTrees_eq valid
    rw [bounds]
    cases erased : TreeHierarchy.erasureWithin base.boundTrees 64 (between.tree first) with
    | none => exact PoolM.Tells.no fun _ ⟨_, found, _⟩ => nomatch found
    | some target =>
      have told := inherits_tells all held (isSuperclassWithin_reads valid held depth)
        (more.has (grown.has firstHere)) (more.has (grown.has secondHere)) target
      rw [held.unfold_eq valid all, all.boundTrees_eq valid,
        more.tree_eq grown.valid (grown.has firstHere),
          more.tree_eq grown.valid (grown.has secondHere)] at told
      exact told.congr fun _ => by simp

/-- Subclassing has an answer, which is that of the trees. -/
theorem isSuperclass_tells (valid : pool.Valid) (held : hierarchy.HeldBy pool)
    (supHere : pool.Has sup) (subHere : pool.Has sub) :
    PoolM.Tells (hierarchy.isSuperclass sup sub) pool
      ((hierarchy.unfold pool).Superclass pool.boundTrees relationDepth (pool.tree sup)
        (pool.tree sub)) :=
  isSuperclassWithin_reads valid held relationDepth pool valid.growth sup sub supHere subHere

/-- Subtyping refines subclassing: what is below a class type is of its class. And what is of a
class is below the class used without arguments, if it is a class type itself. Bounds and
inheritance may be cyclic. -/
theorem isSupertype_refines_isSuperclass (valid : pool.Valid) (held : hierarchy.HeldBy pool)
    (supHere : pool.Has sup) (subHere : pool.Has sub) {name : Name}
    (named : (pool.tree sup).base? = some name) : Completes (do
      let above ← hierarchy.isSupertype sup sub
      let ofClass ← hierarchy.isSuperclass sup sub
      return (above, ofClass)) pool fun result after => after.Small →
        (result.1 = true → result.2 = true) ∧
        (pool.tree sup = .class_ name → (pool.tree sub).base?.isSome →
          (result.1 = true ↔ result.2 = true)) := by
  have builds : PoolM.Builds (do
      let above ← hierarchy.isSupertype sup sub
      let ofClass ← hierarchy.isSuperclass sup sub
      return (above, ofClass)) pool fun result after => after.Small →
        (result.1 = true ↔
          (hierarchy.unfold pool).Supertype pool.boundTrees relationDepth (pool.tree sup)
            (pool.tree sub)) ∧
        (result.2 = true ↔
          (hierarchy.unfold pool).Superclass pool.boundTrees relationDepth (pool.tree sup)
            (pool.tree sub)) := by
    refine bind (isSupertype_tells valid held supHere subHere) fun above between growth told => ?_
    refine bind (isSuperclass_tells growth.valid (held.grow growth) (growth.has supHere)
      (growth.has subHere))
      fun ofClass after grown also => pure fun small => ⟨told (grown.small small), ?_⟩
    rw [also small, held.unfold_eq valid growth, growth.boundTrees_eq valid,
      growth.tree_eq valid supHere, growth.tree_eq valid subHere]
  refine (builds valid).mono fun result after ⟨_, told⟩ small => ?_
  obtain ⟨above, ofClass⟩ := told small
  refine ⟨fun yes => ofClass.mpr ((above.mp yes).superclass named), fun raw isClass => ?_⟩
  obtain ⟨other, isSub⟩ := Option.isSome_iff_exists.mp isClass
  rw [above, ofClass, raw]
  exact (TreeHierarchy.superclass_iff_supertype isSub).symm

/-- A pool for two variables that bound each other, and for a class over one of them. -/
def loopPool : TypePool :=
  .ofEntries
    #[.any, .void, .int, .float, .bool, .char, .string, .var ⟨0⟩ .invariant, .var ⟨1⟩ .invariant,
      .class_ "Node", .applied "Node" [⟨2⟩], .class_ "Base"]
    #[⟨"T", "Node", .invariant, [⟨8⟩]⟩, ⟨"U", "Node", .invariant, [⟨10⟩, ⟨7⟩]⟩]

/-- `Node<T>` extends `Base`, and that extends `Node<int>`. -/
def loopClasses : ClassHierarchy := ofHeaders [
  { name := "Node", typeParams := [⟨0⟩], superclass := some ⟨11⟩ },
  { name := "Base", superclass := some ⟨10⟩ }]

/-- A variable is below `Node<int>` by the bounds of the other one, and `Base` is below `Node` by
the cycle. -/
theorem isSupertype_refines_isSuperclass_loop :
    (∃ result after, (do
        let above ← loopClasses.isSupertype ⟨10⟩ ⟨7⟩
        let ofClass ← loopClasses.isSuperclass ⟨10⟩ ⟨7⟩
        return (above, ofClass)).run loopPool = .ok (result, after) ∧ result.1 = true ∧
          result.2 = true) ∧
    ∃ result after, (do
        let above ← loopClasses.isSupertype ⟨9⟩ ⟨11⟩
        let ofClass ← loopClasses.isSuperclass ⟨9⟩ ⟨11⟩
        return (above, ofClass)).run loopPool = .ok (result, after) ∧ result.1 = true ∧
      (result.1 = true ↔ result.2 = true) := by
  have held : loopClasses.HeldBy loopPool := heldBy_ofHeaders (by decide)
  obtain ⟨first, after, ran, refines⟩ :=
    isSupertype_refines_isSuperclass (by decide : loopPool.Valid) held
    (by decide : loopPool.Has ⟨10⟩) (by decide : loopPool.Has ⟨7⟩) rfl
  obtain ⟨second, last, ranToo, same⟩ :=
    isSupertype_refines_isSuperclass (by decide : loopPool.Valid) held
    (by decide : loopPool.Has ⟨9⟩) (by decide : loopPool.Has ⟨11⟩) rfl
  constructor
  · refine ⟨first, after, ran, ?_⟩
    cases ran
    exact ⟨rfl, (refines (by decide)).1 rfl⟩
  · refine ⟨second, last, ranToo, ?_⟩
    cases ranToo
    exact ⟨rfl, (same (by decide)).2 rfl rfl⟩

end ClassHierarchy

/-! The limit on following bounds can only lose answers: what is found within few levels is found
within many. Relations of types end all the same, also where variables bound each other. -/

namespace TreeHierarchy

variable {hierarchy : TreeHierarchy} {bounds : ParamRef → List TypeTree} {sup sub : TypeTree}
    {few many : Nat}

theorem Inherits.mono {deeper wider : TypeTree → Prop}
    (widens : ∀ bound, deeper bound → wider bound) {target : Name}
    (inherits : hierarchy.Inherits bounds deeper target sub) :
    hierarchy.Inherits bounds wider target sub := by
  cases sub with
  | var param variance =>
    obtain ⟨bound, member, below⟩ := inherits
    exact ⟨bound, member, widens bound below⟩
  | wildcard variance bound => exact widens bound inherits
  | _ => exact inherits

/-- The class that is asked for is found apart from the levels, so that one level more loses
nothing. -/
theorem Superclass.succ : ∀ {depth : Nat} {sup sub : TypeTree},
    hierarchy.Superclass bounds depth sup sub → hierarchy.Superclass bounds (depth + 1) sup sub
  | 0, _, _, akin => .inl akin
  | _ + 1, _, _, related => related.imp_right fun ⟨target, erased, inherits⟩ =>
      ⟨target, erased, inherits.mono fun _ => succ⟩

theorem Superclass.mono (less : few ≤ many) (related : hierarchy.Superclass bounds few sup sub) :
    hierarchy.Superclass bounds many sup sub := by
  induction less with
  | refl => exact related
  | step _ ih => exact ih.succ

end TreeHierarchy

/-- A yes of `few` is a yes of `many`: both end in every pool grown from `base`, and so they
answer. -/
def TypeTest.Refines (few many : TypeTest) (base : TypePool) (sup sub : TypeRef) : Prop :=
  ∀ first second, base.Growth first → base.Growth second →
    Completes (few sup sub) first fun answer after =>
      Completes (many sup sub) second fun other later => after.Small → later.Small → answer = true →
        other = true

namespace TypeTest

variable {few many : TypeTest} {base pool : TypePool} {sup sub : TypeRef} {narrow wide : TreeTest}

/-- What a test answers about the trees it answers in any grown pool. -/
theorem Reads.completes {test : TypeTest} {relation : TreeTest} (reads : test.Reads base relation)
    (valid : base.Valid) (growth : base.Growth pool) (supHere : base.Has sup)
    (subHere : base.Has sub) : Completes (test sup sub) pool fun answer after =>
      after.Small → (answer = true ↔ relation (base.tree sup) (base.tree sub)) := by
  have told := reads pool growth sup sub (growth.has supHere) (growth.has subHere)
  rw [growth.tree_eq valid supHere, growth.tree_eq valid subHere] at told
  exact (told growth.valid).mono fun _ _ holds => holds.2

theorem Reads.refines (reads : few.Reads base narrow) (readsMany : many.Reads base wide)
    (valid : base.Valid) (supHere : base.Has sup) (subHere : base.Has sub)
    (widens : narrow (base.tree sup) (base.tree sub) → wide (base.tree sup) (base.tree sub)) :
    few.Refines many base sup sub := by
  intro first second toFirst toSecond
  refine (reads.completes valid toFirst supHere subHere).mono fun answer after told => ?_
  refine (readsMany.completes valid toSecond supHere subHere).mono fun other later toldMany => ?_
  exact fun small smallLater yes => (toldMany smallLater).mpr (widens ((told small).mp yes))

end TypeTest

namespace ClassHierarchy

variable {hierarchy : ClassHierarchy} {pool : TypePool} {sup sub : TypeRef}

/-- Bounds are followed up to a limit, so that a question that comes up at some depth has that many
levels less to go. Subtyping and subclassing end at every depth. What they affirm there they affirm
at any lesser depth, and with any greater limit: the limit makes a no of a yes, but never the
reverse. -/
theorem limit_only_loses (valid : pool.Valid) (held : hierarchy.HeldBy pool)
    (supHere : pool.Has sup) (subHere : pool.Has sub) {depth lesser limit greater : Nat}
    (nearer : lesser ≤ depth) (raised : limit ≤ greater) :
    TypeTest.Refines (hierarchy.isSupertypeWithin (limit - depth))
      (hierarchy.isSupertypeWithin (greater - lesser))
        pool sup sub ∧
      TypeTest.Refines (hierarchy.isSuperclassWithin (limit - depth))
        (hierarchy.isSuperclassWithin (greater - lesser))
        pool sup sub := by
  have levels : limit - depth ≤ greater - lesser := by omega
  constructor
  · exact (isSupertypeWithin_reads valid held _).refines (isSupertypeWithin_reads valid held _)
      valid supHere subHere (TreeHierarchy.Supertype.mono levels)
  · exact (isSuperclassWithin_reads valid held _).refines (isSuperclassWithin_reads valid held _)
      valid supHere subHere (TreeHierarchy.Superclass.mono levels)

/-- A variable is below `Node<int>` by the bounds of the other one, which is found with two levels
left and with all of them, but not with one; and so it is of its class. -/
theorem limit_only_loses_loop :
    (∃ answer after, (loopClasses.isSupertypeWithin (relationDepth - 64) ⟨10⟩ ⟨7⟩).run loopPool =
      .ok (answer, after) ∧
      answer = false) ∧
    (∃ answer after, (loopClasses.isSupertypeWithin (relationDepth - 63) ⟨10⟩ ⟨7⟩).run loopPool =
      .ok (answer, after) ∧
      answer = true ∧ ∃ other later,
        (loopClasses.isSupertypeWithin (relationDepth - 0) ⟨10⟩ ⟨7⟩).run after =
        .ok (other, later) ∧ other = true) ∧
    ∃ answer after, (loopClasses.isSuperclassWithin (relationDepth - 63) ⟨10⟩ ⟨7⟩).run loopPool =
      .ok (answer, after) ∧
      answer = true ∧ ∃ other later,
        (loopClasses.isSuperclassWithin (relationDepth - 0) ⟨10⟩ ⟨7⟩).run after =
        .ok (other, later) ∧ other = true := by
  have valid : loopPool.Valid := by decide
  have held : loopClasses.HeldBy loopPool := heldBy_ofHeaders (by decide)
  have refines := limit_only_loses valid held (by decide : loopPool.Has ⟨10⟩)
    (by decide : loopPool.Has ⟨7⟩) (Nat.zero_le 63) (Nat.le_refl relationDepth)
  obtain ⟨answer, after, ran, other, later, ranLater, above⟩ :=
    refines.1 loopPool loopPool valid.growth valid.growth
  obtain ⟨ofClass, last, ranClass, also, final, ranFinal, inherits⟩ :=
    refines.2 loopPool loopPool valid.growth valid.growth
  refine ⟨⟨false, _, rfl, rfl⟩, ⟨answer, after, ran, ?_⟩, ofClass, last, ranClass, ?_⟩
  · cases ran
    cases ranLater
    exact ⟨rfl, _, _, rfl, above (by decide) (by decide) rfl⟩
  · cases ranClass
    cases ranFinal
    exact ⟨rfl, _, _, rfl, inherits (by decide) (by decide) rfl⟩

end ClassHierarchy
end ClassLang
