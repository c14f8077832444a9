import ClassLang.Proofs.Type.Ancestry
import ClassLang.Proofs.Type.Questions

/-! Subtyping on trees, and that the test on pooled types answers it. -/

namespace ClassLang

/-- The action ends with the answer to a question. -/
abbrev PoolM.Tells (action : PoolM Bool) (pool : TypePool) (question : Prop) : Prop :=
  PoolM.Builds action pool fun answer after => after.Small → (answer = true ↔ question)

namespace PoolM.Tells
open TypePool

variable {pool : TypePool} {question other : Prop} {action next : PoolM Bool}

theorem yes (holds : pool.Small → question) : PoolM.Tells (Pure.pure true) pool question :=
  PoolM.Builds.pure fun small => ⟨fun _ => holds small, fun _ => rfl⟩

theorem no (fails : pool.Small → ¬ question) : PoolM.Tells (Pure.pure false) pool question :=
  PoolM.Builds.pure fun small => ⟨nofun, fun holds => absurd holds (fails small)⟩

theorem congr (tells : PoolM.Tells action pool question) (same : pool.Small → (question ↔ other)) :
    PoolM.Tells action pool other :=
  tells.mono fun _ _ growth holds small => (holds small).trans (same (growth.small small))

/-- A second question is asked where the answer to the first one is no. -/
theorem orElse (first : PoolM.Tells action pool question)
    (second : ∀ between, pool.Growth between → PoolM.Tells next between other) :
    PoolM.Tells (do if ← action then return true else next) pool (question ∨ other) := by
  refine PoolM.Builds.bind first fun answer between growth told => ?_
  cases answer with
  | true => exact yes fun small => .inl ((told small).mp rfl)
  | false =>
    refine (second between growth).congr fun small => ?_
    have fails : ¬ question := fun holds => Bool.false_ne_true ((told small).mpr holds)
    exact (or_iff_right fails).symm

/-- The second question is asked where the answer to the first one is yes. -/
theorem andThen (first : PoolM.Tells action pool question)
    (second : ∀ between, pool.Growth between → PoolM.Tells next between other) :
    PoolM.Tells (do if ← action then next else return false) pool (question ∧ other) := by
  refine PoolM.Builds.bind first fun answer between growth told => ?_
  cases answer with
  | true =>
    refine (second between growth).congr fun small => ?_
    exact (and_iff_right ((told small).mp rfl)).symm
  | false => exact no fun small both => Bool.false_ne_true ((told small).mpr both.1)

theorem anyM {test : α → PoolM Bool} {passes : α → Prop} : ∀ {elements : List α} {pool : TypePool},
    (∀ element ∈ elements, ∀ between, pool.Growth between →
      PoolM.Tells (test element) between (passes element)) →
    PoolM.Tells (elements.anyM test) pool (∃ element ∈ elements, passes element)
  | [], _, _ => no fun _ => by simp
  | first :: rest, pool, each => by
    refine PoolM.Builds.ofValid fun valid => ?_
    have later : ∀ between, pool.Growth between →
        PoolM.Tells (rest.anyM test) between (∃ element ∈ rest, passes element) :=
      fun between growth => anyM fun element member after grown =>
        each element (List.mem_cons_of_mem _ member) after (growth.trans grown)
    have first : PoolM.Tells ((first :: rest).anyM test) pool
        (passes first ∨ ∃ element ∈ rest, passes element) := by
      refine PoolM.Builds.bind (each first List.mem_cons_self pool valid.growth)
        fun answer between growth told => ?_
      cases answer with
      | true => exact yes fun small => .inl ((told small).mp rfl)
      | false =>
        refine (later between growth).congr fun small => (or_iff_right fun holds => ?_).symm
        exact Bool.false_ne_true ((told small).mpr holds)
    exact first.congr fun _ => by simp

end PoolM.Tells

/-! Subtyping on trees. -/

namespace TypeTree

/-- What relates to every type. -/
def Lenient : TypeTree → Prop
  | any | unresolved _ => True
  | _ => False

/-- Two types that are related before any structure is looked at. -/
def Akin (first second : TypeTree) : Prop :=
  first = second ∨ first.Lenient ∨ second.Lenient

/-- A type that all types in an argument are below. -/
def upper : TypeTree → TypeTree
  | wildcard .covariant bound => bound
  | wildcard _ _ => any
  | tree => tree

/-- A type that all types in an argument are above, if there is one. -/
def lower? : TypeTree → Option TypeTree
  | wildcard .contravariant bound => some bound
  | wildcard _ _ => none
  | tree => some tree

end TypeTree

/-- A relation on trees. -/
abbrev TreeTest := TypeTree → TypeTree → Prop

namespace TreeHierarchy

/-- The first tree is a wildcard that contains the second. -/
def WildcardContains (deeper : TreeTest) : TreeTest
  | .wildcard .invariant _, _ => True
  | .wildcard .covariant bound, sub => bound = .any ∨ sub.upper ≠ .any ∧ deeper bound sub.upper
  | .wildcard .contravariant bound, sub => ∃ lower ∈ sub.lower?, deeper lower bound
  | _, _ => False

theorem WildcardContains.isWildcard {deeper : TreeTest} {sup sub : TypeTree}
    (contains : WildcardContains deeper sup sub) : sup.IsWildcard := by
  cases sup with
  | wildcard => trivial
  | _ => exact contains

/-- Two arguments that are no wildcards are compared in the direction of the variance. -/
def PlainContains (deeper : TreeTest) : Variance → TreeTest
  | .covariant, sup, sub => deeper sup sub
  | .contravariant, sup, sub => deeper sub sup
  | .invariant, _, _ => False

/-- A type argument admits another one, for a parameter declared with `declared`. -/
def ArgumentContains (deeper : TreeTest) (declared : Variance) (sup sub : TypeTree) : Prop :=
  sup.Akin sub ∨ WildcardContains deeper sup sub ∨
    ¬ sup.IsWildcard ∧ ¬ sub.IsWildcard ∧ PlainContains deeper declared sup sub

variable (hierarchy : TreeHierarchy) (bounds : ParamRef → List TypeTree)

/-- The variance of a parameter of a class; one that is not there is invariant. -/
def declared (base : Name) (position : Nat) : Variance :=
  (((hierarchy.params base)[position]?).map Prod.snd).getD .invariant

/-- Arguments admit others pairwise, as far as both lists go. -/
def ArgumentsContain (deeper : TreeTest) (base : Name) (sups subs : List TypeTree) : Prop :=
  ∀ position sup sub, sups[position]? = some sup → subs[position]? = some sub →
    ArgumentContains deeper (hierarchy.declared base position) sup sub

/-- Subtyping between a class type and a type that is neither variable nor wildcard. -/
def ClassSupertype (deeper : TreeTest) : TreeTest
  | .class_ base, sub => (hierarchy.ancestorAt? sub base).isSome
  | .applied base args, sub => ∃ ancestor, hierarchy.ancestorAt? sub base = some ancestor ∧
      hierarchy.ArgumentsContain deeper base args ancestor.args
  | _, _ => False

/-- Subtyping below a type that is neither variable nor wildcard. -/
def PlainSupertype (deeper : TreeTest) (sup : TypeTree) : TypeTree → Prop
  | .var param _ => ∃ bound ∈ bounds param, deeper sup bound
  | .wildcard .covariant bound => deeper sup bound
  | .wildcard _ _ => False
  | sub => hierarchy.ClassSupertype deeper sup sub

/-- Subtyping of types that are not akin. -/
def StructuralSupertype (deeper : TreeTest) : TreeTest
  | .var param .covariant, sub => deeper ((bounds param).headD .any) sub
  | .var param .contravariant, sub => deeper sub ((bounds param).headD .any)
  | .var _ .invariant, _ => False
  | .wildcard variance bound, sub => WildcardContains deeper (.wildcard variance bound) sub
  | sup, sub => hierarchy.PlainSupertype bounds deeper sup sub

/-- Subtyping with bounds followed at most `depth` times. -/
def Supertype : Nat → TreeTest
  | 0, sup, sub => sup.Akin sub
  | depth + 1, sup, sub => sup.Akin sub ∨
      hierarchy.StructuralSupertype bounds (Supertype depth) sup sub

section
variable {hierarchy bounds} {depth : Nat} {sup sub : TypeTree}

theorem supertype_of_akin (akin : sup.Akin sub) : hierarchy.Supertype bounds depth sup sub := by
  cases depth with
  | zero => exact akin
  | succ depth => exact .inl akin

theorem supertype_self : hierarchy.Supertype bounds depth sub sub := supertype_of_akin (.inl rfl)

end

section
variable {hierarchy bounds} {deeper wider : TreeTest}
    (widens : ∀ sup sub, deeper sup sub → wider sup sub)
include widens

theorem WildcardContains.mono {sup sub : TypeTree} (contains : WildcardContains deeper sup sub) :
    WildcardContains wider sup sub := by
  cases sup with
  | wildcard variance bound =>
    cases variance with
    | invariant => trivial
    | covariant => exact contains.imp_right fun inside => ⟨inside.1, widens _ _ inside.2⟩
    | contravariant =>
      obtain ⟨lower, member, below⟩ := contains
      exact ⟨lower, member, widens _ _ below⟩
  | _ => exact contains

theorem ArgumentContains.mono {declared : Variance} {sup sub : TypeTree}
    (contains : ArgumentContains deeper declared sup sub) :
    ArgumentContains wider declared sup sub := by
  rcases contains with akin | wildcard | ⟨supPlain, subPlain, below⟩
  · exact .inl akin
  · exact .inr (.inl (wildcard.mono widens))
  · refine .inr (.inr ⟨supPlain, subPlain, ?_⟩)
    cases declared with
    | covariant | contravariant => exact widens _ _ below
    | invariant => exact below

theorem ClassSupertype.mono {sup sub : TypeTree} (above : hierarchy.ClassSupertype deeper sup sub) :
    hierarchy.ClassSupertype wider sup sub := by
  cases sup with
  | applied base args =>
    obtain ⟨ancestor, found, contain⟩ := above
    exact ⟨ancestor, found, fun position arg other given actual =>
      (contain position arg other given actual).mono widens⟩
  | _ => exact above

theorem PlainSupertype.mono {sup sub : TypeTree}
    (above : hierarchy.PlainSupertype bounds deeper sup sub) :
    hierarchy.PlainSupertype bounds wider sup sub := by
  cases sub with
  | var param variance =>
    obtain ⟨bound, member, below⟩ := above
    exact ⟨bound, member, widens _ _ below⟩
  | wildcard variance bound =>
    cases variance with
    | covariant => exact widens _ _ above
    | invariant | contravariant => exact above
  | _ => exact ClassSupertype.mono widens above

theorem StructuralSupertype.mono {sup sub : TypeTree}
    (above : hierarchy.StructuralSupertype bounds deeper sup sub) :
    hierarchy.StructuralSupertype bounds wider sup sub := by
  cases sup with
  | var param variance =>
    cases variance with
    | covariant | contravariant => exact widens _ _ above
    | invariant => exact above
  | wildcard variance bound => exact WildcardContains.mono widens above
  | _ => exact PlainSupertype.mono widens above

end

/-- What is found within a depth is found within a greater one. -/
theorem Supertype.succ {hierarchy : TreeHierarchy} {bounds : ParamRef → List TypeTree} :
    ∀ {depth : Nat} {sup sub : TypeTree}, hierarchy.Supertype bounds depth sup sub →
    hierarchy.Supertype bounds (depth + 1) sup sub
  | 0, _, _, akin => .inl akin
  | _ + 1, _, _, above => above.imp_right (StructuralSupertype.mono fun _ _ => succ)

theorem Supertype.mono {hierarchy : TreeHierarchy} {bounds : ParamRef → List TypeTree}
    {depth more : Nat} (less : depth ≤ more) {sup sub : TypeTree}
    (above : hierarchy.Supertype bounds depth sup sub) :
    hierarchy.Supertype bounds more sup sub := by
  induction less with
  | refl => exact above
  | step _ ih => exact ih.succ

end TreeHierarchy

namespace TypePool

/-- The bounds of the parameters, as trees. -/
def boundTrees (pool : TypePool) (param : ParamRef) : List TypeTree :=
  ((pool.params[param.raw]?).map fun declared => declared.bounds.map pool.tree).getD []

variable {before after pool : TypePool} {type : TypeRef}

theorem Growth.boundTrees_eq (growth : before.Growth after) (valid : before.Valid) :
    after.boundTrees = before.boundTrees := by
  funext param
  unfold boundTrees
  rw [growth.grown.params]
  cases found : before.params[param.raw]? with
  | none => rfl
  | some declared =>
    exact congrArg (some · |>.getD []) (growth.map_tree_eq valid (valid.bounds _ declared found))

theorem boundTrees_of_param {param : ParamRef} {declared : TypeParam}
    (found : pool.params[param.raw]? = some declared) :
    pool.boundTrees param = declared.bounds.map pool.tree := by
  simp [boundTrees, found]

/-- The first bound of a declared parameter. -/
theorem Valid.upperBound_of_param (valid : pool.Valid) {param : ParamRef} {declared : TypeParam}
    (found : pool.params[param.raw]? = some declared) :
    pool.upperBound param = .ok (declared.bounds.headD .any) ∧
      pool.tree (declared.bounds.headD .any) = (pool.boundTrees param).headD .any := by
  refine ⟨by simp [upperBound, param_eq found, Except.map], ?_⟩
  rw [boundTrees_of_param found]
  cases declared.bounds with
  | nil => exact valid.tree_any
  | cons => rfl

theorem Valid.eq_any_iff (valid : pool.Valid) (inside : pool.Has type) :
    type = .any ↔ pool.tree type = .any := by
  refine ⟨fun same => same ▸ valid.tree_any, fun same => ?_⟩
  exact valid.tree_injective _ _ inside valid.has_any (same.trans valid.tree_any.symm)

theorem Valid.isLenient_iff (valid : pool.Valid) (inside : pool.Has type) :
    ∃ lenient, pool.isLenient type = .ok lenient ∧ (lenient = true ↔ (pool.tree type).Lenient) := by
  obtain ⟨node, found⟩ := inside.lookup
  unfold TypePool.isLenient TypePool.isUnresolved
  rw [node_eq found]
  split
  · rename_i same
    rw [same, valid.tree_any]
    exact ⟨true, rfl, by simp [TypeTree.Lenient]⟩
  · rename_i differs
    rw [valid.tree_eq found]
    cases node with
    | any =>
      exact absurd ((valid.eq_any_iff inside).mpr (valid.tree_eq found)) differs
    | _ => exact ⟨_, rfl, by simp [TypeNode.toTree, TypeTree.Lenient]⟩

end TypePool

/-- In every pool grown from `base` the test answers what holds of the trees. -/
def TypeTest.Reads (test : TypeTest) (base : TypePool) (relation : TreeTest) : Prop :=
  ∀ pool, base.Growth pool → ∀ first second, pool.Has first → pool.Has second →
    PoolM.Tells (test first second) pool (relation (pool.tree first) (pool.tree second))

/-- A type compared to the bounds of a variable. -/
theorem TypeTest.Reads.anyBound {test : TypeTest} {base pool : TypePool} {relation : TreeTest}
    (reads : test.Reads base relation) (growth : base.Growth pool) {sup : TypeRef}
    (supHere : pool.Has sup) {param : ParamRef} {declared : TypeParam}
    (found : pool.params[param.raw]? = some declared) :
    PoolM.Tells (declared.bounds.anyM (test sup ·)) pool
      (∃ bound ∈ pool.boundTrees param, relation (pool.tree sup) bound) := by
  refine PoolM.Builds.ofValid fun valid => ?_
  have boundsHere := valid.bounds _ declared found
  have each : ∀ bound ∈ declared.bounds, ∀ between, pool.Growth between →
      PoolM.Tells (test sup bound) between (relation (pool.tree sup) (pool.tree bound)) := by
    intro bound member between grown
    rw [← grown.tree_eq valid supHere, ← grown.tree_eq valid (boundsHere bound member)]
    exact reads between (growth.trans grown) _ _ (grown.has supHere)
      (grown.has (boundsHere bound member))
  refine (PoolM.Tells.anyM each).congr fun _ => ?_
  simp [TypePool.boundTrees_of_param found]

namespace ClassHierarchy
open TypePool PoolM.Builds

variable {hierarchy : ClassHierarchy} {base pool : TypePool} {deeper : TypeTest}
    {relation : TreeTest}
  {first second sup sub : TypeRef}

theorem triviallyRelated_tells (firstHere : pool.Has first) (secondHere : pool.Has second) :
    PoolM.Tells (triviallyRelated first second) pool
      ((pool.tree first).Akin (pool.tree second)) := by
  refine ofValid fun valid => ?_
  unfold triviallyRelated
  split
  · rename_i same
    exact PoolM.Tells.yes fun _ => .inl (congrArg pool.tree same)
  · rename_i differ
    have differ : pool.tree first ≠ pool.tree second :=
      fun same => differ (valid.tree_injective _ _ firstHere secondHere same)
    obtain ⟨lenient, ran, decides⟩ := valid.isLenient_iff firstHere
    refine inspect ran ?_
    cases lenient with
    | true => exact PoolM.Tells.yes fun _ => .inr (.inl (decides.mp rfl))
    | false =>
      obtain ⟨lenientSecond, knownSecond, isSecond⟩ := valid.isLenient_iff secondHere
      refine answer knownSecond fun _ => isSecond.trans ⟨fun holds => .inr (.inr holds), ?_⟩
      rintro (same | holds | holds)
      · exact absurd same differ
      · exact absurd (decides.mpr holds) Bool.false_ne_true
      · exact holds

theorem wildcardContains_tells (growth : base.Growth pool) (below : deeper.Reads base relation)
    (supHere : pool.Has sup) (subHere : pool.Has sub) :
    PoolM.Tells (wildcardContains deeper sup sub) pool
      (TreeHierarchy.WildcardContains relation (pool.tree sup) (pool.tree sub)) := by
  refine ofValid fun valid => readNode supHere fun node found => ?_
  rw [valid.tree_eq found]
  cases node with
  | wildcard variance bound =>
    have boundHere := valid.has_bound found
    refine readNode subHere fun inner seen => ?_
    have subTree := valid.tree_eq seen
    cases variance with
    | invariant => exact PoolM.Tells.yes fun _ => trivial
    | covariant =>
      have inBound (upper : TypeRef) (upperHere : pool.Has upper)
          (reads : (pool.tree sub).upper = pool.tree upper) :
          PoolM.Tells (if bound = .any then Pure.pure true else
            if upper = .any then Pure.pure false else deeper bound upper) pool
          (TreeHierarchy.WildcardContains relation (.wildcard .covariant (pool.tree bound))
            (pool.tree sub)) := by
        simp only [TreeHierarchy.WildcardContains, reads, ne_eq, ← valid.eq_any_iff boundHere,
          ← valid.eq_any_iff upperHere]
        split
        · exact PoolM.Tells.yes fun _ => .inl ‹_›
        · split
          · exact PoolM.Tells.no fun _ holds => holds.elim ‹_› fun both => both.1 ‹_›
          · refine (below pool growth _ _ boundHere upperHere).congr fun _ => ?_
            simp [*]
      refine inBound _ ?_ ?_
      · split
        · exact valid.has_bound seen
        · exact valid.has_any
        · exact subHere
      · cases inner with
        | wildcard variance bound =>
          rw [subTree]
          cases variance with
          | covariant => rfl
          | invariant | contravariant => exact valid.tree_any.symm
        | _ =>
          dsimp only
          rw [subTree]
          rfl
    | contravariant =>
      have asked (lower : TypeRef) (lowerHere : pool.Has lower)
          (reads : (pool.tree sub).lower? = some (pool.tree lower)) :
          PoolM.Tells (deeper lower bound) pool
            (TreeHierarchy.WildcardContains relation (.wildcard .contravariant (pool.tree bound))
              (pool.tree sub)) := by
        refine (below pool growth _ _ lowerHere boundHere).congr fun _ => ?_
        simp [TreeHierarchy.WildcardContains, reads]
      dsimp only
      split
      · exact asked _ (valid.has_bound seen) (by rw [subTree]; rfl)
      · rename_i variance bound differs
        refine PoolM.Tells.no fun _ holds => ?_
        obtain ⟨lower, same, _⟩ := holds
        rw [subTree] at same
        cases variance with
        | contravariant => exact differs rfl
        | invariant | covariant => cases same
      · rename_i differs plain
        refine asked _ subHere ?_
        rw [subTree]
        cases inner with
        | wildcard variance bound => exact absurd rfl (plain _ _)
        | _ => rfl
  | _ => exact PoolM.Tells.no fun _ holds => holds

theorem argumentContains_tells (growth : base.Growth pool) (below : deeper.Reads base relation)
    (declared : Variance) (supHere : pool.Has sup) (subHere : pool.Has sub) :
    PoolM.Tells (argumentContains deeper declared sup sub) pool
      (TreeHierarchy.ArgumentContains relation declared (pool.tree sup) (pool.tree sub)) := by
  refine ofValid fun valid => ?_
  refine PoolM.Tells.orElse (triviallyRelated_tells supHere subHere) fun between grown => ?_
  have supThere := grown.has supHere
  have subThere := grown.has subHere
  rw [← grown.tree_eq valid supHere, ← grown.tree_eq valid subHere]
  refine readNode supThere fun node found => ?_
  have supTree := grown.valid.tree_eq found
  split
  · refine (wildcardContains_tells (growth.trans grown) below supThere subThere).congr fun _ => ?_
    exact (or_iff_left fun both => both.1 (supTree ▸ trivial)).symm
  · rename_i other
    have noWildcard : ¬ (between.tree sup).IsWildcard := by
      rw [supTree]
      cases node with
      | wildcard variance bound => exact absurd rfl (other _ _)
      | _ => exact id
    refine PoolM.Tells.congr (show PoolM.Tells _ between
      (¬ (between.tree sup).IsWildcard ∧ ¬ (between.tree sub).IsWildcard ∧
        TreeHierarchy.PlainContains relation declared (between.tree sup)
          (between.tree sub)) from ?_)
      fun _ => (or_iff_right fun contains => noWildcard contains.isWildcard).symm
    refine readNode subThere fun inner seen => ?_
    have subTree := grown.valid.tree_eq seen
    split
    · exact PoolM.Tells.no fun _ holds => holds.2.1 (subTree ▸ trivial)
    · rename_i other
      have plainSub : ¬ (between.tree sub).IsWildcard := by
        rw [subTree]
        cases inner with
        | wildcard variance bound => exact absurd rfl (other _ _)
        | _ => exact id
      simp only [noWildcard, plainSub, not_false_eq_true, true_and]
      cases declared with
      | covariant => exact below between (growth.trans grown) _ _ supThere subThere
      | contravariant => exact below between (growth.trans grown) _ _ subThere supThere
      | invariant => exact PoolM.Tells.no fun _ holds => holds

theorem declaredVariance_builds (held : hierarchy.HeldBy pool) (name : Name) (position : Nat) :
    PoolM.Builds (declaredVariance (hierarchy.typeParams name) position) pool fun declared _ =>
      declared = (hierarchy.unfold pool).declared name position := by
  unfold declaredVariance TreeHierarchy.declared ClassHierarchy.unfold
  rw [List.getElem?_map]
  split
  · rename_i param found
    obtain ⟨declared, stored⟩ := (held.params name param (List.mem_of_getElem? found)).lookup
    exact inspect (param_eq stored) (pure (by simp [found, stored]))
  · rename_i missing
    exact pure (by simp [missing])

theorem argumentsContain_tells (below : deeper.Reads base relation) (name : Name) :
    ∀ (position : Nat) (sups subs : List TypeRef) (pool : TypePool), base.Growth pool →
      hierarchy.HeldBy pool → (∀ sup ∈ sups, pool.Has sup) → (∀ sub ∈ subs, pool.Has sub) →
      PoolM.Tells (argumentsContain deeper (hierarchy.typeParams name) position sups subs) pool
        (∀ offset sup sub, (sups.map pool.tree)[offset]? = some sup →
          (subs.map pool.tree)[offset]? = some sub → TreeHierarchy.ArgumentContains relation
            ((hierarchy.unfold pool).declared name (position + offset)) sup sub)
  | _, [], _, _, _, _, _, _ => PoolM.Tells.yes fun _ => by simp
  | _, _ :: _, [], _, _, _, _, _ => PoolM.Tells.yes fun _ => by simp
  | position, sup :: sups, sub :: subs, pool, growth, held, supsHere, subsHere => by
    refine ofValid fun valid => ?_
    refine bind (declaredVariance_builds held name position) ?_
    rintro _ between grown rfl
    have first := argumentContains_tells (growth.trans grown) below
      ((hierarchy.unfold pool).declared name position) (grown.has (supsHere sup List.mem_cons_self))
      (grown.has (subsHere sub List.mem_cons_self))
    have later (after : TypePool) (more : between.Growth after) :
        PoolM.Tells (argumentsContain deeper (hierarchy.typeParams name) (position + 1) sups subs)
          after (∀ offset sup sub, (sups.map pool.tree)[offset]? = some sup →
            (subs.map pool.tree)[offset]? = some sub → TreeHierarchy.ArgumentContains relation
              ((hierarchy.unfold pool).declared name (position + 1 + offset)) sup sub) := by
      have whole := grown.trans more
      have supsLater : ∀ sup ∈ sups, pool.Has sup := fun other member =>
        supsHere other (List.mem_cons_of_mem _ member)
      have subsLater : ∀ sub ∈ subs, pool.Has sub := fun other member =>
        subsHere other (List.mem_cons_of_mem _ member)
      rw [← whole.map_tree_eq valid supsLater, ← whole.map_tree_eq valid subsLater,
        ← held.unfold_eq valid whole]
      exact argumentsContain_tells below name (position + 1) sups subs after (growth.trans whole)
        (held.grow whole) (fun other member => whole.has (supsLater other member))
        fun other member => whole.has (subsLater other member)
    refine (PoolM.Tells.andThen first later).congr fun _ => ?_
    rw [grown.tree_eq valid (supsHere sup List.mem_cons_self),
      grown.tree_eq valid (subsHere sub List.mem_cons_self)]
    constructor
    · rintro ⟨head, tail⟩ offset supTree subTree supFound subFound
      cases offset with
      | zero =>
        cases supFound
        cases subFound
        exact head
      | succ offset =>
        rw [Nat.add_comm offset, ← Nat.add_assoc]
        exact tail offset supTree subTree supFound subFound
    · intro all
      refine ⟨all 0 _ _ rfl rfl, fun offset supTree subTree supFound subFound => ?_⟩
      rw [Nat.add_assoc, Nat.add_comm 1]
      exact all (offset + 1) supTree subTree supFound subFound

theorem classSupertype_tells (growth : base.Growth pool) (held : hierarchy.HeldBy base)
    (below : deeper.Reads base relation) {node : TypeNode}
    (supHere : ∀ part ∈ node.parts, pool.Has part) (subHere : pool.Has sub) :
    PoolM.Tells (hierarchy.classSupertype deeper node sub) pool
      ((hierarchy.unfold pool).ClassSupertype relation (node.toTree pool.tree)
        (pool.tree sub)) := by
  have heldHere := held.grow growth
  refine ofValid fun valid => ?_
  unfold classSupertype
  split
  · refine bind (PoolM.Builds.ancestorAt? _ subHere heldHere) fun found between grown facts =>
      pure fun small => ?_
    simp only [TypeNode.toTree, TreeHierarchy.ClassSupertype, ← facts.2 small, Option.isSome_map]
  · rename_i name args
    refine bind (PoolM.Builds.ancestorAt? name subHere heldHere) fun found between grown facts => ?_
    cases found with
    | none =>
      refine PoolM.Tells.no fun small holds => ?_
      obtain ⟨ancestor, found, _⟩ := holds
      rw [← facts.2 small] at found
      cases found
    | some ancestor =>
      obtain ⟨actuals, read, actualsHere, actualTrees⟩ := grown.valid.args_eq (facts.1 ancestor rfl)
      have asked (small : between.Small) : (hierarchy.unfold pool).ClassSupertype relation
          (TypeNode.toTree pool.tree (.applied name args)) (pool.tree sub) ↔
          (hierarchy.unfold pool).ArgumentsContain relation name (args.map pool.tree)
            (between.tree ancestor).args := by
        simp only [TypeNode.toTree, TreeHierarchy.ClassSupertype, ← facts.2 small, Option.map_some,
          Option.some.injEq, exists_eq_left']
      refine inspect read ?_
      split
      · rename_i none
        refine PoolM.Tells.yes fun small => (asked small).mpr ?_
        rw [← actualTrees, List.isEmpty_iff.mp none]
        intro position sup sub _ found
        simp at found
      · have argsHere : ∀ arg ∈ args, pool.Has arg := supHere
        have argTrees : args.map between.tree = args.map pool.tree :=
          grown.map_tree_eq valid argsHere
        have contain := argumentsContain_tells below name 0 args actuals between
          (growth.trans grown) (heldHere.grow grown)
          (fun arg member => grown.has (argsHere arg member)) actualsHere
        refine contain.congr fun small => ?_
        rw [asked small, actualTrees, heldHere.unfold_eq valid grown, argTrees]
        simp only [TreeHierarchy.ArgumentsContain, Nat.zero_add]
  · rename_i noClass noApplied
    refine PoolM.Tells.no fun _ holds => ?_
    cases node with
    | class_ name => exact noClass name rfl
    | applied name args => exact noApplied name args rfl
    | _ => exact holds

theorem structuralSupertype_tells (growth : base.Growth pool) (held : hierarchy.HeldBy base)
    (below : deeper.Reads base relation) (supHere : pool.Has sup) (subHere : pool.Has sub) :
    PoolM.Tells (hierarchy.structuralSupertype deeper sup sub) pool
      ((hierarchy.unfold pool).StructuralSupertype pool.boundTrees relation (pool.tree sup)
        (pool.tree sub)) := by
  refine ofValid fun valid => readNode supHere fun node found => ?_
  have supTree := valid.tree_eq found
  split
  · rename_i param variance
    obtain ⟨declared, stored⟩ := (valid.named _ _ _ found).lookup
    obtain ⟨asked, upperTree⟩ := valid.upperBound_of_param stored
    have upperHere := valid.has_upperBound asked
    refine inspect asked ?_
    rw [supTree]
    cases variance with
    | covariant =>
      simp only [TypeNode.toTree, TreeHierarchy.StructuralSupertype, ← upperTree]
      exact below pool growth _ _ upperHere subHere
    | contravariant =>
      simp only [TypeNode.toTree, TreeHierarchy.StructuralSupertype, ← upperTree]
      exact below pool growth _ _ subHere upperHere
    | invariant => exact PoolM.Tells.no fun _ holds => holds
  · have contains := wildcardContains_tells growth below supHere subHere
    rw [supTree] at contains ⊢
    exact contains
  · rename_i noVar noWildcard
    have plain : (hierarchy.unfold pool).StructuralSupertype pool.boundTrees relation
        (pool.tree sup) (pool.tree sub) = (hierarchy.unfold pool).PlainSupertype pool.boundTrees
        relation (pool.tree sup) (pool.tree sub) := by
      rw [supTree]
      cases node with
      | var param variance => exact (noVar param variance rfl).elim
      | wildcard variance bound => exact (noWildcard variance bound rfl).elim
      | _ => rfl
    rw [plain]
    refine readNode subHere fun inner seen => ?_
    have subTree := valid.tree_eq seen
    split
    · rename_i param variance
      obtain ⟨declared, stored⟩ := (valid.named _ _ _ seen).lookup
      refine inspect (param_eq stored) ?_
      rw [subTree]
      exact below.anyBound growth supHere stored
    · rw [subTree]
      exact below pool growth _ _ supHere (valid.has_bound seen)
    · rename_i variance bound directed
      rw [subTree]
      cases variance with
      | covariant => exact absurd rfl directed
      | invariant | contravariant => exact PoolM.Tells.no fun _ holds => holds
    · rename_i noVarSub noCovariant noWildcardSub
      have classes := classSupertype_tells growth held below
        (fun part member => valid.has_part found member) subHere
      rw [← supTree] at classes
      refine classes.congr fun _ => ?_
      rw [subTree]
      cases inner with
      | var param variance => exact (noVarSub param variance rfl).elim
      | wildcard variance bound => exact (noWildcardSub variance bound rfl).elim
      | _ => rfl

/-- Bounds are followed a limited number of times, so that even variables bounded by themselves
are compared. -/
theorem isSupertypeWithin_reads (valid : base.Valid) (held : hierarchy.HeldBy base) :
    ∀ depth, (hierarchy.isSupertypeWithin depth).Reads base
      ((hierarchy.unfold base).Supertype base.boundTrees depth)
  | 0, _, _, _, _, firstHere, secondHere => triviallyRelated_tells firstHere secondHere
  | depth + 1, pool, growth, first, second, firstHere, secondHere => by
    refine PoolM.Tells.orElse (triviallyRelated_tells firstHere secondHere) fun between grown => ?_
    have whole := growth.trans grown
    rw [← grown.tree_eq growth.valid firstHere, ← grown.tree_eq growth.valid secondHere,
      ← held.unfold_eq valid whole, ← whole.boundTrees_eq valid]
    refine structuralSupertype_tells whole held ?_ (grown.has firstHere) (grown.has secondHere)
    rw [held.unfold_eq valid whole, whole.boundTrees_eq valid]
    exact isSupertypeWithin_reads valid held depth

/-- Subtyping has an answer, which is that of the trees. -/
theorem isSupertype_tells (valid : pool.Valid) (held : hierarchy.HeldBy pool)
    (supHere : pool.Has sup) (subHere : pool.Has sub) :
    PoolM.Tells (hierarchy.isSupertype sup sub) pool
      ((hierarchy.unfold pool).Supertype pool.boundTrees relationDepth (pool.tree sup)
        (pool.tree sub)) :=
  isSupertypeWithin_reads valid held relationDepth pool valid.growth sup sub supHere subHere

end ClassHierarchy
end ClassLang
