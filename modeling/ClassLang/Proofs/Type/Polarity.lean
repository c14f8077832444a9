import ClassLang.Proofs.Type.Composition
import ClassLang.Proofs.Type.Description
import ClassLang.Proofs.Type.Requests
import ClassLang.Proofs.Type.Supertype

/-! What the variance of a parameter is declared for: a type in which the parameter stands where its
variance allows it is above or below itself as the parameter is. The polarity that the check follows
through the type is the direction in which subtyping compares what stands there. -/

namespace ClassLang

namespace Variance

@[simp] theorem flip_flip (variance : Variance) : variance.flip.flip = variance := by
  cases variance <;> rfl

@[simp] theorem compose_invariant (variance : Variance) :
    invariant.compose variance = invariant := by
  cases variance <;> rfl

theorem compose_assoc (first second third : Variance) :
    first.compose (second.compose third) = second.compose (first.compose third) := by
  cases first <;> cases second <;> cases third <;> rfl

/-- Two directions are opposite or the same. -/
theorem compose_self {variance : Variance} (directed : variance ≠ invariant) :
    variance.compose variance = covariant := by
  cases variance <;> first | rfl | exact absurd rfl directed

theorem compose_of_ne {variance other : Variance} (directed : variance ≠ invariant)
    (otherDirected : other ≠ invariant) (differ : variance ≠ other) :
    variance.compose other = contravariant := by
  cases variance <;> cases other <;> simp_all [compose, flip]

end Variance

theorem TypePosition.directed (position : TypePosition) : position.variance ≠ .invariant := by
  cases position <;> decide

/-- A relation read in a direction; without one only the same is related. -/
def TreeTest.Along (relation : TreeTest) : Variance → TreeTest
  | .covariant, sup, sub => relation sup sub
  | .contravariant, sup, sub => relation sub sup
  | .invariant, sup, sub => sup = sub

theorem TreeTest.Along.mono {narrow wide : TreeTest} {direction : Variance} {sup sub : TypeTree}
    (along : narrow.Along direction sup sub) (widens : ∀ sup sub, narrow sup sub → wide sup sub) :
    wide.Along direction sup sub := by
  cases direction with
  | invariant => exact along
  | covariant | contravariant => exact widens _ _ along

theorem TreeTest.along_flip {relation : TreeTest} {variance : Variance} {sup sub : TypeTree} :
    relation.Along (variance.compose .contravariant) sup sub ↔ relation.Along variance sub sup := by
  cases variance with
  | invariant => exact eq_comm
  | _ => exact Iff.rfl

namespace TypeTree

/-- The bound of a wildcard; any other type itself. -/
def core : TypeTree → TypeTree
  | wildcard _ bound => bound
  | tree => tree

/-- Class types are nested in the type at most so often, and wildcards are arguments only, with
bounds that are no wildcards. -/
def NestedWithin : Nat → TypeTree → Prop
  | _, wildcard _ _ => False
  | 0, applied _ _ => False
  | depth + 1, applied _ args => ∀ arg ∈ args, NestedWithin depth arg.core
  | _, _ => True

/-- Polarity of an argument. A wildcard replaces the declared variance by its own. -/
def polarity (declared outer : Variance) : TypeTree → Variance
  | wildcard variance _ => variance.compose outer
  | _ => declared.compose outer

end TypeTree

namespace TreeHierarchy
open TypeTree

/-- The parameter stands in the type where its variance does not allow it, when the type has the
polarity. -/
inductive Conflicts (hierarchy : TreeHierarchy) (param : ParamRef) (varied : Variance) :
    Variance → TypeTree → Prop where
  | var {polarity variance : Variance} (differs : varied ≠ polarity) :
    Conflicts hierarchy param varied polarity (.var param variance)
  | arg {polarity : Variance} {base : Name} {args : List TypeTree} {position : Nat} {arg : TypeTree}
    (given : args[position]? = some arg)
    (inside : Conflicts hierarchy param varied
      (arg.polarity (hierarchy.declared base position) polarity) arg) :
    Conflicts hierarchy param varied polarity (.applied base args)
  | bound {polarity variance : Variance} {bound : TypeTree} (directed : variance ≠ .invariant)
    (inside : Conflicts hierarchy param varied polarity bound) :
    Conflicts hierarchy param varied polarity (.wildcard variance bound)

variable {hierarchy : TreeHierarchy} {bounds : ParamRef → List TypeTree} {deeper : TreeTest}
    {depth : Nat}
  {declared direction varied : Variance} {sup sub : TypeTree}

/-- Arguments that are no wildcards are compared in the direction of the declared variance. -/
theorem contains_plain (supPlain : ¬ sup.IsWildcard) (subPlain : ¬ sub.IsWildcard)
    (related : deeper.Along declared sup sub) : ArgumentContains deeper declared sup sub := by
  cases declared with
  | invariant => exact .inl (.inl related)
  | covariant | contravariant => exact .inr (.inr ⟨supPlain, subPlain, related⟩)

/-- Wildcards are compared in their own direction, whatever is declared. -/
theorem contains_wildcard {variance : Variance} (related : deeper.Along variance sup sub)
    (all : sub = .any → sup = .any) :
    ArgumentContains deeper declared (.wildcard variance sup) (.wildcard variance sub) := by
  cases variance with
  | invariant => exact .inr (.inl trivial)
  | covariant =>
    refine .inr (.inl ?_)
    by_cases top : sub = .any
    · exact .inl (all top)
    · exact .inr ⟨top, related⟩
  | contravariant => exact .inr (.inl ⟨sub, rfl, related⟩)

theorem along_plain (supPlain : ¬ sup.IsWildcard) (subPlain : ¬ sub.IsWildcard)
    (related : deeper.Along (declared.compose direction) sup sub) :
    TreeTest.Along (ArgumentContains deeper declared) direction sup sub := by
  cases direction with
  | invariant => cases declared <;> exact related
  | covariant =>
    refine contains_plain supPlain subPlain ?_
    cases declared <;> exact related
  | contravariant => exact contains_plain subPlain supPlain (TreeTest.along_flip.mp related)

theorem along_wildcard {variance : Variance}
    (related : deeper.Along (variance.compose direction) sup sub)
    (all : sup = .any ↔ sub = .any) :
    TreeTest.Along (ArgumentContains deeper declared) direction (.wildcard variance sup)
      (.wildcard variance sub) := by
  cases direction with
  | invariant =>
    have same : sup = sub := by cases variance <;> exact related
    exact congrArg _ same
  | covariant =>
    refine contains_wildcard ?_ all.mpr
    cases variance <;> exact related
  | contravariant => exact contains_wildcard (TreeTest.along_flip.mp related) all.mp

/-- Applied types are related as their arguments are. -/
theorem along_applied {base : Name} {sups subs : List TypeTree} (full : sups.length = subs.length)
    (each : ∀ position sup sub, sups[position]? = some sup → subs[position]? = some sub →
      TreeTest.Along (ArgumentContains (hierarchy.Supertype bounds depth)
        (hierarchy.declared base position)) direction sup sub) :
    TreeTest.Along (hierarchy.Supertype bounds (depth + 1)) direction (.applied base sups)
      (.applied base subs) := by
  have above {sups subs : List TypeTree}
      (contain : hierarchy.ArgumentsContain (hierarchy.Supertype bounds depth) base sups subs) :
      hierarchy.Supertype bounds (depth + 1) (.applied base sups) (.applied base subs) :=
    .inr ⟨_, ancestorAt?_self rfl, contain⟩
  cases direction with
  | covariant => exact above each
  | contravariant =>
    exact above fun position sup sub given other => each position sub sup other given
  | invariant =>
    refine congrArg _ (List.ext_getElem full fun position inside inside' => ?_)
    exact each position _ _ (List.getElem?_eq_getElem inside) (List.getElem?_eq_getElem inside')

end TreeHierarchy

namespace TreeSubstitution

/-- One parameter is replaced by a class. -/
def toClass (param : ParamRef) (name : Name) : TreeSubstitution :=
  fun other => if other = param then some (.class_ name) else none

end TreeSubstitution

namespace TypeTree
open TreeSubstitution

variable {param : ParamRef} {name : Name} {depth : Nat} {tree : TypeTree}

theorem isWildcard_instantiate_toClass (plain : ¬ tree.IsWildcard) :
    ¬ (tree.instantiate (toClass param name)).IsWildcard := by
  cases tree with
  | wildcard => exact absurd trivial plain
  | var other variance =>
    by_cases same : other = param <;> simp [instantiate, toClass, same, IsWildcard]
  | _ => exact plain

theorem instantiate_toClass_eq_any (plain : ¬ tree.IsWildcard) :
    tree.instantiate (toClass param name) = .any ↔ tree = .any := by
  cases tree with
  | wildcard => exact absurd trivial plain
  | var other variance =>
    by_cases same : other = param <;> simp [instantiate, toClass, same]
  | _ => simp [instantiate]

/-- Only the bound of a wildcard changes, and that of `?` does not. -/
theorem instantiate_wildcard_toClass {variance : Variance} {bound : TypeTree}
    (plain : ¬ bound.IsWildcard) :
    (wildcard variance bound).instantiate (toClass param name) = wildcard variance
      (if variance = .invariant then bound else bound.instantiate (toClass param name)) := by
  rw [instantiate]
  by_cases same : bound.instantiate (toClass param name) = bound
  · rw [same, wildcardOver_self, ite_self]
  · have other : ∀ inner innerBound,
        bound.instantiate (toClass param name) ≠ wildcard inner innerBound :=
      fun _ _ equal => isWildcard_instantiate_toClass plain (by rw [equal]; trivial)
    rw [wildcardOver_other variance same other]
    split <;> rfl

theorem NestedWithin.not_isWildcard (nested : tree.NestedWithin depth) : ¬ tree.IsWildcard := by
  cases tree with
  | wildcard => cases depth <;> exact absurd nested id
  | _ => exact id

end TypeTree

namespace TreeHierarchy
open TypeTree TreeSubstitution

variable {hierarchy : TreeHierarchy} {bounds : ParamRef → List TypeTree} {param : ParamRef}
    {varied : Variance}
  {above below : Name}

theorem supertype_refl (depth : Nat) (tree : TypeTree) :
    hierarchy.Supertype bounds depth tree tree := by
  cases depth with
  | zero => exact .inl rfl
  | succ => exact .inl (.inl rfl)

theorem along_refl {relation : TreeTest} (refl : ∀ tree, relation tree tree) (direction : Variance)
    (tree : TypeTree) :
    relation.Along direction tree tree := by
  cases direction with
  | invariant => exact rfl
  | _ => exact refl tree

/-- Without conflicts an argument follows the parameter if its core does. -/
theorem along_argument {depth : Nat} {declared polarity : Variance} {arg : TypeTree}
    (nested : arg.core.NestedWithin depth)
    (allowed : ¬ hierarchy.Conflicts param varied (arg.polarity declared polarity) arg)
    (core : ∀ polarity, ¬ hierarchy.Conflicts param varied polarity arg.core →
      TreeTest.Along (hierarchy.Supertype bounds (depth + 1)) (varied.compose polarity)
        (arg.core.instantiate (toClass param above)) (arg.core.instantiate (toClass param below))) :
    TreeTest.Along (ArgumentContains (hierarchy.Supertype bounds (depth + 1)) declared)
      (varied.compose polarity) (arg.instantiate (toClass param above))
      (arg.instantiate (toClass param below)) := by
  have plain := nested.not_isWildcard
  by_cases wild : arg.IsWildcard
  · cases arg with
    | wildcard variance bound =>
      have plain : ¬ bound.IsWildcard := plain
      rw [instantiate_wildcard_toClass plain, instantiate_wildcard_toClass plain]
      by_cases unbounded : variance = .invariant
      · rw [if_pos unbounded, if_pos unbounded]
        exact along_refl (fun _ => .inl (.inl rfl)) _ _
      · rw [if_neg unbounded, if_neg unbounded]
        refine along_wildcard ?_
          ((instantiate_toClass_eq_any plain).trans (instantiate_toClass_eq_any plain).symm)
        rw [Variance.compose_assoc]
        exact core _ fun conflict => allowed (.bound unbounded conflict)
    | _ => exact absurd wild id
  · have facts : arg.core = arg ∧ arg.polarity declared polarity = declared.compose polarity := by
      cases arg with
      | wildcard => exact absurd trivial wild
      | _ => exact ⟨rfl, rfl⟩
    rw [facts.2] at allowed
    rw [facts.1] at core
    refine along_plain (isWildcard_instantiate_toClass wild)
      (isWildcard_instantiate_toClass wild) ?_
    rw [Variance.compose_assoc]
    exact core _ allowed

/-- Without conflicts a type follows the parameter, in the direction that its polarity and the
declared variance make. -/
theorem along_instantiate (directed : varied ≠ .invariant)
    (related : hierarchy.Supertype bounds 1 (.class_ above) (.class_ below)) :
    ∀ (depth : Nat) (tree : TypeTree) (polarity : Variance), tree.NestedWithin depth →
      ¬ hierarchy.Conflicts param varied polarity tree →
      TreeTest.Along (hierarchy.Supertype bounds (depth + 1)) (varied.compose polarity)
        (tree.instantiate (toClass param above)) (tree.instantiate (toClass param below)) := by
  intro depth tree polarity nested allowed
  have same (tree : TypeTree) :
      TreeTest.Along (hierarchy.Supertype bounds (depth + 1)) (varied.compose polarity) tree tree :=
    along_refl (supertype_refl (depth + 1)) _ tree
  cases tree with
  | applied base args =>
    cases depth with
    | zero => exact absurd nested id
    | succ depth =>
      simp only [TypeTree.instantiate, instantiateAll_eq_map]
      refine along_applied (by simp) fun position sup sub given other => ?_
      rw [List.getElem?_map] at given other
      obtain ⟨arg, listed, rfl⟩ := Option.map_eq_some_iff.mp given
      rw [listed] at other
      cases other
      have inside := nested arg (List.mem_of_getElem? listed)
      exact along_argument inside (fun conflict => allowed (.arg listed conflict)) fun polarity =>
        along_instantiate directed related depth arg.core polarity inside
  | var other variance =>
    by_cases own : other = param
    · subst own
      have allows : varied = polarity := by
        by_contra differs
        exact allowed (.var differs)
      subst allows
      have equal (name : Name) : (TypeTree.var other variance).instantiate (toClass other name) =
          .class_ name := by
        simp [TypeTree.instantiate, toClass]
      rw [Variance.compose_self directed, equal, equal]
      exact related.mono (Nat.le_add_left 1 depth)
    · simpa [TypeTree.instantiate, toClass, own] using same (.var other variance)
  | wildcard => exact absurd trivial nested.not_isWildcard
  | _ => exact same _

end TreeHierarchy

/-- What every step keeps and the step of one element brings about holds at the end. -/
theorem Except.foldlM_marks {ε α β : Type} {step : β → α → Except ε β} {marked : β → Prop}
    {elements : List α} (keeps : ∀ element ∈ elements, ∀ value next, step value element = .ok next →
      marked value → marked next)
    {start final : β} (ran : elements.foldlM step start = .ok final) :
    (marked start → marked final) ∧
      ∀ element ∈ elements, (∀ value next, step value element = .ok next → marked next) →
      marked final := by
  induction elements generalizing start with
  | nil =>
    cases ran
    exact ⟨id, by simp⟩
  | cons first rest ih =>
    rw [List.foldlM_cons] at ran
    obtain ⟨next, stepped, ran⟩ := Except.bind_eq_ok ran
    obtain ⟨kept, each⟩ :=
      ih (fun element member => keeps element (List.mem_cons_of_mem _ member)) ran
    refine ⟨fun holds => kept (keeps first List.mem_cons_self _ _ stepped holds),
      fun element member marks => ?_⟩
    rcases List.mem_cons.mp member with rfl | later
    · exact kept (marks _ _ stepped)
    · exact each element later marks

namespace TypePool
open TreeHierarchy

variable {pool : TypePool} {hierarchy : ClassHierarchy} {param : ParamRef} {declared : TypeParam}

theorem argumentPolarity_eq (valid : pool.Valid) {argument : TypeRef} (held : pool.Has argument)
    (variance polarity : Variance) :
    pool.argumentPolarity variance polarity argument =
      .ok ((pool.tree argument).polarity variance polarity) := by
  obtain ⟨node, found⟩ := held.lookup
  rw [valid.tree_eq found, argumentPolarity, node_eq found]
  cases node <;> rfl

theorem declaredVariances_eq : ∀ {params : List ParamRef} {variances : List Variance},
    pool.declaredVariances params = .ok variances →
      variances = params.map fun param =>
        ((pool.params[param.raw]?).map (·.variance)).getD .invariant
  | [], _, read => (Except.ok.inj read).symm
  | param :: params, _, read => by
    rw [declaredVariances, List.mapM_cons] at read
    obtain ⟨variance, first, read⟩ := Except.bind_eq_ok read
    obtain ⟨variances, rest, read⟩ := Except.bind_eq_ok read
    cases read
    rw [List.map_cons, ← declaredVariances_eq rest]
    unfold TypePool.param at first
    cases found : pool.params[param.raw]? with
    | none => simp [found, bind, Except.bind] at first
    | some declared =>
      rw [found] at first
      cases first
      rfl

theorem declared_eq {base : Name} {variances : List Variance}
    (read : pool.declaredVariances (hierarchy.typeParams base) = .ok variances) (position : Nat) :
    variances.getD position .invariant = (hierarchy.unfold pool).declared base position := by
  rw [declaredVariances_eq read, List.getD_eq_getElem?_getD, TreeHierarchy.declared]
  simp only [ClassHierarchy.unfold, List.getElem?_map, Option.map_map]
  rfl

theorem Valid.not_conflicts_primitive (valid : pool.Valid) {type : TypeRef}
    (primitive : type.isPrimitive = true) {varied polarity : Variance} :
    ¬ (hierarchy.unfold pool).Conflicts param varied polarity (pool.tree type) := by
  have atomic : ∀ raw < 7, TypePool.tree {} ⟨raw⟩ ∈
      [TypeTree.any, .void, .int, .float, .bool, .char, .string] := by
    decide
  have listed : TypePool.tree {} type ∈
      [TypeTree.any, .void, .int, .float, .bool, .char, .string] :=
    atomic type.raw (of_decide_eq_true primitive)
  rw [valid.tree_primitive primitive]
  generalize TypePool.tree {} type = tree at listed
  intro conflicts
  cases conflicts <;> simp at listed

/-- What conflicts is reported, and what was reported stays so. -/
theorem varianceConflictsWithin_reports (faithful : pool.Faithful)
    (stored : pool.params[param.raw]? = some declared) (directed : declared.variance ≠ .invariant)
    (position : TypePosition) :
    ∀ (depth : Nat) (type : TypeRef) (polarity : Variance) (before faults : List TypeFault),
      pool.Has type → pool.varianceConflictsWithin hierarchy position depth type polarity before =
        .ok faults →
      (before.any (·.concernsVariance param) = true →
        faults.any (·.concernsVariance param) = true) ∧
        ((hierarchy.unfold pool).Conflicts param declared.variance polarity (pool.tree type) →
          faults.any (·.concernsVariance param) = true) := by
  intro depth
  induction depth with
  | zero => exact fun _ _ _ _ _ ran => nomatch ran
  | succ depth ih =>
    intro type polarity before faults held ran
    obtain ⟨node, found⟩ := held.lookup
    rw [faithful.valid.tree_eq found]
    unfold varianceConflictsWithin at ran
    split at ran
    · rename_i primitive
      cases ran
      rw [← faithful.valid.tree_eq found]
      exact ⟨id, fun conflicts =>
        absurd conflicts (faithful.valid.not_conflicts_primitive primitive)⟩
    · rw [node_eq found, ok_bind] at ran
      cases node with
      | var other variance =>
        dsimp only at ran
        have varies := faithful.varies _ _ found
        split at ran
        · cases ran
          refine ⟨fun accepted => by simp [accepted], fun conflicts => ?_⟩
          cases conflicts with
          | var => simp [TypeFault.concernsVariance]
        · rename_i silent
          cases ran
          refine ⟨id, fun conflicts => ?_⟩
          cases conflicts with
          | var differs =>
            obtain rfl : declared.variance = variance := by simpa [Varies, stored] using varies
            simpa [directed, differs] using silent
      | applied base args =>
        dsimp only at ran
        obtain ⟨variances, read, ran⟩ := Except.bind_eq_ok ran
        have argHere {entry : TypeRef × Nat} (member : entry ∈ args.zipIdx) : pool.Has entry.1 :=
          faithful.valid.has_part found
            (List.mem_of_getElem? (List.mem_zipIdx_iff_getElem?.mp member))
        have each (entry : TypeRef × Nat) (member : entry ∈ args.zipIdx)
            (value next : List TypeFault) (stepped : (do
            let inner ← pool.argumentPolarity (variances.getD entry.2 .invariant) polarity entry.1
            varianceConflictsWithin pool hierarchy position depth entry.1 inner value) =
              .ok next) :=
          ih entry.1 ((pool.tree entry.1).polarity ((hierarchy.unfold pool).declared base entry.2)
            polarity) value next (argHere member)
            (by rwa [argumentPolarity_eq faithful.valid (argHere member),
              declared_eq read] at stepped)
        obtain ⟨kept, reports⟩ :=
          Except.foldlM_marks (fun entry member value next stepped =>
            (each entry member value next stepped).1) ran
        refine ⟨kept, fun conflicts => ?_⟩
        cases conflicts with
        | arg given inside =>
          rw [List.getElem?_map] at given
          obtain ⟨arg, listed, rfl⟩ := Option.map_eq_some_iff.mp given
          have member : (arg, _) ∈ args.zipIdx := List.mem_zipIdx_iff_getElem?.mpr listed
          exact reports _ member fun value next stepped =>
            (each _ member value next stepped).2 inside
      | wildcard variance bound =>
        dsimp only at ran
        split at ran
        · rename_i unbounded
          cases ran
          refine ⟨id, fun conflicts => ?_⟩
          cases conflicts with
          | bound bounded => exact absurd unbounded bounded
        · obtain ⟨kept, reports⟩ :=
            ih bound polarity before faults (faithful.valid.has_bound found) ran
          refine ⟨kept, fun conflicts => ?_⟩
          cases conflicts with
          | bound _ inside => exact reports inside
      | _ =>
        cases ran
        refine ⟨id, fun conflicts => ?_⟩
        cases conflicts

end TypePool

namespace TreeHierarchy

/-- Classes are compared without looking into anything. -/
theorem supertype_class {hierarchy : TreeHierarchy} {bounds : ParamRef → List TypeTree}
    {depth : Nat} {above below : Name}
    (related : hierarchy.Supertype bounds (depth + 1) (.class_ above) (.class_ below)) :
    hierarchy.Supertype bounds 1 (.class_ above) (.class_ below) := related

end TreeHierarchy

namespace ClassHierarchy
open TypePool TreeHierarchy TreeSubstitution

variable {hierarchy : ClassHierarchy} {pool between : TypePool} {param : ParamRef}
    {declared : TypeParam}
  {type sup sub : TypeRef} {name above below : Name}

theorem toClass_denotes (valid : pool.Valid) (found : pool.types[sup.raw]? = some (.class_ name))
    (param : ParamRef) : Substitution.Denotes ⟨[(param, sup)]⟩ pool (toClass param name) := by
  refine ⟨Substitution.heldBy_of_listed (by simpa using has_of_lookup found), fun _ => ?_⟩
  funext other
  have tree : pool.tree sup = .class_ name := valid.tree_eq found
  by_cases same : other = param
  · simp [Substitution.trees, Substitution.get?, toClass, same, tree]
  · have differs : (other == param) = false := by simpa using same
    simp [Substitution.trees, Substitution.get?, List.lookup_cons, toClass, same, differs]

/-- Where the check of variance reports nothing for a parameter, the type goes up when a class above
takes the place of another one, in a position of the declared variance, and down in one of the
opposite variance. -/
theorem variance_sound (faithful : pool.Faithful) (held : hierarchy.HeldBy pool)
    (inPool : pool.Has type) {depth : Nat} (nested : (pool.tree type).NestedWithin depth)
    (deep : depth < relationDepth) (found : pool.params[param.raw]? = some declared)
    (directed : declared.variance ≠ .invariant)
    (supClass : pool.types[sup.raw]? = some (.class_ above))
    (subClass : pool.types[sub.raw]? = some (.class_ below))
    (related : (hierarchy.isSupertype sup sub).run pool = .ok (true, between))
    (position : TypePosition) :
    ∃ faults, pool.varianceConflicts hierarchy type position = .ok faults ∧
      (faults.any (·.concernsVariance param) = false → Completes (do
          let wide ← instantiate type ⟨[(param, sup)]⟩
          let narrow ← instantiate type ⟨[(param, sub)]⟩
          if position.variance = declared.variance then hierarchy.isSupertype wide narrow
          else hierarchy.isSupertype narrow wide) between fun answer after =>
            after.Small → answer = true) := by
  have valid := faithful.valid
  obtain ⟨faults, ran, _⟩ := valid.varianceConflicts_ok held inPool position
  refine ⟨faults, ran, fun silent => ?_⟩
  have tells := isSupertype_tells valid held (has_of_lookup supClass) (has_of_lookup subClass)
  obtain ⟨growth, told⟩ := tells.ensures valid _ _ related
  have allowed : ¬ (hierarchy.unfold pool).Conflicts param declared.variance position.variance
      (pool.tree type) := by
    intro conflicts
    have reports := varianceConflictsWithin_reports faithful found directed position _ type _
      [] faults inPool ran
    exact Bool.false_ne_true (silent.symm.trans (reports.2 conflicts))
  have typeThere := (Denotes.self inPool).grow valid growth
  have toSup := (toClass_denotes valid supClass param).grow valid growth
  have toSub := (toClass_denotes valid subClass param).grow valid growth
  have builds : PoolM.Builds (do
      let wide ← instantiate type ⟨[(param, sup)]⟩
      let narrow ← instantiate type ⟨[(param, sub)]⟩
      if position.variance = declared.variance then hierarchy.isSupertype wide narrow
      else hierarchy.isSupertype narrow wide) between fun answer after =>
        after.Small → answer = true := by
    refine .bind (PoolM.Builds.instantiate typeThere toSup) fun wide one growthOne isWide => ?_
    refine .bind (PoolM.Builds.instantiate (typeThere.grow growth.valid growthOne)
      (toSub.grow growth.valid growthOne))
      fun narrow two growthTwo isNarrow => ?_
    have grown := growthOne.trans growthTwo
    have whole := growth.trans grown
    have follows (small : two.Small) :
        TreeTest.Along ((hierarchy.unfold two).Supertype two.boundTrees relationDepth)
        (declared.variance.compose position.variance) (two.tree wide) (two.tree narrow) := by
      have classes := (told (grown.small small)).mp rfl
      rw [valid.tree_eq supClass, valid.tree_eq subClass] at classes
      rw [held.unfold_eq valid whole, whole.boundTrees_eq valid, isNarrow.reads small,
        (isWide.grow growthOne.valid growthTwo).reads small]
      exact (along_instantiate directed (supertype_class classes) depth _ _ nested allowed).mono
        fun sup sub => TreeHierarchy.Supertype.mono deep
    have wideThere := growthTwo.has isWide.has
    split
    · rename_i same
      rw [same, Variance.compose_self directed] at follows
      refine (isSupertype_tells growthTwo.valid (held.grow whole) wideThere isNarrow.has).mono ?_
      exact fun answer after last told small => (told small).mpr (follows (last.small small))
    · rename_i differs
      rw [Variance.compose_of_ne directed position.directed (Ne.symm differs)] at follows
      refine (isSupertype_tells growthTwo.valid (held.grow whole) isNarrow.has wideThere).mono ?_
      exact fun answer after last told small => (told small).mpr (follows (last.small small))
  exact (builds growth.valid).mono fun _ _ facts => facts.2

/-- A pool for something that takes in what takes in a channel. -/
def sinkPool : TypePool :=
  .ofEntries
    #[.any, .void, .int, .float, .bool, .char, .string, .var ⟨0⟩ .covariant,
      .wildcard .contravariant ⟨7⟩, .applied "Sink" [⟨8⟩], .applied "Sink" [⟨9⟩], .class_ "Animal",
      .class_ "Dog"]
    #[⟨"T", "Channel", .covariant, []⟩, ⟨"U", "Sink", .contravariant, []⟩]

def sinkClasses : ClassHierarchy := ofHeaders [
  { name := "Channel", typeParams := [⟨0⟩] }, { name := "Sink", typeParams := [⟨1⟩] },
  { name := "Animal" }, { name := "Dog", superclass := some ⟨11⟩ }]

/-- A result may be a `Sink<Sink<? super T>>`, and that of an animal is above that of a dog. -/
theorem variance_sound_sink : ∃ between, (sinkClasses.isSupertype ⟨11⟩ ⟨12⟩).run sinkPool = .ok
    (true, between) ∧
    sinkPool.varianceConflicts sinkClasses ⟨10⟩ .result = .ok [] ∧ ∃ after, (do
      let wide ← instantiate ⟨10⟩ ⟨[(⟨0⟩, ⟨11⟩)]⟩
      let narrow ← instantiate ⟨10⟩ ⟨[(⟨0⟩, ⟨12⟩)]⟩
      sinkClasses.isSupertype wide narrow).run between = .ok (true, after) := by
  have held : sinkClasses.HeldBy sinkPool := heldBy_ofHeaders (by decide)
  have same : sinkPool.tree ⟨10⟩ =
      .applied "Sink" [.applied "Sink" [.wildcard .contravariant (.var ⟨0⟩ .covariant)]] := rfl
  have nested : (sinkPool.tree ⟨10⟩).NestedWithin 2 := by
    simp [same, TypeTree.NestedWithin, TypeTree.core]
  obtain ⟨faults, ran, follows⟩ :=
    variance_sound (by decide : sinkPool.Faithful) held (by decide : sinkPool.Has ⟨10⟩)
    nested (by decide) (rfl : sinkPool.params[0]? = some ⟨"T", "Channel", .covariant, []⟩)
      (by decide)
    (rfl : sinkPool.types[11]? = some (.class_ "Animal"))
      (rfl : sinkPool.types[12]? = some (.class_ "Dog")) rfl .result
  cases ran
  obtain ⟨answer, after, asked, holds⟩ := follows rfl
  refine ⟨_, rfl, rfl, after, ?_⟩
  cases asked
  exact holds (by decide) ▸ rfl

end ClassHierarchy
end ClassLang
