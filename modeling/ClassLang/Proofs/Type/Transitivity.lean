import ClassLang.Proofs.Type.BreadthFirst
import ClassLang.Proofs.Type.Supertype

/-! When subtyping composes. The test of subtyping is not transitive, so that what a type in the
middle admits need not be admitted by a type above it. Here stands what three types have to be like
for that, rule by rule along the test. -/

namespace ClassLang
open Relation

namespace TypeTree

/-- Neither a variable nor a wildcard. -/
def Rigid : TypeTree → Prop
  | var _ _ | wildcard _ _ => False
  | _ => True

theorem rigid_of_base? {tree : TypeTree} {name : Name} (named : tree.base? = some name) :
    tree.Rigid := by
  cases tree with
  | var | wildcard => cases named
  | _ => trivial

theorem Rigid.not_akin_var {tree : TypeTree} (rigid : tree.Rigid) (strict : ¬ tree.Lenient)
    {param : ParamRef} {variance : Variance} : ¬ tree.Akin (var param variance) := by
  rintro (rfl | lenient | lenient)
  · exact rigid
  · exact strict lenient
  · exact lenient

theorem Rigid.not_akin_wildcard {tree : TypeTree} (rigid : tree.Rigid) (strict : ¬ tree.Lenient)
    {variance : Variance} {bound : TypeTree} : ¬ tree.Akin (wildcard variance bound) := by
  rintro (rfl | lenient | lenient)
  · exact rigid
  · exact strict lenient
  · exact lenient

theorem not_lenient_of_base? {tree : TypeTree} {name : Name} (named : tree.base? = some name) :
    ¬ tree.Lenient := by
  cases tree with
  | any | unresolved => cases named
  | _ => exact id

theorem Akin.symm {first second : TypeTree} (akin : first.Akin second) : second.Akin first := by
  rcases akin with same | lenient | lenient
  · exact .inl same.symm
  · exact .inr (.inr lenient)
  · exact .inr (.inl lenient)

/-- Only a variable becomes a type of another class when it is replaced. -/
theorem base?_instantiate_of_ne {tree : TypeTree}
    (differs : ∀ param variance, tree ≠ var param variance) (subst : TreeSubstitution) :
    (tree.instantiate subst).base? = tree.base? := by
  cases tree with
  | var param variance => exact absurd rfl (differs param variance)
  | wildcard variance bound =>
    simp only [instantiate]
    rcases wildcardOver_shape variance bound (bound.instantiate subst) with ⟨_, same⟩ | same
    · rw [same]
      rfl
    · rw [same]
      rfl
  | _ => rfl

end TypeTree

namespace TreeHierarchy
variable (hierarchy : TreeHierarchy) (bounds : ParamRef → List TypeTree)

/-! Which classes are inherited. -/

/-- The class is declared to extend or implement the other one. -/
def Extends (name super : Name) : Prop := ∃ tree ∈ hierarchy.supertypes name,
    tree.base? = some super

/-- Neither the class nor any class above it inherits from a type variable. -/
def Settled (name : Name) : Prop :=
  ∀ other, ReflTransGen hierarchy.Extends name other → ∀ tree ∈ hierarchy.supertypes other,
    ∀ param variance, tree ≠ .var param variance

/-- All classes above a settled one are found among the ancestors of its types. -/
def FindsAll : Prop :=
  ∀ (tree : TypeTree) (name target : Name), tree.base? = some name → hierarchy.Settled name →
    ((hierarchy.ancestorAt? tree target).isSome ↔ ReflTransGen hierarchy.Extends name target)

variable {hierarchy}

theorem Settled.above {name other : Name} (settled : hierarchy.Settled name)
    (reaches : ReflTransGen hierarchy.Extends name other) : hierarchy.Settled other :=
  fun last way => settled last (reaches.trans way)

/-- Classes that inherit from one another only are settled. -/
theorem settled_of_closed {names : List Name} {name : Name} (listed : name ∈ names)
    (closed : ∀ name ∈ names, ∀ tree ∈ hierarchy.supertypes name, ∃ super ∈ tree.base?,
      super ∈ names) :
    hierarchy.Settled name := by
  have inside {other : Name} (way : ReflTransGen hierarchy.Extends name other) : other ∈ names := by
    induction way with
    | refl => exact listed
    | tail _ step ih =>
      obtain ⟨tree, member, isSuper⟩ := step
      obtain ⟨super, contained, inside⟩ := closed _ ih tree member
      cases isSuper.symm.trans contained
      exact inside
  rintro other way tree member param variance rfl
  obtain ⟨_, contained, -⟩ := closed other (inside way) _ member
  cases contained

/-- What an ancestor inherits is inherited. -/
theorem FindsAll.trans (finds : hierarchy.FindsAll) {middle sub : TypeTree}
    {inner name target : Name} (isMiddle : middle.base? = some inner)
    (isSub : sub.base? = some name) (settled : hierarchy.Settled name)
    (below : (hierarchy.ancestorAt? sub inner).isSome)
    (above : (hierarchy.ancestorAt? middle target).isSome) :
    (hierarchy.ancestorAt? sub target).isSome := by
  have first := (finds sub name inner isSub settled).mp below
  have second := (finds middle inner target isMiddle (settled.above first)).mp above
  exact (finds sub name target isSub settled).mpr (first.trans second)

end TreeHierarchy

namespace ClassHierarchy
variable {hierarchy : ClassHierarchy} {pool : TypePool}

/-- The names of the classes that a class is declared to inherit from. -/
def superBases (hierarchy : ClassHierarchy) (pool : TypePool) (name : Name) : List Name :=
  ((hierarchy.unfold pool).supertypes name).filterMap TypeTree.base?

theorem mem_superBases (name super : Name) :
    super ∈ hierarchy.superBases pool name ↔ (hierarchy.unfold pool).Extends name super := by
  unfold superBases TreeHierarchy.Extends
  rw [List.mem_filterMap]

/-- The search for ancestors is the search among classes. -/
theorem HeldBy.ancestorsFrom_search (held : hierarchy.HeldBy pool) :
    ∀ (fuel : Nat) (queue : List TypeTree) (seen : List Name),
      (∀ tree ∈ queue, ∀ name, tree.base? = some name → (hierarchy.unfold pool).Settled name) →
      queue.length + hierarchy.pending seen ≤ fuel →
      Search (hierarchy.superBases pool) (queue.filterMap TypeTree.base?) seen
        (((hierarchy.unfold pool).ancestorsFrom fuel queue seen).filterMap TypeTree.base?)
  | _, [], _, _, _ => by
    simpa [TreeHierarchy.ancestorsFrom] using Search.done
  | 0, _ :: _, _, _, enough => by simp at enough
  | fuel + 1, tree :: queue, seen, settled, enough => by
    simp only [List.length_cons] at enough
    have later : ∀ other ∈ queue, ∀ name, other.base? = some name →
        (hierarchy.unfold pool).Settled name :=
      fun other member => settled other (List.mem_cons_of_mem _ member)
    unfold TreeHierarchy.ancestorsFrom
    cases named : tree.base? with
    | none =>
      rw [List.filterMap_cons_none named]
      exact held.ancestorsFrom_search fuel queue seen later (by omega)
    | some name =>
      rw [List.filterMap_cons_some named]
      dsimp only
      split
      · rename_i accepted
        exact .again (by simpa using accepted)
          (held.ancestorsFrom_search fuel queue seen later (by omega))
      · rename_i fresh
        have own := settled tree List.mem_cons_self name named
        have supers : ((hierarchy.unfold pool).instantiateParts (hierarchy.unfold pool).supertypes
            tree).filterMap TypeTree.base? = hierarchy.superBases pool name := by
          simp only [TreeHierarchy.instantiateParts, named, superBases, List.filterMap_map]
          refine List.filterMap_congr fun super member => ?_
          exact TypeTree.base?_instantiate_of_ne (own name .refl super member) _
        have entering := held.pending_cons (Bool.eq_false_iff.mpr fresh)
        have room : (queue ++ (hierarchy.unfold pool).instantiateParts
            (hierarchy.unfold pool).supertypes tree).length + hierarchy.pending
            (name :: seen) ≤ fuel := by
          simp only [List.length_append, TreeHierarchy.instantiateParts, named,
            List.length_map, unfold]
          omega
        rw [List.filterMap_cons_some named]
        refine .visit (by simpa using fresh) ?_
        rw [← supers, ← List.filterMap_append]
        refine held.ancestorsFrom_search fuel _ _ (fun other member => ?_) room
        rcases List.mem_append.mp member with old | new
        · exact later other old
        · intro super hasBase
          refine own.above (.single ?_)
          rw [← mem_superBases, ← supers]
          exact List.mem_filterMap.mpr ⟨other, new, hasBase⟩

theorem HeldBy.findsAll (held : hierarchy.HeldBy pool) : (hierarchy.unfold pool).FindsAll := by
  intro tree name target named settled
  have search := held.ancestorsFrom_search (hierarchy.edges + 1) [tree] []
    (fun other member base hasBase => by
      rw [List.mem_singleton.mp member, named] at hasBase
      exact Option.some.inj hasBase ▸ settled)
    (by rw [pending_nil, List.length_singleton, Nat.add_comm])
  rw [List.filterMap_cons_some named] at search
  rw [← (search.complete mem_superBases).1 target, TreeHierarchy.ancestorAt?, List.find?_isSome,
    List.mem_filterMap]
  refine exists_congr fun ancestor => and_congr_right fun _ => ?_
  rw [beq_iff_eq]

end ClassHierarchy

namespace TreeHierarchy
variable (hierarchy : TreeHierarchy) (bounds : ParamRef → List TypeTree)

mutual

/-- What the type in the middle admits, the first type admits as well when it admits the one in the
middle, at most `height` levels deeper. -/
inductive Composes : Nat → TypeTree → TypeTree → TypeTree → Prop where
  | akin {height : Nat} {sup middle sub : TypeTree} (akin : sup.Akin sub) :
      Composes height sup middle sub
  | lower {height : Nat} {sup sub : TypeTree} : Composes height sup sub sub
  | upper {height : Nat} {sup sub : TypeTree} (below : hierarchy.Supertype bounds height sup sub) :
      Composes height sup sup sub
  /-- A wildcard is compared like an argument. -/
  | wildcard {height : Nat} {sup middle sub : TypeTree} (isWildcard : sup.IsWildcard)
      (apart : ¬ sup.Akin middle) (arguments : ArgumentsCompose height .invariant sup middle sub) :
      Composes height sup middle sub
  /-- A covariant variable accepts what its first bound accepts. -/
  | fromVar {height : Nat} {param : ParamRef} {middle sub : TypeTree}
      (apart : ¬ (TypeTree.var param .covariant).Akin middle)
      (rest : Composes height ((bounds param).headD .any) middle sub) :
      Composes height (.var param .covariant) middle sub
  /-- A contravariant variable accepts what accepts its first bound. That the type in the middle
  does says nothing about types below it. -/
  | fromContravariant {height : Nat} {param : ParamRef} {middle sub : TypeTree}
      (apart : ¬ (TypeTree.var param .contravariant).Akin middle)
      (reaches : hierarchy.Supertype bounds height sub ((bounds param).headD .any)) :
      Composes height (.var param .contravariant) middle sub
  /-- A covariant variable in the middle accepts what its first bound accepts, which has to be
  admitted itself: another bound is enough for the variable to be admitted. -/
  | throughVar {height depth rise : Nat} {param : ParamRef} {sup sub : TypeTree}
      (reaches : hierarchy.Supertype bounds depth sup ((bounds param).headD .any))
      (rest : Composes rise sup ((bounds param).headD .any) sub) (within : depth + rise ≤ height) :
      Composes height sup (.var param .covariant) sub
  /-- An invariant variable accepts itself only. -/
  | throughInvariant {height : Nat} {param : ParamRef} {sup sub : TypeTree} :
      Composes height sup (.var param .invariant) sub
  | throughWildcard {height : Nat} {sup bound sub : TypeTree} (rigid : sup.Rigid)
      (strict : ¬ bound.Lenient) (rest : Composes height sup bound sub.upper) :
      Composes height sup (.wildcard .covariant bound) sub
  /-- A variable is admitted by way of one of its bounds. -/
  | ontoVar {height : Nat} {param : ParamRef} {variance : Variance} {sup middle : TypeTree}
      (rigid : sup.Rigid) (rigidMiddle : middle.Rigid) (apart : ¬ sup.Akin middle)
      (rest : ∀ bound ∈ bounds param, ∀ depth, hierarchy.Supertype bounds depth middle bound →
        Composes height sup middle bound) :
      Composes (height + 1) sup middle (.var param variance)
  | ontoWildcard {height : Nat} {sup middle bound : TypeTree} (rigid : sup.Rigid)
      (rigidMiddle : middle.Rigid) (apart : ¬ sup.Akin middle)
      (rest : Composes height sup middle bound) :
      Composes (height + 1) sup middle (.wildcard .covariant bound)
  /-- Without arguments only the classes count. -/
  | class_ {height : Nat} {target inner name : Name} {middle sub : TypeTree}
      (isMiddle : middle.base? = some inner) (isSub : sub.base? = some name)
      (settled : hierarchy.Settled name) (apart : ¬ (TypeTree.class_ target).Akin middle) :
      Composes height (.class_ target) middle sub
  /-- Both types inherit an instance of the class, and the arguments of these compose. -/
  | applied {height : Nat} {target inner name : Name} {args : List TypeTree} {middle sub : TypeTree}
      (isMiddle : middle.base? = some inner) (isSub : sub.base? = some name)
      (settled : hierarchy.Settled name) (apart : ¬ (TypeTree.applied target args).Akin middle)
      (full : ∀ mine theirs, hierarchy.ancestorAt? middle target = some mine →
        hierarchy.ancestorAt? sub target = some theirs → theirs.args.length ≤ mine.args.length)
      (fit : ∀ mine theirs, hierarchy.ancestorAt? middle target = some mine →
        hierarchy.ancestorAt? sub target = some theirs → ∀ position arg own their,
          args[position]? = some arg → mine.args[position]? = some own →
          theirs.args[position]? = some their →
          ArgumentsCompose height (hierarchy.declared target position) arg own their) :
      Composes height (.applied target args) middle sub

/-- The same for arguments of a parameter of the variance. -/
inductive ArgumentsCompose : Nat → Variance → TypeTree → TypeTree → TypeTree → Prop where
  | akin {height : Nat} {variance : Variance} {sup middle sub : TypeTree} (akin : sup.Akin sub) :
      ArgumentsCompose height variance sup middle sub
  | lower {height : Nat} {variance : Variance} {sup sub : TypeTree} :
      ArgumentsCompose height variance sup sub sub
  | upper {height : Nat} {variance : Variance} {sup sub : TypeTree}
      (below : ArgumentContains (hierarchy.Supertype bounds height) variance sup sub) :
      ArgumentsCompose height variance sup sup sub
  /-- The wildcard `?` contains everything. -/
  | everything {height : Nat} {variance : Variance} {bound middle sub : TypeTree} :
      ArgumentsCompose height variance (.wildcard .invariant bound) middle sub
  | extends_ {height depth : Nat} {variance : Variance} {bound middle sub : TypeTree}
      (apart : ¬ (TypeTree.wildcard .covariant bound).Akin middle)
      (present : bound = .any ∨ sub.upper ≠ .any)
      (between : hierarchy.Supertype bounds depth middle.upper sub.upper)
      (rest : Composes height bound middle.upper sub.upper) :
      ArgumentsCompose height variance (.wildcard .covariant bound) middle sub
  /-- Below `? super` the order is reversed. -/
  | super {height depth rise : Nat} {variance : Variance}
      {bound middle sub lowMiddle low : TypeTree}
      (apart : ¬ (TypeTree.wildcard .contravariant bound).Akin middle)
      (isMiddle : middle.lower? = some lowMiddle) (isSub : sub.lower? = some low)
      (between : hierarchy.Supertype bounds depth low lowMiddle)
      (rest : Composes rise low lowMiddle bound) (within : depth + rise ≤ height) :
      ArgumentsCompose height variance (.wildcard .contravariant bound) middle sub
  | covariant {height depth : Nat} {sup middle sub : TypeTree} (plain : ¬ sup.IsWildcard)
      (plainSub : ¬ sub.IsWildcard)
      (between : hierarchy.Supertype bounds depth middle sub)
      (rest : Composes height sup middle sub) : ArgumentsCompose height .covariant sup middle sub
  | contravariant {height depth rise : Nat} {sup middle sub : TypeTree} (plain : ¬ sup.IsWildcard)
      (plainSub : ¬ sub.IsWildcard)
      (between : hierarchy.Supertype bounds depth sub middle)
      (rest : Composes rise sub middle sup) (within : depth + rise ≤ height) :
      ArgumentsCompose height .contravariant sup middle sub

end

section
variable {hierarchy bounds} {depth : Nat} {sup middle sub : TypeTree}

/-- What is not related trivially is related by its structure. -/
theorem Supertype.exists_structural (above : hierarchy.Supertype bounds depth sup sub)
    (apart : ¬ sup.Akin sub) : ∃ less, depth = less + 1 ∧
      hierarchy.StructuralSupertype bounds (hierarchy.Supertype bounds less) sup sub := by
  cases depth with
  | zero => exact absurd above apart
  | succ less => exact ⟨less, rfl, above.resolve_left apart⟩

theorem structural_of_rigid {deeper : TreeTest} (rigid : sup.Rigid) :
    hierarchy.StructuralSupertype bounds deeper sup sub ↔
      hierarchy.PlainSupertype bounds deeper sup sub := by
  cases sup with
  | var | wildcard => exact absurd rigid id
  | _ => exact Iff.rfl

theorem plain_of_base? {deeper : TreeTest} {name : Name} (isSub : sub.base? = some name) :
    hierarchy.PlainSupertype bounds deeper sup sub ↔ hierarchy.ClassSupertype deeper sup sub := by
  cases sub with
  | class_ | applied => exact Iff.rfl
  | _ => cases isSub

/-- A class type is above those of the classes that inherit from it. -/
theorem Supertype.isSome_ancestorAt? {inner name : Name} (isMiddle : middle.base? = some inner)
    (isSub : sub.base? = some name) (above : hierarchy.Supertype bounds depth middle sub) :
    (hierarchy.ancestorAt? sub inner).isSome := by
  by_cases akin : middle.Akin sub
  · rcases akin with same | lenient | lenient
    · rw [← same, ancestorAt?_self isMiddle]
      rfl
    · exact absurd lenient (TypeTree.not_lenient_of_base? isMiddle)
    · exact absurd lenient (TypeTree.not_lenient_of_base? isSub)
  obtain ⟨less, -, above⟩ := above.exists_structural akin
  rw [structural_of_rigid (TypeTree.rigid_of_base? isMiddle), plain_of_base? isSub] at above
  cases middle with
  | class_ target =>
    cases isMiddle
    exact above
  | applied target args =>
    cases isMiddle
    obtain ⟨ancestor, found, -⟩ := above
    rw [found]
    rfl
  | _ => cases isMiddle

/-- What is akin to the type in the middle. -/
theorem Supertype.of_akin (above : hierarchy.Supertype bounds depth sup middle)
    (strict : ¬ middle.Lenient) (akin : middle.Akin sub) :
    hierarchy.Supertype bounds depth sup sub := by
  rcases akin with same | lenient | lenient
  · exact same ▸ above
  · exact absurd lenient strict
  · exact supertype_of_akin (.inr (.inr lenient))

/-- A type that admits what the type stands for as a wildcard. -/
theorem Supertype.of_upper (above : hierarchy.Supertype bounds depth sup sub.upper)
    (rigid : sup.Rigid) (present : sub.upper ≠ .any) :
    hierarchy.Supertype bounds (depth + 1) sup sub := by
  cases sub with
  | wildcard variance bound =>
    cases variance with
    | covariant => exact .inr ((structural_of_rigid rigid).mpr above)
    | invariant | contravariant => exact absurd rfl present
  | _ => exact above.succ

/-- A wildcard contains what it admits as an argument. -/
theorem ArgumentContains.wildcard {deeper : TreeTest} {variance : Variance}
    (contains : ArgumentContains deeper variance sup sub) (isWildcard : sup.IsWildcard)
    (apart : ¬ sup.Akin sub) : WildcardContains deeper sup sub :=
  (contains.resolve_left apart).resolve_right fun plain => plain.1 isWildcard

/-- Arguments that are no wildcards are compared in the direction of a directed parameter. -/
theorem ArgumentContains.of_plain {variance : Variance}
    (contains : ArgumentContains (hierarchy.Supertype bounds depth) variance sup sub)
    (plain : ¬ sup.IsWildcard) (directed : variance ≠ .invariant) :
    PlainContains (hierarchy.Supertype bounds depth) variance sup sub := by
  rcases contains with akin | inside | ⟨-, -, compared⟩
  · cases variance with
    | covariant => exact supertype_of_akin akin
    | contravariant => exact supertype_of_akin akin.symm
    | invariant => exact absurd rfl directed
  · exact absurd inside.isWildcard plain
  · exact compared

end

/-! The rules hold: what they make of types at which subtyping composes. -/

/-- A type that admits the one in the middle admits what that admits. -/
def Transits (hierarchy : TreeHierarchy) (bounds : ParamRef → List TypeTree) (height : Nat)
    (sup middle sub : TypeTree) : Prop :=
  ∀ depth deeper : Nat, hierarchy.Supertype bounds depth sup middle →
    hierarchy.Supertype bounds deeper middle sub →
    hierarchy.Supertype bounds (depth + height) sup sub

/-- An argument that contains the one in the middle contains the last one. -/
def Transfers (hierarchy : TreeHierarchy) (bounds : ParamRef → List TypeTree) (height : Nat)
    (variance : Variance) (sup middle sub : TypeTree) : Prop :=
  ∀ depth : Nat, ArgumentContains (hierarchy.Supertype bounds depth) variance sup middle →
    ArgumentContains (hierarchy.Supertype bounds (depth + height)) variance sup sub

namespace Transits
variable {hierarchy : TreeHierarchy} {bounds : ParamRef → List TypeTree} {height low rise : Nat}
  {param : ParamRef} {variance : Variance} {sup middle bound sub : TypeTree}

theorem wildcard (isWildcard : sup.IsWildcard) (apart : ¬ sup.Akin middle)
    (arguments : hierarchy.Transfers bounds height .invariant sup middle sub) :
    hierarchy.Transits bounds height sup middle sub := by
  intro depth deeper above below
  obtain ⟨less, rfl, inside⟩ := above.exists_structural apart
  rw [Nat.succ_add]
  cases sup with
  | wildcard direction bound =>
    rcases arguments less (.inr (.inl inside)) with akin | contained | plain
    · exact .inl akin
    · exact .inr contained
    · exact absurd isWildcard plain.1
  | _ => cases isWildcard

theorem fromVar (apart : ¬ (TypeTree.var param .covariant).Akin middle)
    (rest : hierarchy.Transits bounds height ((bounds param).headD .any) middle sub) :
    hierarchy.Transits bounds height (.var param .covariant) middle sub := by
  intro depth deeper above below
  obtain ⟨less, rfl, inside⟩ := above.exists_structural apart
  rw [Nat.succ_add]
  exact .inr (rest less deeper inside below)

theorem fromContravariant (apart : ¬ (TypeTree.var param .contravariant).Akin middle)
    (reaches : hierarchy.Supertype bounds height sub ((bounds param).headD .any)) :
    hierarchy.Transits bounds height (.var param .contravariant) middle sub := by
  intro depth deeper above below
  obtain ⟨less, rfl, -⟩ := above.exists_structural apart
  rw [Nat.succ_add]
  exact .inr (reaches.mono (Nat.le_add_left _ _))

theorem throughVar (reaches : hierarchy.Supertype bounds low sup ((bounds param).headD .any))
    (rest : hierarchy.Transits bounds rise sup ((bounds param).headD .any) sub)
    (within : low + rise ≤ height) :
    hierarchy.Transits bounds height sup (.var param .covariant) sub := by
  intro depth deeper above below
  by_cases akin : (TypeTree.var param .covariant).Akin sub
  · exact (above.of_akin id akin).mono (Nat.le_add_right _ _)
  · obtain ⟨less, -, inside⟩ := below.exists_structural akin
    exact (rest low less reaches inside).mono (Nat.le_trans within (Nat.le_add_left _ _))

theorem throughInvariant : hierarchy.Transits bounds height sup (.var param .invariant) sub := by
  intro depth deeper above below
  by_cases akin : (TypeTree.var param .invariant).Akin sub
  · exact (above.of_akin id akin).mono (Nat.le_add_right _ _)
  · obtain ⟨_, -, inside⟩ := below.exists_structural akin
    exact inside.elim

theorem throughWildcard (rigid : sup.Rigid) (strict : ¬ bound.Lenient)
    (rest : hierarchy.Transits bounds height sup bound sub.upper) :
    hierarchy.Transits bounds height sup (.wildcard .covariant bound) sub := by
  intro depth deeper above below
  by_cases lenient : sup.Lenient
  · exact supertype_of_akin (.inr (.inl lenient))
  by_cases akin : (TypeTree.wildcard .covariant bound).Akin sub
  · exact (above.of_akin id akin).mono (Nat.le_add_right _ _)
  have apart : ¬ sup.Akin (.wildcard .covariant bound) := rigid.not_akin_wildcard lenient
  obtain ⟨less, rfl, onto⟩ := above.exists_structural apart
  obtain ⟨few, -, inside⟩ := below.exists_structural akin
  obtain ⟨present, under⟩ := inside.resolve_left fun same => strict (same ▸ trivial)
  have upper := rest less few ((structural_of_rigid rigid).mp onto) under
  rw [Nat.succ_add]
  exact upper.of_upper rigid present

theorem ontoVar (rigid : sup.Rigid) (rigidMiddle : middle.Rigid) (apart : ¬ sup.Akin middle)
    (rest : ∀ bound ∈ bounds param, ∀ few, hierarchy.Supertype bounds few middle bound →
      hierarchy.Transits bounds height sup middle bound) :
    hierarchy.Transits bounds (height + 1) sup middle (.var param variance) := by
  intro depth deeper above below
  have differs : ¬ middle.Akin (.var param variance) :=
    rigidMiddle.not_akin_var fun lenient => apart (.inr (.inr lenient))
  obtain ⟨few, -, inside⟩ := below.exists_structural differs
  obtain ⟨bound, member, under⟩ := (structural_of_rigid rigidMiddle).mp inside
  have onto := rest bound member few under depth few above under
  exact .inr ((structural_of_rigid rigid).mpr ⟨bound, member, onto⟩)

theorem ontoWildcard (rigid : sup.Rigid) (rigidMiddle : middle.Rigid) (apart : ¬ sup.Akin middle)
    (rest : hierarchy.Transits bounds height sup middle bound) :
    hierarchy.Transits bounds (height + 1) sup middle (.wildcard .covariant bound) := by
  intro depth deeper above below
  have differs : ¬ middle.Akin (.wildcard .covariant bound) :=
    rigidMiddle.not_akin_wildcard fun lenient => apart (.inr (.inr lenient))
  obtain ⟨few, -, inside⟩ := below.exists_structural differs
  have onto := rest depth few above ((structural_of_rigid rigidMiddle).mp inside)
  exact .inr ((structural_of_rigid rigid).mpr onto)

section
variable (finds : hierarchy.FindsAll) {target inner name : Name} {args : List TypeTree}
  (isMiddle : middle.base? = some inner) (isSub : sub.base? = some name)
  (settled : hierarchy.Settled name)
include finds isMiddle isSub settled

theorem class_ (apart : ¬ (TypeTree.class_ target).Akin middle) :
    hierarchy.Transits bounds height (.class_ target) middle sub := by
  intro depth deeper above below
  have inherited := below.isSome_ancestorAt? isMiddle isSub
  have found := finds.trans isMiddle isSub settled inherited (above.isSome_ancestorAt? rfl isMiddle)
  obtain ⟨less, rfl, -⟩ := above.exists_structural apart
  rw [Nat.succ_add]
  exact .inr ((plain_of_base? isSub).mpr found)

theorem applied (apart : ¬ (TypeTree.applied target args).Akin middle)
    (full : ∀ mine theirs, hierarchy.ancestorAt? middle target = some mine →
      hierarchy.ancestorAt? sub target = some theirs → theirs.args.length ≤ mine.args.length)
    (fit : ∀ mine theirs, hierarchy.ancestorAt? middle target = some mine →
      hierarchy.ancestorAt? sub target = some theirs → ∀ position arg own their,
        args[position]? = some arg → mine.args[position]? = some own →
        theirs.args[position]? = some their →
        hierarchy.Transfers bounds height (hierarchy.declared target position) arg own their) :
    hierarchy.Transits bounds height (.applied target args) middle sub := by
  intro depth deeper above below
  have inherited := below.isSome_ancestorAt? isMiddle isSub
  have found := finds.trans isMiddle isSub settled inherited (above.isSome_ancestorAt? rfl isMiddle)
  obtain ⟨theirs, foundTheirs⟩ := Option.isSome_iff_exists.mp found
  obtain ⟨less, rfl, inside⟩ := above.exists_structural apart
  obtain ⟨mine, foundMine, contain⟩ := (plain_of_base? isMiddle).mp inside
  rw [Nat.succ_add]
  refine .inr ((plain_of_base? isSub).mpr ⟨theirs, foundTheirs, ?_⟩)
  intro position arg their given actual
  have inRange : position < mine.args.length :=
    Nat.lt_of_lt_of_le (List.getElem?_eq_some_iff.mp actual).1
      (full mine theirs foundMine foundTheirs)
  have own := List.getElem?_eq_getElem inRange
  have transfers := fit mine theirs foundMine foundTheirs position arg _ their given own actual
  exact transfers less (contain position arg _ given own)

end

end Transits

namespace Transfers
variable {hierarchy : TreeHierarchy} {bounds : ParamRef → List TypeTree} {height few rise : Nat}
  {variance : Variance} {sup middle bound sub lowMiddle low : TypeTree}

theorem extends_ (apart : ¬ (TypeTree.wildcard .covariant bound).Akin middle)
    (present : bound = .any ∨ sub.upper ≠ .any)
    (between : hierarchy.Supertype bounds few middle.upper sub.upper)
    (rest : hierarchy.Transits bounds height bound middle.upper sub.upper) :
    hierarchy.Transfers bounds height variance (.wildcard .covariant bound) middle sub := by
  intro depth contains
  have inside := contains.wildcard trivial apart
  refine .inr (.inl (or_iff_not_imp_left.mpr fun differs => ?_))
  exact ⟨present.resolve_left differs, rest depth few (inside.resolve_left differs).2 between⟩

theorem super (apart : ¬ (TypeTree.wildcard .contravariant bound).Akin middle)
    (isMiddle : middle.lower? = some lowMiddle) (isSub : sub.lower? = some low)
    (between : hierarchy.Supertype bounds few low lowMiddle)
    (rest : hierarchy.Transits bounds rise low lowMiddle bound) (within : few + rise ≤ height) :
    hierarchy.Transfers bounds height variance (.wildcard .contravariant bound) middle sub := by
  intro depth contains
  obtain ⟨_, same, above⟩ := contains.wildcard trivial apart
  cases isMiddle.symm.trans same
  have lower := rest few depth between above
  exact .inr (.inl ⟨low, isSub, lower.mono (Nat.le_trans within (Nat.le_add_left _ _))⟩)

theorem covariant (plain : ¬ sup.IsWildcard) (plainSub : ¬ sub.IsWildcard)
    (between : hierarchy.Supertype bounds few middle sub)
    (rest : hierarchy.Transits bounds height sup middle sub) :
    hierarchy.Transfers bounds height .covariant sup middle sub := by
  intro depth contains
  have above := contains.of_plain plain nofun
  exact .inr (.inr ⟨plain, plainSub, rest depth few above between⟩)

theorem contravariant (plain : ¬ sup.IsWildcard) (plainSub : ¬ sub.IsWildcard)
    (between : hierarchy.Supertype bounds few sub middle)
    (rest : hierarchy.Transits bounds rise sub middle sup) (within : few + rise ≤ height) :
    hierarchy.Transfers bounds height .contravariant sup middle sub := by
  intro depth contains
  have lower := rest few depth between (contains.of_plain plain nofun)
  exact .inr (.inr ⟨plain, plainSub, lower.mono (Nat.le_trans within (Nat.le_add_left _ _))⟩)

end Transfers

section
variable {hierarchy bounds}

mutual

/-- Where three types compose, the first admits what the one in the middle admits. -/
theorem Composes.transits (finds : hierarchy.FindsAll) :
    ∀ {height : Nat} {sup middle sub : TypeTree}, hierarchy.Composes bounds height sup middle sub →
    hierarchy.Transits bounds height sup middle sub
  | _, _, _, _, .akin akin => fun _ _ _ _ => supertype_of_akin akin
  | _, _, _, _, .lower => fun _ _ above _ => above.mono (Nat.le_add_right _ _)
  | _, _, _, _, .upper below => fun _ _ _ _ => below.mono (Nat.le_add_left _ _)
  | _, _, _, _, .wildcard isWildcard apart arguments =>
    .wildcard isWildcard apart (arguments.transfers finds)
  | _, _, _, _, .fromVar apart rest => .fromVar apart (rest.transits finds)
  | _, _, _, _, .fromContravariant apart reaches => .fromContravariant apart reaches
  | _, _, _, _, .throughVar reaches rest within => .throughVar reaches (rest.transits finds) within
  | _, _, _, _, .throughInvariant => .throughInvariant
  | _, _, _, _, .throughWildcard rigid strict rest =>
    .throughWildcard rigid strict (rest.transits finds)
  | _, _, _, _, .ontoVar rigid rigidMiddle apart rest =>
    .ontoVar rigid rigidMiddle apart fun bound member few below =>
      (rest bound member few below).transits finds
  | _, _, _, _, .ontoWildcard rigid rigidMiddle apart rest =>
    .ontoWildcard rigid rigidMiddle apart (rest.transits finds)
  | _, _, _, _, .class_ isMiddle isSub settled apart => .class_ finds isMiddle isSub settled apart
  | _, _, _, _, .applied isMiddle isSub settled apart full fit =>
    .applied finds isMiddle isSub settled apart full
      fun mine theirs foundMine foundTheirs position arg own their given ownGiven theirGiven =>
        (fit mine theirs foundMine foundTheirs position arg own their given ownGiven
          theirGiven).transfers finds

theorem ArgumentsCompose.transfers (finds : hierarchy.FindsAll) :
    ∀ {height : Nat} {variance : Variance} {sup middle sub : TypeTree},
    hierarchy.ArgumentsCompose bounds height variance sup middle sub →
      hierarchy.Transfers bounds height variance sup middle sub
  | _, _, _, _, _, .akin akin => fun _ _ => .inl akin
  | _, _, _, _, _, .lower => fun _ contains =>
    contains.mono fun _ _ above => above.mono (Nat.le_add_right _ _)
  | _, _, _, _, _, .upper below => fun _ _ =>
    below.mono fun _ _ above => above.mono (Nat.le_add_left _ _)
  | _, _, _, _, _, .everything => fun _ _ => .inr (.inl trivial)
  | _, _, _, _, _, .extends_ apart present between rest =>
    .extends_ apart present between (rest.transits finds)
  | _, _, _, _, _, .super apart isMiddle isSub between rest within =>
    .super apart isMiddle isSub between (rest.transits finds) within
  | _, _, _, _, _, .covariant plain plainSub between rest =>
    .covariant plain plainSub between (rest.transits finds)
  | _, _, _, _, _, .contravariant plain plainSub between rest within =>
    .contravariant plain plainSub between (rest.transits finds) within

end

end

end TreeHierarchy
end ClassLang
