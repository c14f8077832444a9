import ClassLang.Proofs.Type.Handing

/-! Narrowing: what the type of a scrutinee says about the components of a variant. A component
follows the parameters that it mentions, in the direction of the positions where they stand. -/

namespace ClassLang
namespace TreeHierarchy

variable {hierarchy : TreeHierarchy} {bounds : ParamRef → List TypeTree}
  {subst : TreeSubstitution} {param : ParamRef} {depth : Nat} {declared : Variance}
  {found type : TypeTree}

/-! What becomes of a component. -/

/-- What is put in for parameters, and the parameters for which it stands above what another side
puts in for them. -/
structure Side where
  subst : TreeSubstitution
  leads : ParamRef → Prop

/-- How a component follows its parameters: as an argument, what becomes of it on the first side
admits what becomes of it on the second one. The sides change places in closed arguments of a
contravariant parameter and below `? super`. -/
inductive Follows (hierarchy : TreeHierarchy) : (upper lower : Side) → (height : Nat) →
    TypeTree → Prop where
  /-- The same becomes of the component on both sides, or something that relates to every type. -/
  | akin {upper lower : Side} {height : Nat} {tree : TypeTree}
      (akin : (tree.instantiate upper.subst).Akin (tree.instantiate lower.subst)) :
      Follows hierarchy upper lower height tree
  | everything {upper lower : Side} {height : Nat} {tree : TypeTree}
      (unbounded : (tree.instantiate upper.subst).Unbounded) :
      Follows hierarchy upper lower height tree
  /-- A type admits no covariant wildcard over a type below it. -/
  | var {upper lower : Side} {height : Nat} {param : ParamRef} (variance : Variance)
      (leads : upper.leads param)
      (single : ∀ bound, lower.subst param ≠ some (.wildcard .covariant bound)) :
      Follows hierarchy upper lower height (.var param variance)
  | applied {upper lower : Side} {height : Nat} {base : Name} {args : List TypeTree}
      (along : ∀ position arg, args[position]? = some arg →
        hierarchy.declared base position = .covariant ∨ (arg.instantiate upper.subst).Open →
        Follows hierarchy upper lower height arg)
      (plain : ∀ position arg, args[position]? = some arg →
        hierarchy.declared base position = .contravariant → ¬ (arg.instantiate upper.subst).Open →
        ¬ (arg.instantiate lower.subst).IsWildcard)
      (across : ∀ position arg, args[position]? = some arg →
        hierarchy.declared base position = .contravariant → ¬ (arg.instantiate upper.subst).Open →
        Follows hierarchy lower upper height arg)
      (fixed : ∀ position arg, args[position]? = some arg →
        hierarchy.declared base position = .invariant → ¬ (arg.instantiate upper.subst).Open →
        (arg.instantiate upper.subst).Akin (arg.instantiate lower.subst)) :
      Follows hierarchy upper lower (height + 1) (.applied base args)
  /-- Of wildcards only those over `any` admit one over `any`. -/
  | extends_ {upper lower : Side} {height : Nat} {bound : TypeTree}
      (plain : ¬ (bound.instantiate upper.subst).IsWildcard)
      (plainLower : ¬ (bound.instantiate lower.subst).IsWildcard)
      (present : bound.instantiate upper.subst = .any ∨ bound.instantiate lower.subst ≠ .any)
      (rest : Follows hierarchy upper lower height bound) :
      Follows hierarchy upper lower height (.wildcard .covariant bound)
  | extendsWildcard {upper lower : Side} {height : Nat} {param : ParamRef} {bound : TypeTree}
      (variance : Variance) (leads : upper.leads param)
      (plain : ¬ ((TypeTree.var param variance).instantiate upper.subst).IsWildcard)
      (isLower : lower.subst param = some (.wildcard .covariant bound))
      (present : (TypeTree.var param variance).instantiate upper.subst = .any ∨ bound ≠ .any) :
      Follows hierarchy upper lower height (.wildcard .covariant (.var param variance))
  | extendsOpen {upper lower : Side} {height : Nat} {param : ParamRef} {bound : TypeTree}
      (variance : Variance) (leads : upper.leads param)
      (isUpper : upper.subst param = some (.wildcard .covariant bound))
      (plainLower : ¬ ((TypeTree.var param variance).instantiate lower.subst).IsWildcard)
      (present : bound = .any ∨ (TypeTree.var param variance).instantiate lower.subst ≠ .any) :
      Follows hierarchy upper lower height (.wildcard .covariant (.var param variance))
  | super {upper lower : Side} {height : Nat} {bound : TypeTree}
      (plain : ¬ (bound.instantiate upper.subst).IsWildcard)
      (plainLower : ¬ (bound.instantiate lower.subst).IsWildcard)
      (rest : Follows hierarchy lower upper height bound) :
      Follows hierarchy upper lower height (.wildcard .contravariant bound)
  | superWildcard {upper lower : Side} {height : Nat} {param : ParamRef} {bound : TypeTree}
      (variance : Variance) (leads : upper.leads param)
      (isUpper : upper.subst param = some (.wildcard .contravariant bound))
      (single : ∀ bound, lower.subst param ≠ some (.wildcard .covariant bound)) :
      Follows hierarchy upper lower height (.wildcard .contravariant (.var param variance))
  | superLenient {upper lower : Side} {height : Nat} {bound low : TypeTree}
      (lenient : (bound.instantiate upper.subst).Lenient)
      (isLower : ((TypeTree.wildcard .contravariant bound).instantiate lower.subst).lower? =
        some low) :
      Follows hierarchy upper lower height (.wildcard .contravariant bound)

section
variable {upper lower : Side} {height : Nat} {tree sup sub bound : TypeTree} {variance : Variance}

/-- What the first side puts in for the parameters that it leads covers what the second one puts
in. -/
def Leads (hierarchy : TreeHierarchy) (bounds : ParamRef → List TypeTree) (depth : Nat)
    (upper lower : Side) : Prop :=
  ∀ param variance, upper.leads param → hierarchy.Covers bounds depth
    ((TypeTree.var param variance).instantiate upper.subst)
    ((TypeTree.var param variance).instantiate lower.subst)

/-- What covers a type that is no covariant wildcard contains it. -/
theorem Covers.contains (covers : hierarchy.Covers bounds depth found type)
    (single : ∀ bound, type ≠ .wildcard .covariant bound) :
    ArgumentContains (hierarchy.Supertype bounds depth) .covariant found type := by
  rcases covers with contains | ⟨bound, wildcard, _⟩
  · exact contains
  · exact absurd wildcard (single bound)

/-- What covers a covariant wildcard is above its bound. -/
theorem Covers.above_bound
    (covers : hierarchy.Covers bounds depth found (.wildcard .covariant bound))
    (plain : ¬ found.IsWildcard) : hierarchy.Supertype bounds depth found bound := by
  obtain (akin | wildcard | ⟨_, subPlain, _⟩) | ⟨other, same, above⟩ := covers
  · rcases akin with rfl | lenient | lenient
    · exact absurd trivial plain
    · exact supertype_of_akin (.inr (.inl lenient))
    · exact lenient.elim
  · exact absurd wildcard.isWildcard plain
  · exact absurd trivial subPlain
  · cases same
    exact above

/-- The bound of a covariant wildcard is above what the wildcard covers. -/
theorem Covers.bound_above
    (covers : hierarchy.Covers bounds depth (.wildcard .covariant bound) type)
    (plain : ¬ type.IsWildcard) : hierarchy.Supertype bounds depth bound type := by
  have single (inner : TypeTree) : type ≠ .wildcard .covariant inner := fun same =>
    plain (same ▸ trivial)
  rcases covers.contains single with (rfl | lenient | lenient) | wildcard | ⟨supPlain, _⟩
  · exact absurd trivial plain
  · exact lenient.elim
  · exact supertype_of_akin (.inr (.inr lenient))
  · rcases wildcard with rfl | ⟨_, above⟩
    · exact supertype_of_akin (.inr (.inl trivial))
    · rwa [TypeTree.upper_of_plain plain] at above
  · exact absurd trivial supPlain

/-- What a contravariant wildcard covers is above its bound. -/
theorem Covers.above_lower
    (covers : hierarchy.Covers bounds depth (.wildcard .contravariant bound) type)
    (plain : ¬ type.IsWildcard) : hierarchy.Supertype bounds depth type bound := by
  have single (inner : TypeTree) : type ≠ .wildcard .covariant inner := fun same =>
    plain (same ▸ trivial)
  rcases covers.contains single with (rfl | lenient | lenient) | ⟨low, isLower, above⟩ |
    ⟨supPlain, _⟩
  · exact absurd trivial plain
  · exact lenient.elim
  · exact supertype_of_akin (.inr (.inl lenient))
  · cases isLower.symm.trans (TypeTree.lower?_of_plain plain)
    exact above
  · exact absurd trivial supPlain

theorem TypeTree.Unbounded.contains {deeper : TreeTest} (unbounded : sup.Unbounded) :
    ArgumentContains deeper declared sup sub := by
  cases sup with
  | any | unresolved => exact .inl (.inr (.inl trivial))
  | wildcard variance bound =>
    cases variance with
    | invariant => exact .inr (.inl trivial)
    | contravariant => exact unbounded.elim
    | covariant =>
      cases bound with
      | any => exact .inr (.inl (.inl rfl))
      | _ => exact unbounded.elim
  | _ => exact unbounded.elim

/-- A wildcard over a type that stands above what the other argument stands for. -/
theorem argumentContains_extends (present : sup = .any ∨ sub.upper ≠ .any)
    (above : hierarchy.Supertype bounds depth sup sub.upper) :
    ArgumentContains (hierarchy.Supertype bounds depth) declared (.wildcard .covariant sup) sub :=
  .inr (.inl (or_iff_not_imp_left.mpr fun differs => ⟨present.resolve_left differs, above⟩))

/-- A wildcard below whose bound another one goes. -/
theorem argumentContains_super {low : TypeTree} (isLower : sub.lower? = some low)
    (above : hierarchy.Supertype bounds depth low sup) :
    ArgumentContains (hierarchy.Supertype bounds depth) declared
      (.wildcard .contravariant sup) sub :=
  .inr (.inl ⟨low, isLower, above⟩)

theorem instantiate_var (found : subst param = some type) :
    (TypeTree.var param variance).instantiate subst = type := by
  rw [TypeTree.instantiate, found, Option.getD_some]

theorem instantiate_var_ne (single : ∀ bound, subst param ≠ some (.wildcard .covariant bound)) :
    ∀ bound, (TypeTree.var param variance).instantiate subst ≠ .wildcard .covariant bound := by
  intro bound same
  cases found : subst param with
  | none =>
    rw [TypeTree.instantiate, found] at same
    cases same
  | some type =>
    rw [instantiate_var found] at same
    exact single bound (found.trans (congrArg some same))

/-- Of the wildcards a contravariant one covers its like alone. -/
theorem Covers.exists_lower
    (covers : hierarchy.Covers bounds depth (.wildcard .contravariant bound)
      ((TypeTree.var param variance).instantiate subst))
    (wildcard : ((TypeTree.var param variance).instantiate subst).IsWildcard)
    (single : ∀ bound, subst param ≠ some (.wildcard .covariant bound)) :
    ∃ inner, subst param = some (.wildcard .contravariant inner) := by
  cases found : subst param with
  | none =>
    rw [TypeTree.instantiate, found] at wildcard
    exact wildcard.elim
  | some type =>
    rw [instantiate_var found] at covers wildcard
    cases type with
    | wildcard direction inner =>
      cases direction with
      | contravariant => exact ⟨inner, rfl⟩
      | covariant => exact absurd found (single inner)
      | invariant =>
        have other : ∀ bound, TypeTree.wildcard .invariant inner ≠ .wildcard .covariant bound := by
          simp
        rcases covers.contains other with (same | lenient | lenient) | contains | ⟨supPlain, _⟩
        · cases same
        · exact lenient.elim
        · exact lenient.elim
        · obtain ⟨_, isLower, _⟩ := contains
          cases isLower
        · exact absurd trivial supPlain
    | _ => exact wildcard.elim

/-- A wildcard over a parameter for which such a wildcard is put in. -/
theorem instantiate_sameWay {direction : Variance}
    (found : subst param = some (.wildcard direction bound)) :
    (TypeTree.wildcard direction (.var param variance)).instantiate subst =
      .wildcard direction bound := by
  have differ : TypeTree.wildcard direction bound ≠ .var param variance := nofun
  rw [TypeTree.instantiate, TypeTree.instantiate, found, Option.getD_some,
    TypeTree.wildcardOver_wildcard _ differ, if_pos rfl]

theorem instantiate_wildcard_plain {direction : Variance} (directed : direction ≠ .invariant)
    (plain : ¬ (bound.instantiate subst).IsWildcard) :
    (TypeTree.wildcard direction bound).instantiate subst =
      .wildcard direction (bound.instantiate subst) := by
  rw [TypeTree.instantiate, TypeTree.wildcardOver_plain directed plain]

/-- Arguments of an instance that follow their parameters. -/
theorem argumentsContain_applied {base : Name} {args : List TypeTree}
    {first second : TreeSubstitution} (along : ∀ position arg, args[position]? = some arg →
      hierarchy.declared base position = .covariant ∨ (arg.instantiate first).Open →
      ArgumentContains (hierarchy.Supertype bounds depth) .covariant (arg.instantiate first)
        (arg.instantiate second))
    (plain : ∀ position arg, args[position]? = some arg →
      hierarchy.declared base position = .contravariant → ¬ (arg.instantiate first).Open →
      ¬ (arg.instantiate second).IsWildcard)
    (across : ∀ position arg, args[position]? = some arg →
      hierarchy.declared base position = .contravariant → ¬ (arg.instantiate first).Open →
      ArgumentContains (hierarchy.Supertype bounds depth) .covariant (arg.instantiate second)
        (arg.instantiate first))
    (fixed : ∀ position arg, args[position]? = some arg →
      hierarchy.declared base position = .invariant → ¬ (arg.instantiate first).Open →
      (arg.instantiate first).Akin (arg.instantiate second)) :
    hierarchy.Supertype bounds (depth + 1) ((TypeTree.applied base args).instantiate first)
      ((TypeTree.applied base args).instantiate second) := by
  simp only [TypeTree.instantiate, TypeTree.instantiateAll_eq_map]
  refine .inr ⟨_, ancestorAt?_self rfl, fun position sup sub given other => ?_⟩
  rw [List.getElem?_map] at given
  rw [TypeTree.args, List.getElem?_map] at other
  obtain ⟨arg, listed, rfl⟩ := Option.map_eq_some_iff.mp given
  rw [listed, Option.map_some, Option.some.injEq] at other
  subst other
  by_cases isOpen : (arg.instantiate first).Open
  · exact (along position arg listed (.inr isOpen)).of_open isOpen
  cases direction : hierarchy.declared base position with
  | covariant => exact along position arg listed (.inl direction)
  | invariant => exact .inl (fixed position arg listed direction isOpen)
  | contravariant =>
    have closed := plain position arg listed direction isOpen
    have below := (across position arg listed direction isOpen).of_plain closed (by decide)
    exact .inr (.inr ⟨fun wildcard => isOpen (.inl wildcard), closed, below⟩)

/-- An instance follows its parameters if all its arguments do, and are arguments of covariant
parameters or open. -/
theorem Follows.of_args {base : Name} {args : List TypeTree}
    (directed : ∀ position arg, args[position]? = some arg →
      hierarchy.declared base position = .covariant ∨ (arg.instantiate upper.subst).Open)
    (each : ∀ arg ∈ args, hierarchy.Follows upper lower height arg) :
    hierarchy.Follows upper lower (height + 1) (.applied base args) := by
  have directed_of {position : Nat} {arg : TypeTree} {variance : Variance}
      (listed : args[position]? = some arg) (other : hierarchy.declared base position = variance)
      (differs : variance ≠ .covariant) (closed : ¬ (arg.instantiate upper.subst).Open) :
      False := by
    rcases directed position arg listed with covariant | isOpen
    · exact differs (other.symm.trans covariant)
    · exact closed isOpen
  refine .applied (fun position arg listed _ => each arg (List.mem_of_getElem? listed)) ?_ ?_ ?_
  · exact fun position arg listed other closed => absurd (directed_of listed other nofun closed) id
  · exact fun position arg listed other closed => absurd (directed_of listed other nofun closed) id
  · exact fun position arg listed other closed => absurd (directed_of listed other nofun closed) id

/-- Where a component follows its parameters, what becomes of it on one side admits what becomes of
it on the other. -/
theorem Follows.argumentContains (follows : hierarchy.Follows upper lower height tree)
    (covers : hierarchy.Leads bounds depth upper lower)
    (covered : hierarchy.Leads bounds depth lower upper) :
    ArgumentContains (hierarchy.Supertype bounds (depth + height)) .covariant
      (tree.instantiate upper.subst) (tree.instantiate lower.subst) := by
  have deepen {height : Nat} {sup sub : TypeTree}
      (above : hierarchy.Supertype bounds depth sup sub) :
      hierarchy.Supertype bounds (depth + height) sup sub := above.mono (Nat.le_add_right _ _)
  induction follows with
  | akin akin => exact .inl akin
  | everything unbounded => exact TypeTree.Unbounded.contains unbounded
  | var variance leads single =>
    exact ((covers _ variance leads).contains (instantiate_var_ne single)).mono fun _ _ => deepen
  | applied along plain across fixed ihAlong ihAcross =>
    refine .inr (.inr ⟨id, id, ?_⟩)
    exact argumentsContain_applied
      (fun position arg listed way => ihAlong position arg listed way covers covered) plain
      (fun position arg listed way closed => ihAcross position arg listed way closed covered covers)
      fixed
  | extends_ plain plainLower present _ ih =>
    have directed : Variance.covariant ≠ .invariant := nofun
    rw [instantiate_wildcard_plain directed plain, instantiate_wildcard_plain directed plainLower]
    exact argumentContains_extends present ((ih covers covered).of_plain plain directed)
  | extendsWildcard variance leads plain isLower present =>
    have directed : Variance.covariant ≠ .invariant := nofun
    have covered := covers _ variance leads
    rw [instantiate_var isLower] at covered
    rw [instantiate_wildcard_plain directed plain, instantiate_sameWay isLower]
    exact argumentContains_extends present (deepen (covered.above_bound plain))
  | extendsOpen variance leads isUpper plainLower present =>
    have directed : Variance.covariant ≠ .invariant := nofun
    have covered := covers _ variance leads
    rw [instantiate_var isUpper] at covered
    rw [instantiate_wildcard_plain directed plainLower, instantiate_sameWay isUpper]
    exact argumentContains_extends present (deepen (covered.bound_above plainLower))
  | super plain plainLower _ ih =>
    have turned : Variance.contravariant ≠ .invariant := nofun
    have directed : Variance.covariant ≠ .invariant := nofun
    rw [instantiate_wildcard_plain turned plain, instantiate_wildcard_plain turned plainLower]
    have below := ih covered covers
    exact argumentContains_super rfl (below.of_plain plainLower directed)
  | @superWildcard upper lower height param bound variance leads isUpper single =>
    have directed : Variance.contravariant ≠ .invariant := nofun
    have covered := covers _ variance leads
    rw [instantiate_var isUpper] at covered
    rw [instantiate_sameWay isUpper]
    by_cases wildcard : ((TypeTree.var param variance).instantiate lower.subst).IsWildcard
    · obtain ⟨inner, isLower⟩ := covered.exists_lower wildcard single
      rw [instantiate_sameWay isLower]
      rw [instantiate_var isLower] at covered
      exact (covered.contains nofun).mono fun _ _ => deepen
    · rw [instantiate_wildcard_plain directed wildcard]
      exact argumentContains_super rfl (deepen (covered.above_lower wildcard))
  | @superLenient upper lower height bound low lenient isLower =>
    have directed : Variance.contravariant ≠ .invariant := nofun
    have plain : ¬ (bound.instantiate upper.subst).IsWildcard := lenient.plain
    rw [instantiate_wildcard_plain directed plain]
    exact argumentContains_super isLower (supertype_of_akin (.inr (.inr lenient)))

end

/-! A component that is a parameter itself. -/

/-- What a covariant variable is compared by in the end: its first bound, or the first bound of
that, and so on. -/
inductive Roots (bounds : ParamRef → List TypeTree) : Nat → TypeTree → TypeTree → Prop where
  | here {tree : TypeTree} : Roots bounds 0 tree tree
  | bound {steps : Nat} {param : ParamRef} {root : TypeTree}
      (rest : Roots bounds steps ((bounds param).headD .any) root) :
      Roots bounds (steps + 1) (.var param .covariant) root

/-- A type that admits the covariant wildcard over what it admits, some steps deeper: it is neither
a variable nor a wildcard, or it is a contravariant variable whose first bound is no wildcard. -/
inductive Absorbs (bounds : ParamRef → List TypeTree) : Nat → TypeTree → Prop where
  | rigid {root : TypeTree} (rigid : root.Rigid) : Absorbs bounds 1 root
  | contravariant {param : ParamRef} (plain : ¬ ((bounds param).headD .any).IsWildcard) :
      Absorbs bounds 3 (.var param .contravariant)

section
variable {tree root bound : TypeTree} {steps extra : Nat}

/-- What its root admits, a variable admits. -/
theorem Roots.lift (roots : Roots bounds steps tree root) {sub : TypeTree}
    (above : hierarchy.Supertype bounds depth root sub) :
    hierarchy.Supertype bounds (depth + steps) tree sub := by
  induction roots with
  | here => exact above
  | bound _ ih => exact .inr (ih above)

/-- A root that is neither a variable nor a wildcard is above what it is the root of. -/
theorem Roots.above_tree (roots : Roots bounds steps tree root) (rigid : root.Rigid) :
    hierarchy.Supertype bounds steps root tree := by
  induction roots with
  | here => exact supertype_self
  | @bound steps param root rest ih =>
    cases listed : bounds param with
    | nil =>
      rw [listed] at rest
      cases rest
      exact supertype_of_akin (.inr (.inl trivial))
    | cons first others =>
      rw [listed] at ih
      refine .inr ((structural_of_rigid rigid).mpr ⟨first, ?_, ih rigid⟩)
      rw [listed]
      exact List.mem_cons_self

/-- A wildcard over what is above the first bound of a contravariant variable. -/
theorem contravariant_extends (plain : ¬ ((bounds param).headD .any).IsWildcard)
    (above : hierarchy.Supertype bounds depth bound ((bounds param).headD .any)) :
    hierarchy.Supertype bounds (depth + 2) (.var param .contravariant)
      (.wildcard .covariant bound) := by
  refine .inr ?_
  by_cases same : (bounds param).headD .any = .any
  · refine supertype_of_akin (.inr (.inr ?_))
    rw [same]
    trivial
  · rw [← TypeTree.upper_of_plain plain] at same above
    exact .inr (.inr ⟨same, above⟩)

/-- The covariant wildcard over what a type is the root of. -/
theorem Absorbs.extends_tree (absorbs : Absorbs bounds extra root)
    (roots : Roots bounds steps tree root) :
    hierarchy.Supertype bounds (steps + extra) root (.wildcard .covariant tree) := by
  cases absorbs with
  | rigid rigid => exact .inr ((structural_of_rigid rigid).mpr (roots.above_tree rigid))
  | @contravariant param plain =>
    have first : hierarchy.Supertype bounds 1 (.var param .contravariant)
        ((bounds param).headD .any) :=
      .inr supertype_self
    exact (contravariant_extends plain (roots.lift first)).mono (by omega)

theorem Absorbs.extends_bound (absorbs : Absorbs bounds extra root)
    (above : hierarchy.Supertype bounds depth root bound) :
    hierarchy.Supertype bounds (max (depth + 1) extra) root (.wildcard .covariant bound) := by
  by_cases akin : root.Akin bound
  · rcases akin with rfl | lenient | lenient
    · exact (absorbs.extends_tree .here).mono (by omega)
    · exact supertype_of_akin (.inr (.inl lenient))
    · cases absorbs with
      | rigid rigid =>
        have above : hierarchy.Supertype bounds 0 root bound := .inr (.inr lenient)
        have wildcard : hierarchy.Supertype bounds 1 root (.wildcard .covariant bound) :=
          .inr ((structural_of_rigid rigid).mpr above)
        exact wildcard.mono (by omega)
      | @contravariant param plain =>
        have above : hierarchy.Supertype bounds 0 bound ((bounds param).headD .any) :=
          .inr (.inl lenient)
        exact (contravariant_extends plain above).mono (by omega)
  · obtain ⟨less, rfl, inside⟩ := above.exists_structural akin
    cases absorbs with
    | rigid rigid =>
      have wildcard : hierarchy.Supertype bounds (less + 1 + 1) root (.wildcard .covariant bound) :=
        .inr ((structural_of_rigid rigid).mpr above)
      exact wildcard.mono (by omega)
    | contravariant plain => exact (contravariant_extends plain inside).mono (by omega)

/-- Where the root of a type absorbs, so does the type, at twice the way to the root. -/
theorem Roots.extends_bound (roots : Roots bounds steps tree root)
    (absorbs : Absorbs bounds extra root) (above : hierarchy.Supertype bounds depth tree bound) :
    hierarchy.Supertype bounds (max (depth + 1) (2 * steps + extra)) tree
      (.wildcard .covariant bound) := by
  induction roots generalizing depth with
  | here => exact (absorbs.extends_bound above).mono (by omega)
  | @bound steps param root rest ih =>
    have descend {less : Nat}
        (above : hierarchy.Supertype bounds less ((bounds param).headD .any) bound)
        (within : less ≤ depth - 1) :
        hierarchy.Supertype bounds (max (depth + 1) (2 * (steps + 1) + extra))
          (.var param .covariant) (.wildcard .covariant bound) := by
      have wildcard : hierarchy.Supertype bounds (max (less + 1) (2 * steps + extra) + 1)
          (.var param .covariant) (.wildcard .covariant bound) := .inr (ih absorbs above)
      exact wildcard.mono (by omega)
    by_cases akin : (TypeTree.var param .covariant).Akin bound
    · rcases akin with rfl | lenient | lenient
      · exact ((Roots.bound rest).lift (absorbs.extends_tree (.bound rest))).mono (by omega)
      · exact lenient.elim
      · have above : hierarchy.Supertype bounds 0 ((bounds param).headD .any) bound :=
          .inr (.inr lenient)
        exact descend above (Nat.zero_le _)
    · obtain ⟨less, rfl, inside⟩ := above.exists_structural akin
      exact descend inside (Nat.le_refl _)

theorem Roots.plain (roots : Roots bounds steps tree root) (absorbs : Absorbs bounds extra root) :
    ¬ tree.IsWildcard := by
  cases roots with
  | here =>
    cases absorbs with
    | rigid rigid =>
      cases tree with
      | wildcard => exact rigid.elim
      | _ => exact id
    | contravariant => exact id
  | bound => exact id

end

/-- A component of which what becomes of it on one side is above what becomes of it on the other: it
follows its parameters, as an argument or as an instance of a class, or it is a parameter for whose
argument a covariant wildcard is put in. -/
inductive Suits (hierarchy : TreeHierarchy) (bounds : ParamRef → List TypeTree) (upper lower : Side)
    (depth height : Nat) : TypeTree → Prop where
  | follows {component : TypeTree} (follows : hierarchy.Follows upper lower height component) :
      Suits hierarchy bounds upper lower depth height component
  | applied {base : Name} {args : List TypeTree}
      (follows : hierarchy.Follows upper lower (height + 1) (.applied base args)) :
      Suits hierarchy bounds upper lower depth height (.applied base args)
  | param {param : ParamRef} {bound root : TypeTree} {steps extra : Nat} (variance : Variance)
      (leads : upper.leads param) (isLower : lower.subst param = some (.wildcard .covariant bound))
      (roots : Roots bounds steps ((TypeTree.var param variance).instantiate upper.subst) root)
      (absorbs : Absorbs bounds extra root) (within : 2 * steps + extra ≤ depth + height + 1) :
      Suits hierarchy bounds upper lower depth height (.var param variance)

theorem Suits.supertype {upper lower : Side} {height : Nat} {component : TypeTree}
    (suits : hierarchy.Suits bounds upper lower depth height component)
    (covers : hierarchy.Leads bounds depth upper lower)
    (covered : hierarchy.Leads bounds depth lower upper) :
    hierarchy.Supertype bounds (depth + height + 1) (component.instantiate upper.subst)
      (component.instantiate lower.subst) := by
  cases suits with
  | follows follows => exact (follows.argumentContains covers covered).supertype
  | applied follows =>
    rcases follows.argumentContains covers covered with akin | wildcard | ⟨_, _, above⟩
    · exact supertype_of_akin akin
    · exact wildcard.elim
    · exact above
  | param variance leads isLower roots absorbs within =>
    have covered := covers _ variance leads
    rw [instantiate_var isLower] at covered ⊢
    exact (roots.extends_bound absorbs (covered.above_bound (roots.plain absorbs))).mono (by omega)

/-! Components of a narrowed type. -/

/-- How the argument of the narrowed type for a parameter is related to that of a type below the
scrutinee: because the variant hands the parameter to the class of the scrutinee so, or because the
two types happen to be related. -/
def Settles (hierarchy : TreeHierarchy) (bounds : ParamRef → List TypeTree) (depth : Nat)
    (variant : Name) (scrutinee : TypeTree) (args : List TypeTree) (rising : Bool)
    (param : ParamRef) : Prop :=
  hierarchy.HandedTo variant scrutinee (hierarchy.bindArgs variant args) rising param ∧
      (rising = false → (hierarchy.inferred variant scrutinee param).isSome) ∨
    ∀ variance, hierarchy.Relates bounds depth rising
      ((TypeTree.var param variance).instantiate
        (hierarchy.bindArgs variant (hierarchy.narrow variant scrutinee).args))
      ((TypeTree.var param variance).instantiate (hierarchy.bindArgs variant args))

/-- What the narrowed type puts in for the parameters of a variant. -/
def narrowSide (hierarchy : TreeHierarchy) (bounds : ParamRef → List TypeTree) (depth : Nat)
    (variant : Name) (scrutinee : TypeTree) (args : List TypeTree) : Side where
  subst := hierarchy.bindArgs variant (hierarchy.narrow variant scrutinee).args
  leads := hierarchy.Settles bounds depth variant scrutinee args true

/-- What a type of the variant puts in for them. -/
def givenSide (hierarchy : TreeHierarchy) (bounds : ParamRef → List TypeTree) (depth : Nat)
    (variant : Name) (scrutinee : TypeTree) (args : List TypeTree) : Side where
  subst := hierarchy.bindArgs variant args
  leads := hierarchy.Settles bounds depth variant scrutinee args false

/-- A component of a variant of which the type of a scrutinee says enough. -/
def Determined (hierarchy : TreeHierarchy) (bounds : ParamRef → List TypeTree) (variant : Name)
    (scrutinee : TypeTree) (args : List TypeTree) (depth height : Nat) (component : TypeTree) :
    Prop :=
  hierarchy.Suits bounds (hierarchy.narrowSide bounds depth variant scrutinee args)
    (hierarchy.givenSide bounds depth variant scrutinee args) depth height component

/-- Where the scrutinee settles how the argument of the narrowed type is related to that of a type
below the scrutinee, they are related so. -/
theorem WellFormed.settles_relates (formed : hierarchy.WellFormed) {variant : Name}
    {scrutinee : TypeTree} {args : List TypeTree} {rising : Bool}
    (full : args.length = (hierarchy.params variant).length)
    (above : hierarchy.Supertype bounds (depth + 1) scrutinee (.applied variant args))
    (settles : hierarchy.Settles bounds depth variant scrutinee args rising param)
    (variance : Variance) : hierarchy.Relates bounds depth rising
      ((TypeTree.var param variance).instantiate
        (hierarchy.bindArgs variant (hierarchy.narrow variant scrutinee).args))
      ((TypeTree.var param variance).instantiate (hierarchy.bindArgs variant args)) := by
  rcases settles with ⟨handed, determined⟩ | related
  · by_cases own : param ∈ hierarchy.paramRefs variant
    · obtain ⟨_, _, type, _, _, answer⟩ := formed.regular.exists_bindArgs full own
      have generic : hierarchy.params variant ≠ [] := by
        intro none
        simp [paramRefs, none] at own
      rw [instantiate_var (formed.narrow_bindArgs scrutinee own), instantiate_var answer]
      cases binds : hierarchy.inferred variant scrutinee param with
      | some found => exact formed.inferred_relates full generic above handed answer binds
      | none =>
        cases rising with
        | true => exact .inl (.inr (.inl trivial))
        | false => simp [binds] at determined
    · have other (args : List TypeTree) : hierarchy.bindArgs variant args param = none :=
        TreeSubstitution.ofArgs_other own args
      simp only [TypeTree.instantiate, other]
      cases rising with
      | true => exact covers_self
      | false => exact covers_self
  · exact related variance

/-- The component of a narrowed type is above that of every type of the variant below the
scrutinee. -/
theorem WellFormed.narrow_determined (formed : hierarchy.WellFormed) {variant : Name}
    {scrutinee component : TypeTree} {args : List TypeTree} {height : Nat}
    (full : args.length = (hierarchy.params variant).length)
    (above : hierarchy.Supertype bounds (depth + 1) scrutinee (.applied variant args))
    (determined : hierarchy.Determined bounds variant scrutinee args depth height component) :
    hierarchy.Supertype bounds (depth + height + 1)
      (component.instantiate (hierarchy.bindArgs variant (hierarchy.narrow variant scrutinee).args))
      (component.instantiate (hierarchy.bindArgs variant args)) :=
  determined.supertype (fun _ variance settles =>
    formed.settles_relates full above settles variance)
    fun _ variance settles => formed.settles_relates full above settles variance

end TreeHierarchy

namespace ClassHierarchy
open TypePool

variable {hierarchy : ClassHierarchy} {pool : TypePool}

/-- The components of a type of a variant are the declared ones with its arguments put in. -/
theorem componentsOf_eq {variant : Name} {tree : TypeTree} (base : tree.base? = some variant) :
    (hierarchy.unfold pool).componentsOf tree = (hierarchy.components variant).map fun component =>
      (pool.tree component).instantiate ((hierarchy.unfold pool).bindArgs variant tree.args) := by
  simp only [TreeHierarchy.componentsOf, TreeHierarchy.instantiateParts, base,
    ClassHierarchy.unfold, List.map_map]
  rfl

/-- The components that a pattern sees and those of an instance, built from the types that the pool
had before. -/
theorem narrowed_components (valid : pool.Valid) (held : hierarchy.HeldBy pool) {between : TypePool}
    (growth : pool.Growth between) {scrutinee type : TypeRef} (scrutineeHere : pool.Has scrutinee)
    (typeHere : pool.Has type) (variant : Name) :
    PoolM.Builds (do
      let narrowed ← hierarchy.narrow variant scrutinee
      return (← hierarchy.componentsOf narrowed, ← hierarchy.componentsOf type)) between
        fun result after => after.DenotesAll result.1 ((hierarchy.unfold pool).componentsOf
          ((hierarchy.unfold pool).narrow variant (pool.tree scrutinee))) ∧
        after.DenotesAll result.2 ((hierarchy.unfold pool).componentsOf (pool.tree type)) := by
  refine PoolM.Builds.bind
    (PoolM.Builds.narrow variant (held.grow growth) (growth.has scrutineeHere))
    fun narrowed first grown denotesTree => ?_
  have whole := growth.trans grown
  refine PoolM.Builds.bind (PoolM.Builds.componentsOf denotesTree.has (held.grow whole))
    fun columns second more denotes => ?_
  have all := whole.trans more
  refine PoolM.Builds.bind (PoolM.Builds.componentsOf (all.has typeHere) (held.grow all))
    fun parts third last denotesParts => PoolM.Builds.pure ⟨?_, ?_⟩
  · refine ⟨fun column member => last.has (denotes.1.has column member), fun small => ?_⟩
    have smallSecond := last.small small
    rw [last.map_tree_eq more.valid denotes.1.has, denotes.1.reads smallSecond,
      denotesTree.reads (more.small smallSecond), held.unfold_eq valid whole,
        held.unfold_eq valid growth, growth.tree_eq valid scrutineeHere]
  · refine ⟨denotesParts.1.has, fun small => ?_⟩
    rw [denotesParts.1.reads small, held.unfold_eq valid all, all.tree_eq valid typeHere]

/-- Narrowing is sound: where the type of a scrutinee is above an instance of a variant, the
components that a pattern sees are above those of the instance, as far as the scrutinee determines
them. -/
theorem narrow_sound (valid : pool.Valid) (held : hierarchy.HeldBy pool)
    (formed : (hierarchy.unfold pool).WellFormed) {variant : Name} {scrutinee type : TypeRef}
    (scrutineeHere : pool.Has scrutinee) (typeHere : pool.Has type) {args : List TypeTree}
    (same : pool.tree type = .applied variant args)
    (full : args.length = (hierarchy.typeParams variant).length) (depth height : Nat)
    (shallow : depth + height + 1 ≤ relationDepth) {between : TypePool}
    (above : (hierarchy.isSupertypeWithin (depth + 1) scrutinee type).run pool =
      .ok (true, between)) :
    ∃ columns parts after, (do
        let narrowed ← hierarchy.narrow variant scrutinee
        return (← hierarchy.componentsOf narrowed, ← hierarchy.componentsOf type)).run between =
          .ok ((columns, parts), after) ∧
      (after.Small → columns.length = parts.length ∧
        ∀ (position : Nat) (column part component : TypeRef), columns[position]? = some column →
          parts[position]? = some part →
          (hierarchy.components variant)[position]? = some component →
          (hierarchy.unfold pool).Determined pool.boundTrees variant (pool.tree scrutinee) args
            depth height (pool.tree component) →
          ∃ answer last, (hierarchy.isSupertype column part).run after = .ok (answer, last) ∧
            (last.Small → answer = true)) := by
  have reads := isSupertypeWithin_reads valid held (depth + 1) pool valid.growth scrutinee type
    scrutineeHere typeHere
  obtain ⟨growth, told⟩ := PoolM.Builds.ensures reads valid _ _ above
  obtain ⟨⟨columns, parts⟩, after, ran, grown, denotes, denotesParts⟩ :=
    narrowed_components valid held growth scrutineeHere typeHere variant growth.valid
  refine ⟨columns, parts, after, ran, fun small => ?_⟩
  have whole := growth.trans grown
  have narrowBase : ((hierarchy.unfold pool).narrow variant (pool.tree scrutinee)).base? =
      some variant :=
    TypeTree.base?_instantiate (TreeHierarchy.base?_selfType _ _) _
  have columnTrees := denotes.reads small
  have partTrees := denotesParts.reads small
  rw [componentsOf_eq narrowBase] at columnTrees
  rw [same, componentsOf_eq rfl] at partTrees
  constructor
  · have columnCount := congrArg List.length columnTrees
    have partCount := congrArg List.length partTrees
    simp only [List.length_map] at columnCount partCount
    exact columnCount.trans partCount.symm
  · intro position column part component columnListed partListed componentListed determined
    have columnTree := congrArg (·[position]?) columnTrees
    have partTree := congrArg (·[position]?) partTrees
    simp only [List.getElem?_map, columnListed, partListed, componentListed, Option.map_some,
      Option.some.injEq] at columnTree partTree
    have columnHere := denotes.has column (List.mem_of_getElem? columnListed)
    have partHere := denotesParts.has part (List.mem_of_getElem? partListed)
    obtain ⟨answer, last, asked, _, answers⟩ :=
      isSupertype_tells grown.valid (held.grow whole) columnHere partHere grown.valid
    refine ⟨answer, last, asked, fun small => (answers small).mpr ?_⟩
    rw [held.unfold_eq valid whole, whole.boundTrees_eq valid, columnTree, partTree]
    have related := (told (grown.small ‹after.Small›)).mp rfl
    rw [same] at related
    have full : args.length = ((hierarchy.unfold pool).params variant).length := by
      simpa [ClassHierarchy.unfold] using full
    exact (formed.narrow_determined full related determined).mono shallow

/-- Whether a scrutinee is above a type of a variant, and which components of the narrowed type are
above those of the type. -/
def compareParts (hierarchy : ClassHierarchy) (variant : Name) (scrutinee type : TypeRef) :
    PoolM (Bool × List Bool) := do
  let above ← hierarchy.isSupertype scrutinee type
  let columns ← hierarchy.componentsOf (← hierarchy.narrow variant scrutinee)
  let parts ← hierarchy.componentsOf type
  return (above, ← (columns.zip parts).mapM fun (column, part) => hierarchy.isSupertype column part)

/-- `Some<U>` extends `Option<U>`, whose parameter is covariant like that of `Box`; `Drain<D>`
extends `Sink<D>` and `Tray<W>` extends `Sink<List<? super W>>`, with a contravariant parameter. -/
def optionHeaders : List ClassHeader := [
  { name := "Shape" },
  { name := "Circle", superclass := some ⟨7⟩ },
  { name := "Option", typeParams := [⟨0⟩] },
  { name := "Some", typeParams := [⟨1⟩], superclass := some ⟨10⟩ },
  { name := "Box", typeParams := [⟨2⟩] },
  { name := "List", typeParams := [⟨3⟩] },
  { name := "Sink", typeParams := [⟨4⟩] },
  { name := "Drain", typeParams := [⟨5⟩], superclass := some ⟨19⟩ },
  { name := "Tray", typeParams := [⟨6⟩], superclass := some ⟨23⟩ }]

/-- The declared types, of which `U`, `Box<Box<U>>`, `List<U>`, `List<List<U>>`, `Sink<U>` and
`List<? extends U>` are the components of `Some`, scrutinees with types of the variants, and a
covariant variable for each level of the test of subtyping, bounded by the one before. -/
def optionPool : TypePool :=
  .ofEntries
    (#[.any, .void, .int, .float, .bool, .char, .string, .class_ "Shape", .class_ "Circle",
        .var ⟨1⟩ .invariant, .applied "Option" [⟨9⟩], .applied "Box" [⟨9⟩], .applied "Box" [⟨11⟩],
        .applied "List" [⟨9⟩], .applied "List" [⟨13⟩], .applied "Sink" [⟨9⟩],
        .wildcard .covariant ⟨9⟩, .applied "List" [⟨16⟩], .var ⟨5⟩ .invariant,
        .applied "Sink" [⟨18⟩], .var ⟨6⟩ .invariant, .wildcard .contravariant ⟨20⟩,
        .applied "List" [⟨21⟩], .applied "Sink" [⟨22⟩], .class_ "Option", .applied "Some" [.int],
        .applied "Option" [⟨7⟩], .applied "Some" [⟨8⟩], .wildcard .covariant ⟨7⟩,
        .applied "Option" [⟨28⟩], .wildcard .covariant ⟨8⟩, .applied "Some" [⟨30⟩],
        .applied "Some" [.any], .var ⟨7⟩ .invariant, .wildcard .covariant ⟨33⟩,
        .applied "Option" [⟨34⟩], .applied "Some" [⟨34⟩], .applied "Sink" [⟨8⟩],
        .applied "Drain" [⟨7⟩], .wildcard .contravariant ⟨7⟩, .applied "List" [⟨39⟩],
        .applied "Sink" [⟨40⟩], .applied "Tray" [⟨8⟩]] ++
      ((List.range 33).map fun level => TypeNode.var ⟨8 + level⟩ .covariant).toArray ++
      #[.wildcard .covariant ⟨75⟩, .applied "Option" [⟨76⟩], .applied "Some" [⟨76⟩]])
    (#[⟨"T", "Option", .covariant, []⟩, ⟨"U", "Some", .invariant, []⟩, ⟨"B", "Box", .covariant, []⟩,
        ⟨"E", "List", .invariant, []⟩, ⟨"S", "Sink", .contravariant, []⟩,
        ⟨"D", "Drain", .invariant, []⟩, ⟨"W", "Tray", .invariant, []⟩,
        ⟨"Q", "m", .invariant, []⟩] ++
      ((List.range 33).map fun level =>
        TypeParam.mk "K" "m" .covariant [if level = 0 then ⟨7⟩ else ⟨42 + level⟩]).toArray)

def optionClasses : ClassHierarchy :=
  { ofHeaders optionHeaders with
    components name :=
      if name = "Some" then [⟨9⟩, ⟨12⟩, ⟨13⟩, ⟨14⟩, ⟨15⟩, ⟨17⟩]
      else if name = "Drain" then [⟨18⟩] else if name = "Tray" then [⟨20⟩] else [] }

theorem optionPool_valid : optionPool.Valid := by decide +kernel

theorem optionClasses_held : optionClasses.HeldBy optionPool := by
  have held : (ofHeaders optionHeaders).HeldBy optionPool := heldBy_ofHeaders (by decide +kernel)
  have some : ∀ type ∈ [⟨9⟩, ⟨12⟩, ⟨13⟩, ⟨14⟩, ⟨15⟩, ⟨17⟩], optionPool.Has type := by decide +kernel
  have others : ∀ type ∈ [⟨18⟩, ⟨20⟩], optionPool.Has type := by decide +kernel
  refine ⟨held.supertypes, fun name type member => ?_, held.params, held.classes⟩
  simp only [optionClasses] at member
  split at member
  · exact some type member
  split at member
  · exact others type (List.mem_cons.mpr (.inl (List.mem_singleton.mp member)))
  split at member
  · exact others type (List.mem_cons_of_mem _ member)
  · cases member

theorem optionClasses_wellFormed : (optionClasses.unfold optionPool).WellFormed := by
  have declared : ∀ header ∈ optionHeaders, ∀ type ∈ header.supertypes,
      header.name = "Circle" ∧ optionPool.tree type = .class_ "Shape" ∨
      header.name = "Some" ∧ header.typeParams = [⟨1⟩] ∧
        optionPool.tree type = .applied "Option" [.var ⟨1⟩ .invariant] ∨
      header.name = "Drain" ∧ header.typeParams = [⟨5⟩] ∧
        optionPool.tree type = .applied "Sink" [.var ⟨5⟩ .invariant] ∨
      header.name = "Tray" ∧ header.typeParams = [⟨6⟩] ∧ optionPool.tree type =
        .applied "Sink" [.applied "List" [.wildcard .contravariant (.var ⟨6⟩ .invariant)]] := by
    decide +kernel
  have regular : ((ofHeaders optionHeaders).unfold optionPool).Regular := by
    refine regular_ofHeaders (by decide +kernel) (fun header listed type inside => ?_)
      (fun header listed type inside param mentioned => ?_) (by decide) (by decide)
    · rcases declared header listed type inside with
        ⟨_, tree⟩ | ⟨_, _, tree⟩ | ⟨_, _, tree⟩ | ⟨_, _, tree⟩ <;>
        simp [tree, TypeTree.Plain, TypeTree.PlainAll, TypeTree.IsWildcard]
    · rcases declared header listed type inside with
        ⟨_, tree⟩ | ⟨_, params, tree⟩ | ⟨_, params, tree⟩ | ⟨_, params, tree⟩ <;>
        rw [tree] at mentioned
      · simp at mentioned
      · simpa [params, eq_comm] using mentioned
      · simpa [params, eq_comm] using mentioned
      · simp only [TypeTree.mentions_applied, List.mem_singleton, exists_eq_left] at mentioned
        cases mentioned with
        | bound inside => simpa [params, eq_comm] using inside
  refine ⟨regular.classes, regular.plain, regular.own, regular.distinct, regular.apart, ?_⟩
  let rank (name : Name) : Nat := if name ∈ ["Circle", "Some", "Drain", "Tray"] then 1 else 0
  have ranked : ∀ header ∈ optionHeaders, ∀ type ∈ header.supertypes,
      ∀ base ∈ (optionPool.tree type).base?, rank base < rank header.name := by decide +kernel
  refine ⟨rank, fun name tree member base isClass => ?_⟩
  obtain ⟨type, listed, rfl⟩ := List.mem_map.mp member
  have listed : type ∈ (ofHeaders optionHeaders).supertypes name := listed
  rw [supertypes_ofHeaders] at listed
  obtain ⟨header, contained, rfl, _, inside⟩ := exists_header listed
  exact ranked header contained type inside base isClass

/-- A wildcard over the value of an option follows the shape that the option is over. -/
theorem optionClasses_determined :
    (optionClasses.unfold optionPool).Determined optionPool.boundTrees "Some" (optionPool.tree ⟨26⟩)
      [.class_ "Circle"] 64 0 (optionPool.tree ⟨17⟩) := by
  have isComponent : optionPool.tree ⟨17⟩ = .applied "List"
      [.wildcard .covariant (.var ⟨1⟩ .invariant)] := by
    decide +kernel
  have isScrutinee : optionPool.tree ⟨26⟩ = .applied "Option" [.class_ "Shape"] := by decide +kernel
  rw [isComponent, isScrutinee]
  have handed : (optionClasses.unfold optionPool).HandedTo "Some"
      (.applied "Option" [.class_ "Shape"])
      ((optionClasses.unfold optionPool).bindArgs "Some" [.class_ "Circle"]) true ⟨1⟩ := by
    have generic : (optionClasses.unfold optionPool).ancestorAt?
        ((optionClasses.unfold optionPool).selfType "Some") "Option" =
          some (.applied "Option" [.var ⟨1⟩ .invariant]) := by decide +kernel
    have own : (optionClasses.unfold optionPool).ancestorAt?
        (.applied "Option" [.class_ "Shape"]) "Option" =
        some (.applied "Option" [.class_ "Shape"]) := by decide +kernel
    have covariant : (optionClasses.unfold optionPool).declared "Option" 0 = .covariant := by
      decide +kernel
    intro base ancestor isBase inherits
    cases isBase
    cases generic.symm.trans inherits
    refine .applied own (fun position formal arg listed _ _ _ => ?_)
      (fun position formal arg listed _ _ contravariant _ => ?_)
    · rw [List.mem_singleton.mp (List.mem_of_getElem? listed)]
      exact .var .invariant nofun
    · cases position with
      | zero => cases covariant.symm.trans contravariant
      | succ => cases listed
  have narrowed : ((optionClasses.unfold optionPool).narrowSide optionPool.boundTrees 64 "Some"
      (.applied "Option" [.class_ "Shape"]) [.class_ "Circle"]).subst ⟨1⟩ =
      some (.class_ "Shape") := by
    decide +kernel
  have bound : ((optionClasses.unfold optionPool).givenSide optionPool.boundTrees 64 "Some"
      (.applied "Option" [.class_ "Shape"]) [.class_ "Circle"]).subst ⟨1⟩ =
      some (.class_ "Circle") := by
    decide +kernel
  have plain {subst : TreeSubstitution} {name : Name} (found : subst ⟨1⟩ = some (.class_ name)) :
      ¬ ((TypeTree.var ⟨1⟩ .invariant).instantiate subst).IsWildcard := by
    rw [TreeHierarchy.instantiate_var found]
    exact id
  refine .applied (.of_args (fun position arg listed => .inr (.inl ?_)) fun arg member => ?_)
  · have directed : Variance.covariant ≠ .invariant := nofun
    rw [List.mem_singleton.mp (List.mem_of_getElem? listed),
      TreeHierarchy.instantiate_wildcard_plain directed (plain narrowed)]
    trivial
  · rw [List.mem_singleton.mp member]
    refine .extends_ (plain narrowed) (plain bound) (.inr ?_)
      (.var .invariant (.inl ⟨handed, nofun⟩) ?_)
    · rw [TreeHierarchy.instantiate_var bound]
      exact nofun
    · rw [bound]
      exact nofun

/-- A list of circles of some kind is one of shapes of some kind. -/
theorem narrow_sound_option : ∃ between columns parts after,
    (optionClasses.isSupertype ⟨26⟩ ⟨27⟩).run optionPool = .ok (true, between) ∧
    (do
        let narrowed ← optionClasses.narrow "Some" ⟨26⟩
        return (← optionClasses.componentsOf narrowed, ← optionClasses.componentsOf ⟨27⟩)).run
          between = .ok ((columns, parts), after) ∧ after.Small ∧
    ∃ column part answer last, columns[5]? = some column ∧ parts[5]? = some part ∧
      (optionClasses.isSupertype column part).run after = .ok (answer, last) ∧
      (last.Small → answer = true) := by
  have isApplied : optionPool.tree ⟨27⟩ = .applied "Some" [.class_ "Circle"] := by decide +kernel
  obtain ⟨⟨⟨columns, parts⟩, after⟩, computed, small, column, part⟩ := Except.exists_ok
    ((optionClasses.isSupertype ⟨26⟩ ⟨27⟩).run optionPool >>= fun asked => (do
        let narrowed ← optionClasses.narrow "Some" ⟨26⟩
        return (← optionClasses.componentsOf narrowed, ← optionClasses.componentsOf ⟨27⟩)).run
          asked.2)
    (fun result => result.2.Small ∧ 5 < result.1.1.length ∧ 5 < result.1.2.length)
    (by decide +kernel)
  obtain ⟨⟨above, between⟩, asked, ran⟩ := Except.bind_eq_ok computed
  obtain ⟨_, answered, accepts⟩ := Except.exists_ok
    ((optionClasses.isSupertype ⟨26⟩ ⟨27⟩).run optionPool) (·.1 = true) (by decide +kernel)
  cases asked.symm.trans answered
  cases accepts
  obtain ⟨_, _, _, again, covers⟩ := narrow_sound optionPool_valid optionClasses_held
    optionClasses_wellFormed (by decide : optionPool.Has ⟨26⟩) (by decide) isApplied rfl 64 0
    (Nat.le_refl relationDepth) asked
  cases ran.symm.trans again
  obtain ⟨answer, last, compared, holds⟩ :=
    (covers small).2 5 _ _ ⟨17⟩ (List.getElem?_eq_getElem column)
    (List.getElem?_eq_getElem part) rfl optionClasses_determined
  exact ⟨between, columns, parts, after, asked, ran, small, _, _, answer, last,
    List.getElem?_eq_getElem column, List.getElem?_eq_getElem part, compared, holds⟩

/-- For hierarchies that are not well-formed: in each the components of `Stray` are its
parameter. -/
def strayPool : TypePool :=
  .ofEntries
    #[.any, .void, .int, .float, .bool, .char, .string, .var ⟨0⟩ .invariant, .applied "Box" [⟨7⟩],
      .applied "Box" [.int], .applied "Stray" [⟨9⟩], .class_ "Mid", .applied "Stray" [.int],
      .applied "Low" [⟨7⟩], .applied "Option" [⟨13⟩], .applied "High" [.int],
      .applied "Low" [.string], .applied "Option" [⟨15⟩]]
    #[⟨"T", "Stray", .invariant, []⟩, ⟨"B", "Box", .invariant, []⟩, ⟨"O", "Option", .covariant, []⟩,
      ⟨"L", "Low", .invariant, []⟩, ⟨"H", "High", .invariant, []⟩]

def strayClasses (headers : List ClassHeader) : ClassHierarchy :=
  { ofHeaders headers with components name := if name = "Stray" then [⟨7⟩] else [] }

theorem strayClasses_held {headers : List ClassHeader}
    (heldBy : ∀ header ∈ headers, header.HeldBy strayPool) :
    (strayClasses headers).HeldBy strayPool := by
  have held := heldBy_ofHeaders heldBy
  refine ⟨held.supertypes, fun name type member => ?_, held.params, held.classes⟩
  simp only [strayClasses] at member
  split at member
  · rw [List.mem_singleton.mp member]
    decide
  · cases member

/-- `Stray<T>` extends `T` and implements `Box<T>`. -/
def ownVariable : List ClassHeader := [
  { name := "Box", typeParams := [⟨1⟩] },
  { name := "Stray", typeParams := [⟨0⟩], superclass := some ⟨7⟩, interfaces := [⟨8⟩] }]

/-- `Stray<T>` extends `Mid`, and that extends `Box<T>`. -/
def foreignVariable : List ClassHeader := [
  { name := "Box", typeParams := [⟨1⟩] },
  { name := "Mid", superclass := some ⟨8⟩ },
  { name := "Stray", typeParams := [⟨0⟩], superclass := some ⟨11⟩ }]

/-- `Stray<T>` extends `Option<Low<T>>`, and `Low<L>` and `High<H>` extend each other. -/
def cyclic : List ClassHeader := [
  { name := "Option", typeParams := [⟨2⟩] },
  { name := "Low", typeParams := [⟨3⟩], superclass := some ⟨15⟩ },
  { name := "High", typeParams := [⟨4⟩], superclass := some ⟨16⟩ },
  { name := "Stray", typeParams := [⟨0⟩], superclass := some ⟨14⟩ }]

/-- Components of an instance that are not below those of the narrowed type, though the scrutinee is
above the instance. -/
theorem narrow_loses_nested :
    (optionPool.Valid ∧ optionClasses.HeldBy optionPool ∧
      (optionClasses.unfold optionPool).WellFormed ∧
      -- `Option` and `Some<int>`: lists of lists of something are no lists of lists of integers
      (optionClasses.compareParts "Some" ⟨24⟩ ⟨25⟩).run' optionPool =
        .ok (true, [true, true, true, false, true, true]) ∧
      -- `Option<Shape>` and `Some<Circle>`: neither lists nor sinks of shapes are those of circles
      (optionClasses.compareParts "Some" ⟨26⟩ ⟨27⟩).run' optionPool =
        .ok (true, [true, true, false, false, false, true]) ∧
      -- `Option<? extends Shape>` and `Some<? extends Circle>`: a box of some circle is no box of a
      -- shape
      (optionClasses.compareParts "Some" ⟨29⟩ ⟨31⟩).run' optionPool =
        .ok (true, [true, false, false, false, false, true]) ∧
      -- `Option<Shape>` and `Some<any>`: a list of anything is no list of some shape
      (optionClasses.compareParts "Some" ⟨26⟩ ⟨32⟩).run' optionPool =
        .ok (true, [true, true, true, false, true, false]) ∧
      -- `Option<? extends Q>` and `Some<? extends Q>`: an invariant variable is above itself alone
      (optionClasses.compareParts "Some" ⟨35⟩ ⟨36⟩).run' optionPool =
        .ok (true, [false, false, false, false, false, true]) ∧
      -- `Sink<Circle>` and `Drain<Shape>`, `Sink<List<? super Shape>>` and `Tray<Circle>`
      (optionClasses.compareParts "Drain" ⟨37⟩ ⟨38⟩).run' optionPool = .ok (true, [false]) ∧
      (optionClasses.compareParts "Tray" ⟨41⟩ ⟨42⟩).run' optionPool = .ok (true, [false]) ∧
      -- the same of a variable whose bounds go deeper than the test of subtyping
      (optionClasses.compareParts "Some" ⟨77⟩ ⟨78⟩).run' optionPool =
        .ok (true, [false, false, false, false, false, true])) ∧
    strayPool.Valid ∧
      ((strayClasses ownVariable).HeldBy strayPool ∧
        ((strayClasses ownVariable).compareParts "Stray" ⟨9⟩ ⟨10⟩).run' strayPool =
          .ok (true, [false])) ∧
      ((strayClasses foreignVariable).HeldBy strayPool ∧
        ((strayClasses foreignVariable).compareParts "Stray" ⟨8⟩ ⟨12⟩).run' strayPool =
          .ok (true, [false])) ∧
      (strayClasses cyclic).HeldBy strayPool ∧
        ((strayClasses cyclic).compareParts "Stray" ⟨17⟩ ⟨12⟩).run' strayPool =
          .ok (true, [false]) := by
  refine ⟨⟨optionPool_valid, optionClasses_held, optionClasses_wellFormed, ?_, ?_, ?_, ?_, ?_,
    ?_, ?_, ?_⟩, by decide +kernel, ⟨strayClasses_held (by decide), ?_⟩,
      ⟨strayClasses_held (by decide), ?_⟩,
    strayClasses_held (by decide), ?_⟩
  all_goals decide +kernel

end ClassHierarchy
end ClassLang
