import ClassLang.Proofs.Type.Transitivity

/-! Coverage: when what is bound to a type parameter stands for all that its argument may be. An
argument that is compared with another one covers it, as far as one of them may be a wildcard and
the other one its bound. -/

namespace ClassLang

/-- An argument that is compared as it is, whatever the variance of its parameter: a wildcard, or a
type that relates to all. -/
def TypeTree.Open (tree : TypeTree) : Prop := tree.IsWildcard ∨ tree.Lenient

namespace TypeTree

/-- A type that contains every type as an argument. -/
def Unbounded : TypeTree → Prop
  | wildcard .invariant _ | wildcard .covariant any | any | unresolved _ => True
  | _ => False

theorem Lenient.plain {tree : TypeTree} (lenient : tree.Lenient) : ¬ tree.IsWildcard := by
  cases tree with
  | wildcard => exact lenient.elim
  | _ => exact id

theorem lower?_of_plain {tree : TypeTree} (plain : ¬ tree.IsWildcard) :
    tree.lower? = some tree := by
  cases tree with
  | wildcard => exact absurd trivial plain
  | _ => rfl

theorem upper_of_plain {tree : TypeTree} (plain : ¬ tree.IsWildcard) : tree.upper = tree := by
  cases tree with
  | wildcard => exact absurd trivial plain
  | _ => rfl

theorem covariantBound_of_plain {tree : TypeTree} (plain : ¬ tree.IsWildcard) :
    tree.covariantBound = tree :=
  covariantBound_of_ne (by rintro bound rfl; exact plain trivial)

/-- A wildcard over a type that is replaced by no wildcard. -/
theorem wildcardOver_plain {variance : Variance} (directed : variance ≠ .invariant)
    {bound replaced : TypeTree} (plain : ¬ replaced.IsWildcard) :
    wildcardOver variance bound replaced = wildcard variance replaced := by
  by_cases same : replaced = bound
  · rw [same, wildcardOver_self]
  · have other : ∀ inner innerBound, replaced ≠ .wildcard inner innerBound := by
      rintro inner innerBound rfl
      exact plain trivial
    rw [wildcardOver_other variance same other, if_neg directed]

end TypeTree

namespace TreeHierarchy

variable {hierarchy : TreeHierarchy} {bounds : ParamRef → List TypeTree}
  {subst given : TreeSubstitution} {param : ParamRef} {depth more : Nat} {declared : Variance}
  {found type : TypeTree}

/-! What arguments contain. -/

/-- Except for types that are closed, arguments of a contravariant parameter are compared like those
of a covariant one. -/
theorem ArgumentContains.straight {deeper : TreeTest} {sup sub : TypeTree}
    (along : declared ≠ .contravariant ∨ sup.Open)
    (contains : ArgumentContains deeper declared sup sub) :
    ArgumentContains deeper .covariant sup sub := by
  rcases contains with akin | wildcard | ⟨supPlain, subPlain, compared⟩
  · exact .inl akin
  · exact .inr (.inl wildcard)
  rcases along with directed | isOpen
  · cases declared with
    | covariant => exact .inr (.inr ⟨supPlain, subPlain, compared⟩)
    | contravariant => exact absurd rfl directed
    | invariant => exact compared.elim
  · exact .inl (.inr (.inl (isOpen.resolve_left supPlain)))

/-- What an open argument contains it contains whatever the variance. -/
theorem ArgumentContains.of_open {deeper : TreeTest} {sup sub : TypeTree} (isOpen : sup.Open)
    (contains : ArgumentContains deeper .covariant sup sub) :
    ArgumentContains deeper declared sup sub := by
  rcases contains with akin | wildcard | ⟨supPlain, _, _⟩
  · exact .inl akin
  · exact .inr (.inl wildcard)
  · exact .inl (.inr (.inl (isOpen.resolve_left supPlain)))

/-- Closed arguments of a contravariant parameter are compared the other way round. -/
theorem ArgumentContains.turned {deeper : TreeTest} {sup sub : TypeTree} (closed : ¬ sup.Open)
    (contains : ArgumentContains deeper .contravariant sup sub) :
    ArgumentContains deeper .covariant sub sup := by
  rcases contains with akin | wildcard | ⟨supPlain, subPlain, compared⟩
  · exact .inl akin.symm
  · exact absurd (.inl wildcard.isWildcard) closed
  · exact .inr (.inr ⟨subPlain, supPlain, compared⟩)

/-- Types that are no wildcards contain what they are above. -/
theorem ArgumentContains.of_above {sup sub : TypeTree} (plain : ¬ sup.IsWildcard)
    (subPlain : ¬ sub.IsWildcard) (above : hierarchy.Supertype bounds depth sup sub) :
    ArgumentContains (hierarchy.Supertype bounds depth) .covariant sup sub :=
  .inr (.inr ⟨plain, subPlain, above⟩)

/-- What contains an argument of a covariant parameter is above it. -/
theorem ArgumentContains.supertype {sup sub : TypeTree}
    (contains : ArgumentContains (hierarchy.Supertype bounds depth) .covariant sup sub) :
    hierarchy.Supertype bounds (depth + 1) sup sub := by
  rcases contains with akin | wildcard | ⟨_, _, above⟩
  · exact supertype_of_akin akin
  · refine .inr ?_
    cases sup with
    | wildcard => exact wildcard
    | _ => exact wildcard.elim
  · exact above.succ

/-- What is bound to a parameter stands for all that an argument may be: as an argument of a
covariant parameter it contains it, or the argument is below a type that it is above of. -/
def Covers (hierarchy : TreeHierarchy) (bounds : ParamRef → List TypeTree) (depth : Nat)
    (found type : TypeTree) : Prop :=
  ArgumentContains (hierarchy.Supertype bounds depth) .covariant found type ∨
    ∃ bound, type = .wildcard .covariant bound ∧ hierarchy.Supertype bounds depth found bound

theorem covers_lenient (lenient : found.Lenient) : hierarchy.Covers bounds depth found type :=
  .inl (.inl (.inr (.inl lenient)))

theorem covers_self : hierarchy.Covers bounds depth type type := .inl (.inl (.inl rfl))

/-- The bound of a covariant wildcard covers what the wildcard contains. -/
theorem covers_of_above {bound : TypeTree} (above : hierarchy.Supertype bounds depth bound type)
    (plain : ¬ type.IsWildcard) : hierarchy.Covers bounds depth bound type := by
  by_cases wildcard : bound.IsWildcard
  · cases bound with
    | wildcard variance inner =>
      cases depth with
      | zero => exact .inl (.inl above)
      | succ depth =>
        rcases above with akin | contains
        · exact .inl (.inl akin)
        · exact .inl (.inr (.inl (WildcardContains.mono (fun _ _ => Supertype.succ) contains)))
    | _ => exact wildcard.elim
  · exact .inl (.inr (.inr ⟨wildcard, plain, above⟩))

/-- A lenient type is its own covariant bound. -/
theorem covers_of_lenient {sup : TypeTree} (lenient : sup.Lenient) :
    hierarchy.Covers bounds depth sup.covariantBound type := by
  cases sup with
  | any | unresolved => exact covers_lenient lenient
  | _ => exact lenient.elim

/-- A covariant wildcard is as good as its bound, where the other side says what its values are. -/
theorem covers_of_wildcard {sup : TypeTree}
    (contains : WildcardContains (hierarchy.Supertype bounds depth) sup type) :
    hierarchy.Covers bounds depth sup.covariantBound type := by
  cases sup with
  | wildcard variance bound =>
    cases variance with
    | invariant | contravariant => exact .inl (.inr (.inl contains))
    | covariant =>
      rcases contains with any | ⟨ne, above⟩
      · exact covers_lenient (any ▸ trivial)
      · cases type with
        | wildcard direction inner =>
          cases direction with
          | covariant => exact .inr ⟨inner, rfl, above⟩
          | invariant | contravariant => exact absurd rfl ne
        | _ => exact covers_of_above above id
  | _ => exact contains.elim

/-- What is inferred from an argument covers what the argument admits. -/
theorem covers_of_argument {sup : TypeTree}
    (contains : ArgumentContains (hierarchy.Supertype bounds depth) .covariant sup type) :
    hierarchy.Covers bounds depth sup.covariantBound type := by
  rcases contains with (rfl | lenient | lenient) | wildcard | ⟨supPlain, subPlain, above⟩
  · cases sup with
    | wildcard variance bound =>
      cases variance with
      | covariant => exact .inr ⟨bound, rfl, supertype_self⟩
      | invariant | contravariant => exact covers_self
    | _ => exact covers_self
  · exact covers_of_lenient lenient
  · exact .inl (.inl (.inr (.inr lenient)))
  · exact covers_of_wildcard wildcard
  · rw [TypeTree.covariantBound_of_plain supPlain]
    exact .inl (.of_above supPlain subPlain above)

/-- What admits a wildcard that goes neither way admits everything. -/
theorem covers_of_unbounded {sup bound : TypeTree}
    (contains : ArgumentContains (hierarchy.Supertype bounds depth) .covariant sup
      (.wildcard .invariant bound)) : hierarchy.Covers bounds depth sup.covariantBound type := by
  rcases contains with (rfl | lenient | lenient) | wildcard | ⟨_, subPlain, _⟩
  · exact .inl (.inr (.inl trivial))
  · exact covers_of_lenient lenient
  · exact lenient.elim
  · cases sup with
    | wildcard variance other =>
      cases variance with
      | invariant => exact .inl (.inr (.inl trivial))
      | covariant =>
        rcases wildcard with any | ⟨ne, _⟩
        · exact covers_lenient (any ▸ trivial)
        · exact absurd rfl ne
      | contravariant =>
        obtain ⟨_, isLower, _⟩ := wildcard
        cases isLower
    | _ => exact wildcard.elim
  · exact absurd trivial subPlain

/-- What admits a wildcard over a type covers the type. -/
theorem covers_of_directed {sup : TypeTree} {direction : Variance}
    (directed : direction ≠ .invariant) (plain : ¬ type.IsWildcard)
    (contains : ArgumentContains (hierarchy.Supertype bounds depth) .covariant sup
      (.wildcard direction type)) : hierarchy.Covers bounds depth sup.covariantBound type := by
  rcases contains with (rfl | lenient | lenient) | wildcard | ⟨_, subPlain, _⟩
  · cases direction with
    | covariant => exact covers_self
    | contravariant =>
      exact .inl (.inr (.inl ⟨type, TypeTree.lower?_of_plain plain, supertype_self⟩))
    | invariant => exact absurd rfl directed
  · exact covers_of_lenient lenient
  · exact lenient.elim
  · cases sup with
    | wildcard variance other =>
      cases variance with
      | invariant => exact .inl (.inr (.inl trivial))
      | covariant =>
        rcases wildcard with any | ⟨ne, above⟩
        · exact covers_lenient (any ▸ trivial)
        · cases direction with
          | covariant => exact covers_of_above above plain
          | contravariant => exact absurd rfl ne
          | invariant => exact absurd rfl directed
      | contravariant =>
        obtain ⟨lower, isLower, above⟩ := wildcard
        cases direction with
        | contravariant =>
          cases isLower
          exact .inl (.inr (.inl ⟨type, TypeTree.lower?_of_plain plain, above⟩))
        | covariant => cases isLower
        | invariant => exact absurd rfl directed
    | _ => exact wildcard.elim
  · exact absurd trivial subPlain

/-- The wildcard over a replaced parameter says of it what a wildcard argument says. -/
theorem covers_of_wildcardOver {sup : TypeTree} {variance direction : Variance}
    (contains : ArgumentContains (hierarchy.Supertype bounds depth) .covariant sup
      (TypeTree.wildcardOver direction (.var param variance) type)) :
    hierarchy.Covers bounds depth sup.covariantBound type := by
  by_cases wildcard : type.IsWildcard
  · cases type with
    | wildcard inner bound =>
      have differ : TypeTree.wildcard inner bound ≠ .var param variance := nofun
      rw [TypeTree.wildcardOver_wildcard direction differ] at contains
      split at contains
      · rename_i sameWay
        exact covers_of_argument (sameWay ▸ contains)
      · exact covers_of_unbounded contains
    | _ => exact wildcard.elim
  · by_cases neither : direction = .invariant
    · subst neither
      have unbounded : ∃ bound, TypeTree.wildcardOver .invariant (.var param variance) type =
          .wildcard .invariant bound := by
        by_cases same : type = .var param variance
        · rw [same]
          exact ⟨_, TypeTree.wildcardOver_self _⟩
        · have other : ∀ inner bound, type ≠ .wildcard inner bound := by
            rintro inner bound rfl
            exact wildcard trivial
          exact ⟨_, (TypeTree.wildcardOver_other _ same other).trans (if_pos rfl)⟩
      obtain ⟨bound, same⟩ := unbounded
      exact covers_of_unbounded (same ▸ contains)
    · rw [TypeTree.wildcardOver_plain neither wildcard] at contains
      exact covers_of_directed neither wildcard contains

/-- What contains an argument is covered by the bound of the argument, the other way round. -/
theorem covers_of_contained {arg : TypeTree}
    (flat : ∀ direction bound, arg ≠ .wildcard .covariant (.wildcard direction bound))
    (contains : ArgumentContains (hierarchy.Supertype bounds depth) .covariant type arg) :
    hierarchy.Covers bounds depth type arg.covariantBound := by
  by_cases directed : ∃ bound, arg = .wildcard .covariant bound
  · obtain ⟨bound, rfl⟩ := directed
    change hierarchy.Covers bounds depth type bound
    have plain : ¬ bound.IsWildcard := by
      cases bound with
      | wildcard direction inner => exact absurd rfl (flat direction inner)
      | _ => exact id
    rcases contains with (rfl | lenient | lenient) | wildcard | ⟨_, subPlain, _⟩
    · refine .inl (.inr (.inl ?_))
      rw [WildcardContains, TypeTree.upper_of_plain plain]
      exact or_iff_not_imp_left.mpr fun narrow => ⟨narrow, supertype_self⟩
    · exact covers_lenient lenient
    · exact lenient.elim
    · cases type with
      | wildcard variance other =>
        cases variance with
        | invariant => exact .inl (.inr (.inl trivial))
        | covariant =>
          refine .inl (.inr (.inl (wildcard.imp_right fun inside => ?_)))
          rw [TypeTree.upper_of_plain plain]
          exact inside
        | contravariant =>
          obtain ⟨_, isLower, _⟩ := wildcard
          cases isLower
      | _ => exact wildcard.elim
    · exact absurd trivial subPlain
  · rw [TypeTree.covariantBound_of_ne fun bound same => directed ⟨bound, same⟩]
    exact .inl contains

/-- What `? extends` contains is covered by its bound, the other way round. -/
theorem covers_of_extends {arg : TypeTree} (plain : ¬ type.IsWildcard)
    (flat : ∀ direction bound, arg ≠ .wildcard .covariant (.wildcard direction bound))
    (contains : ArgumentContains (hierarchy.Supertype bounds depth) .covariant
      (.wildcard .covariant type) arg) : hierarchy.Covers bounds depth type arg.covariantBound := by
  rcases contains with (rfl | lenient | lenient) | wildcard | ⟨supPlain, _, _⟩
  · exact covers_self
  · exact lenient.elim
  · cases arg with
    | any | unresolved => exact .inl (.inl (.inr (.inr trivial)))
    | _ => exact lenient.elim
  · rcases wildcard with any | ⟨present, above⟩
    · exact covers_lenient (any ▸ trivial)
    · by_cases wildcard : arg.IsWildcard
      · cases arg with
        | wildcard variance bound =>
          cases variance with
          | covariant =>
            refine .inl (.of_above plain (fun inside => ?_) above)
            cases bound with
            | wildcard direction inner => exact flat direction inner rfl
            | _ => exact inside
          | invariant | contravariant => exact absurd rfl present
        | _ => exact wildcard.elim
      · rw [TypeTree.upper_of_plain wildcard] at above
        rw [TypeTree.covariantBound_of_plain wildcard]
        exact .inl (.of_above plain wildcard above)
  · exact absurd trivial supPlain

/-- Below `? extends` stand types that its bound is above. -/
theorem ArgumentContains.of_extends {arg bound : TypeTree} (plain : ¬ arg.IsWildcard)
    (plainBound : ¬ bound.IsWildcard)
    (contains : ArgumentContains (hierarchy.Supertype bounds depth) .covariant
      (.wildcard .covariant bound) arg) :
    ArgumentContains (hierarchy.Supertype bounds depth) .covariant bound arg := by
  rcases contains with (rfl | lenient | lenient) | wildcard | ⟨supPlain, _, _⟩
  · exact absurd trivial plain
  · exact lenient.elim
  · exact .inl (.inr (.inr lenient))
  · rcases wildcard with any | ⟨_, above⟩
    · exact .inl (.inr (.inl (any ▸ trivial)))
    · rw [TypeTree.upper_of_plain plain] at above
      exact .of_above plainBound plain above
  · exact absurd trivial supPlain

/-- Below `? super` stand types that are above its bound. -/
theorem ArgumentContains.of_super {arg bound : TypeTree} (plain : ¬ arg.IsWildcard)
    (plainBound : ¬ bound.IsWildcard)
    (contains : ArgumentContains (hierarchy.Supertype bounds depth) .covariant
      (.wildcard .contravariant bound) arg) :
    ArgumentContains (hierarchy.Supertype bounds depth) .covariant arg bound := by
  rcases contains with (rfl | lenient | lenient) | ⟨lower, isLower, above⟩ | ⟨supPlain, _, _⟩
  · exact absurd trivial plain
  · exact lenient.elim
  · exact .inl (.inr (.inl lenient))
  · cases isLower.symm.trans (TypeTree.lower?_of_plain plain)
    exact .of_above plain plainBound above
  · exact absurd trivial supPlain

end TreeHierarchy
end ClassLang
