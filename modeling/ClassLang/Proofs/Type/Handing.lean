import ClassLang.Proofs.Type.Coverage
import ClassLang.Proofs.Type.Inference

/-! How a variant hands its parameters to the class of a scrutinee. Inference lays the type that the
generic variant inherits over that of the scrutinee; as far as these are compared in one direction,
what it binds covers the argument of every instance that the scrutinee admits. -/

namespace ClassLang
namespace TreeHierarchy

variable {hierarchy : TreeHierarchy} {bounds : ParamRef → List TypeTree}
  {subst given : TreeSubstitution} {param : ParamRef} {depth : Nat} {declared : Variance}
  {found type : TypeTree}

/-! Where a parameter is bound. -/

/-- Two types, compared one way or the other: the first one stands above the second one, or below
it. -/
def Compared (deeper : TreeTest) (above : Bool) (actual formal : TypeTree) : Prop :=
  match above with
  | true => ArgumentContains deeper .covariant actual formal
  | false => ArgumentContains deeper .covariant formal actual

/-- The one of two types that stands above. -/
def upperOf (above : Bool) (actual formal : TypeTree) : TypeTree :=
  match above with
  | true => actual
  | false => formal

/-- How a parameter is handed to a class, given what is put in for parameters: where it is bound to
a part of the actual type, this part stands above what is put in for it, or below for a parameter
that does not rise. `above` tells which of the two types stands above when they are compared; the
order turns at closed arguments of a contravariant parameter and below `? super`. -/
inductive Handed (hierarchy : TreeHierarchy) (given : TreeSubstitution) (param : ParamRef) :
    (rising above : Bool) → (formal actual : TypeTree) → Prop where
  | unmet {rising above : Bool} {formal actual : TypeTree}
      (none : hierarchy.infer (fun _ => none) formal actual param = none) :
      Handed hierarchy given param rising above formal actual
  | var {side : Bool} (variance : Variance) {actual : TypeTree}
      (flat : side = false → ∀ direction bound,
        actual ≠ .wildcard .covariant (.wildcard direction bound)) :
      Handed hierarchy given param side side (.var param variance) actual
  /-- A wildcard is below wildcards alone. -/
  | wildcard (direction variance : Variance) {actual : TypeTree} :
      Handed hierarchy given param true true (.wildcard direction (.var param variance)) actual
  /-- What is put in for the parameter is such a wildcard itself. -/
  | sameWay (direction variance : Variance) {bound actual : TypeTree}
      (known : given param = some (.wildcard direction bound))
      (flat : ∀ direction bound, actual ≠ .wildcard .covariant (.wildcard direction bound)) :
      Handed hierarchy given param false false (.wildcard direction (.var param variance)) actual
  | extendsVar (variance : Variance) {actual : TypeTree}
      (plain : ∀ direction bound, given param ≠ some (.wildcard direction bound))
      (flat : ∀ direction bound, actual ≠ .wildcard .covariant (.wildcard direction bound)) :
      Handed hierarchy given param false false (.wildcard .covariant (.var param variance)) actual
  | extends_ {rising : Bool} {bound actual : TypeTree} (plain : ¬ actual.IsWildcard)
      (plainBound : ¬ (bound.instantiate given).IsWildcard)
      (rest : Handed hierarchy given param rising false bound actual) :
      Handed hierarchy given param rising false (.wildcard .covariant bound) actual
  | super {rising : Bool} {bound actual : TypeTree} (plain : ¬ actual.IsWildcard)
      (plainBound : ¬ (bound.instantiate given).IsWildcard)
      (rest : Handed hierarchy given param rising true bound actual) :
      Handed hierarchy given param rising false (.wildcard .contravariant bound) actual
  /-- Of the arguments the first one counts that binds the parameter. -/
  | applied {rising above : Bool} {base : Name} {args : List TypeTree} {actual ancestor : TypeTree}
      (found : hierarchy.ancestorAt? actual base = some ancestor)
      (straight : ∀ position formal arg, args[position]? = some formal →
        ancestor.args[position]? = some arg →
        hierarchy.Unmet param (args.take position) (ancestor.args.take position) →
        hierarchy.declared base position ≠ .contravariant ∨
          (upperOf above arg (formal.instantiate given)).Open →
        Handed hierarchy given param rising above formal arg)
      (turned : ∀ position formal arg, args[position]? = some formal →
        ancestor.args[position]? = some arg →
        hierarchy.Unmet param (args.take position) (ancestor.args.take position) →
        hierarchy.declared base position = .contravariant →
        ¬ (upperOf above arg (formal.instantiate given)).Open →
        Handed hierarchy given param rising (!above) formal arg) :
      Handed hierarchy given param rising above (.applied base args) actual

/-- What is bound to a parameter covers what is put in for it, or is covered by it. -/
def Relates (hierarchy : TreeHierarchy) (bounds : ParamRef → List TypeTree) (depth : Nat)
    (rising : Bool) (found type : TypeTree) : Prop :=
  match rising with
  | true => hierarchy.Covers bounds depth found type
  | false => hierarchy.Covers bounds depth type found

/-- Arguments of two instances of a class are compared, for parameters of any variance. -/
theorem Compared.of_argument {deeper : TreeTest} {above : Bool} {arg formal : TypeTree}
    (contains : ArgumentContains deeper declared (upperOf above arg formal)
      (upperOf (!above) arg formal)) :
    (declared ≠ .contravariant ∨ (upperOf above arg formal).Open →
      Compared deeper above arg formal) ∧
      (declared = .contravariant → ¬ (upperOf above arg formal).Open →
        Compared deeper (!above) arg formal) := by
  constructor
  · intro along
    cases above with
    | true => exact contains.straight along
    | false => exact contains.straight along
  · rintro rfl closed
    cases above with
    | true => exact contains.turned closed
    | false => exact contains.turned closed

/-- The arguments of a class type admit those with which a type below it inherits from the class. -/
theorem Supertype.argumentsContain {sup sub ancestor : TypeTree} {base other : Name}
    (named : sup.base? = some base) (isSub : sub.base? = some other)
    (inherits : hierarchy.ancestorAt? sub base = some ancestor)
    (above : hierarchy.Supertype bounds (depth + 1) sup sub) :
    hierarchy.ArgumentsContain (hierarchy.Supertype bounds depth) base sup.args ancestor.args := by
  rcases above with (rfl | lenient | lenient) | above
  · cases inherits.symm.trans (ancestorAt?_self named)
    intro position arg other given actual
    cases given.symm.trans actual
    exact .inl (.inl rfl)
  · exact absurd lenient (TypeTree.not_lenient_of_base? named)
  · exact absurd lenient (TypeTree.not_lenient_of_base? isSub)
  · rw [structural_of_rigid (TypeTree.rigid_of_base? named), plain_of_base? isSub] at above
    cases sup with
    | class_ name => exact fun position arg other given => nomatch given
    | applied name args =>
      cases named
      obtain ⟨actual, found, contain⟩ := above
      cases inherits.symm.trans found
      exact contain
    | _ => cases named

/-- A type above an instance of a class, that inherits from that class, is an instance of it whose
arguments admit those of the other. -/
theorem WellFormed.argumentsContain_of_above (formed : hierarchy.WellFormed) {base : Name}
    {args : List TypeTree} {sup ancestor : TypeTree}
    (found : hierarchy.ancestorAt? sup base = some ancestor)
    (above : hierarchy.Supertype bounds depth sup (.applied base args)) :
    hierarchy.ArgumentsContain (hierarchy.Supertype bounds depth) base ancestor.args args := by
  cases named : sup.base? with
  | none =>
    rw [ancestorAt?_of_base?_none named] at found
    cases found
  | some name =>
    have inherits := above.isSome_ancestorAt? named rfl
    have same : name = base :=
      formed.acyclic named rfl (Option.isSome_iff_exists.mpr ⟨_, found⟩) inherits
    subst same
    cases found.symm.trans (ancestorAt?_self named)
    exact Supertype.argumentsContain named rfl (ancestorAt?_self rfl) above.succ

/-- An instance of a class and a type that inherits from the class, compared one way or the
other. -/
theorem WellFormed.argumentsContain_of_compared (formed : hierarchy.WellFormed) {base : Name}
    {args : List TypeTree} {actual ancestor : TypeTree} {above : Bool}
    (found : hierarchy.ancestorAt? actual base = some ancestor)
    (compared : Compared (hierarchy.Supertype bounds depth) above actual (.applied base args))
    {position : Nat} {formal arg : TypeTree} (listed : args[position]? = some formal)
    (given : ancestor.args[position]? = some arg) :
    ArgumentContains (hierarchy.Supertype bounds depth) (hierarchy.declared base position)
      (upperOf above arg formal) (upperOf (!above) arg formal) := by
  have isClass : ∃ name, actual.base? = some name := by
    cases named : actual.base? with
    | none =>
      rw [ancestorAt?_of_base?_none named] at found
      cases found
    | some name => exact ⟨name, rfl⟩
  obtain ⟨name, named⟩ := isClass
  have plain : ¬ actual.IsWildcard := by
    cases actual with
    | wildcard => cases named
    | _ => exact id
  cases above with
  | true =>
    have contain := formed.argumentsContain_of_above found (compared.of_plain plain nofun)
    exact contain position arg formal given listed
  | false =>
    have below : hierarchy.Supertype bounds depth (.applied base args) actual :=
      compared.of_plain id nofun
    exact Supertype.argumentsContain rfl named found below.succ position formal arg listed given

/-- Arguments are compared as their parameter says, so that what is bound to a parameter by the
first one that binds it is related to what is put in for the parameter. -/
theorem relates_of_inferAll {above rising : Bool} {base : Name} {formals actuals : List TypeTree}
    (contain : ∀ position formal arg, formals[position]? = some formal →
      actuals[position]? = some arg →
      ArgumentContains (hierarchy.Supertype bounds depth) (hierarchy.declared base position)
        (upperOf above arg (formal.instantiate given))
        (upperOf (!above) arg (formal.instantiate given)))
    (straight : ∀ position formal arg, formals[position]? = some formal →
      actuals[position]? = some arg →
      hierarchy.Unmet param (formals.take position) (actuals.take position) →
      hierarchy.declared base position ≠ .contravariant ∨
        (upperOf above arg (formal.instantiate given)).Open →
      Compared (hierarchy.Supertype bounds depth) above arg (formal.instantiate given) →
      hierarchy.infer (fun _ => none) formal arg param = some found →
      hierarchy.Relates bounds depth rising found type)
    (turned : ∀ position formal arg, formals[position]? = some formal →
      actuals[position]? = some arg →
      hierarchy.Unmet param (formals.take position) (actuals.take position) →
      hierarchy.declared base position = .contravariant →
      ¬ (upperOf above arg (formal.instantiate given)).Open →
      Compared (hierarchy.Supertype bounds depth) (!above) arg (formal.instantiate given) →
      hierarchy.infer (fun _ => none) formal arg param = some found →
      hierarchy.Relates bounds depth rising found type)
    (bound : hierarchy.inferAll (fun _ => none) formals actuals param = some found) :
    hierarchy.Relates bounds depth rising found type := by
  obtain ⟨position, formal, arg, listed, actual, unmet, binds⟩ := exists_of_inferAll rfl bound
  obtain ⟨along, across⟩ := Compared.of_argument (contain position formal arg listed actual)
  by_cases straightOn : hierarchy.declared base position ≠ .contravariant ∨
      (upperOf above arg (formal.instantiate given)).Open
  · exact straight position formal arg listed actual unmet straightOn (along straightOn) binds
  · obtain ⟨directed, closed⟩ := not_or.mp straightOn
    have contravariant := not_not.mp directed
    exact turned position formal arg listed actual unmet contravariant closed
      (across contravariant closed) binds

/-- What is bound to a parameter that is handed to a class is related to what is put in for it. -/
theorem WellFormed.infer_relates (formed : hierarchy.WellFormed) (answer : given param = some type)
    {formal actual : TypeTree} {rising above : Bool}
    (handed : hierarchy.Handed given param rising above formal actual)
    (compared : Compared (hierarchy.Supertype bounds depth) above actual (formal.instantiate given))
    (bound : hierarchy.infer (fun _ => none) formal actual param = some found) :
    hierarchy.Relates bounds depth rising found type := by
  induction handed generalizing found with
  | unmet none => cases none.symm.trans bound
  | @var side variance actual flat =>
    cases (if_pos rfl).symm.trans bound
    rw [TypeTree.instantiate, answer, Option.getD_some] at compared
    cases side with
    | true => exact covers_of_argument compared
    | false => exact covers_of_contained (flat rfl) compared
  | @wildcard direction variance actual =>
    cases (if_pos rfl).symm.trans bound
    simp only [TypeTree.instantiate, answer, Option.getD_some] at compared
    exact covers_of_wildcardOver compared
  | @sameWay direction variance inner actual isWildcard flat =>
    cases (if_pos rfl).symm.trans bound
    cases answer.symm.trans isWildcard
    have differ : TypeTree.wildcard direction inner ≠ .var param variance := by simp
    simp only [TypeTree.instantiate, answer, Option.getD_some] at compared
    rw [TypeTree.wildcardOver_wildcard _ differ, if_pos rfl] at compared
    exact covers_of_contained flat compared
  | @extendsVar variance actual plain flat =>
    cases (if_pos rfl).symm.trans bound
    simp only [TypeTree.instantiate, answer, Option.getD_some] at compared
    have plainType : ¬ type.IsWildcard := by
      cases type with
      | wildcard direction inner => exact absurd answer (plain direction inner)
      | _ => exact id
    have directed : Variance.covariant ≠ .invariant := by decide
    rw [TypeTree.wildcardOver_plain directed plainType] at compared
    exact covers_of_extends plainType flat compared
  | @extends_ rising formal actual plain plainBound _ ih =>
    have directed : Variance.covariant ≠ .invariant := by decide
    rw [TypeTree.instantiate, TypeTree.wildcardOver_plain directed plainBound] at compared
    exact ih (ArgumentContains.of_extends plain plainBound compared) bound
  | @super rising formal actual plain plainBound _ ih =>
    have directed : Variance.contravariant ≠ .invariant := by decide
    rw [TypeTree.instantiate, TypeTree.wildcardOver_plain directed plainBound] at compared
    exact ih (ArgumentContains.of_super plain plainBound compared) bound
  | @applied rising above base args actual ancestor inherits _ _ ihStraight ihTurned =>
    rw [infer, inherits] at bound
    rw [TypeTree.instantiate, TypeTree.instantiateAll_eq_map] at compared
    refine relates_of_inferAll (fun position formal arg listed actualListed => ?_)
      (fun position formal arg listed given unmet straightOn along binds =>
        ihStraight position formal arg listed given unmet straightOn along binds)
      (fun position formal arg listed given unmet contravariant closed across binds =>
        ihTurned position formal arg listed given unmet contravariant closed across binds) bound
    have mapped : (args.map (·.instantiate given))[position]? =
        some (formal.instantiate given) := by
      rw [List.getElem?_map, listed]
      rfl
    exact formed.argumentsContain_of_compared inherits compared mapped actualListed

/-- A parameter of a variant is handed to the class of a scrutinee as the generic variant inherits
from it. -/
def HandedTo (hierarchy : TreeHierarchy) (variant : Name) (scrutinee : TypeTree)
    (given : TreeSubstitution) (rising : Bool) (param : ParamRef) : Prop :=
  ∀ base ancestor, scrutinee.base? = some base →
    hierarchy.ancestorAt? (hierarchy.selfType variant) base = some ancestor →
    hierarchy.Handed given param rising true ancestor scrutinee

/-- What a scrutinee determines of a parameter is related to the argument of every type of the
variant below the scrutinee. -/
theorem WellFormed.inferred_relates (formed : hierarchy.WellFormed) {variant : Name}
    {scrutinee : TypeTree} {args : List TypeTree} {rising : Bool}
    (full : args.length = (hierarchy.params variant).length)
    (generic : hierarchy.params variant ≠ [])
    (above : hierarchy.Supertype bounds (depth + 1) scrutinee (.applied variant args))
    (handed : hierarchy.HandedTo variant scrutinee (hierarchy.bindArgs variant args) rising param)
    (answer : hierarchy.bindArgs variant args param = some type)
    (determined : hierarchy.inferred variant scrutinee param = some found) :
    hierarchy.Relates bounds depth rising found type := by
  unfold inferred at determined
  cases isClass : scrutinee.base? with
  | none => simp [isClass] at determined
  | some base =>
    cases inherits : hierarchy.ancestorAt? (hierarchy.selfType variant) base with
    | none => simp [isClass, inherits] at determined
    | some ancestor =>
      simp only [isClass, inherits] at determined
      have inherited : hierarchy.ancestorAt? (.applied variant args) base =
          some (ancestor.instantiate (hierarchy.bindArgs variant args)) := by
        rw [formed.regular.ancestorAt?_instantiate full generic, inherits]
        rfl
      have self : hierarchy.ancestorAt? scrutinee base = some scrutinee := ancestorAt?_self isClass
      have contain := Supertype.argumentsContain isClass rfl inherited above
      have isAncestor : ancestor.base? = some base := by simpa using List.find?_some inherits
      cases handed base ancestor isClass inherits with
      | unmet none => cases none.symm.trans determined
      | var | wildcard => cases isAncestor
      | @applied _ _ name formals actual other found straight turned =>
        cases isAncestor
        cases found.symm.trans self
        rw [infer, self] at determined
        rw [TypeTree.instantiate, TypeTree.instantiateAll_eq_map] at contain
        refine relates_of_inferAll (fun position formal arg listed given => ?_)
          (fun position formal arg listed given unmet straightOn along binds =>
            formed.infer_relates answer (straight position formal arg listed given unmet straightOn)
              along binds)
          (fun position formal arg listed given unmet contravariant closed across binds =>
            formed.infer_relates answer
              (turned position formal arg listed given unmet contravariant closed) across binds)
          determined
        refine contain position arg _ given ?_
        rw [TypeTree.args, List.getElem?_map, listed]
        rfl

end TreeHierarchy
end ClassLang
