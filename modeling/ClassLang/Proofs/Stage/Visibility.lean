import ClassLang.Proofs.Stage.Lookup

/-! Who may use a declaration, and what the order of the access levels says about it. A wider level
admits every use that a narrower one admits, but for one pair: `package` admits all classes of the
unit, and `protected` does not. -/

namespace ClassLang
open TypePool

/-- The class is the other one or inherits from it: among its ancestors is a type of that class. -/
def Workspace.InheritsFrom (work : Workspace) (class_ : Member) (owner : Name) : Prop :=
  ∃ type pool, (PoolM.class_ owner).run work.pool = .ok (type, pool) ∧
    work.hierarchy.HasAncestor pool class_.type owner

/-- Nothing is narrower than `private`. -/
theorem Access.eq_private {level : Access} (ordered : Access.private_.weaker level = false) :
    level = .private_ := by
  cases level with
  | private_ => rfl
  | package | protected_ | public_ => cases ordered

/-- What is no wider than a level up to `package` is itself no wider than `package`. -/
theorem Access.package_weaker_of_weaker {narrow wide : Access}
    (inUnit : Access.package.weaker wide = false) (ordered : wide.weaker narrow = false) :
    Access.package.weaker narrow = false := by
  simp only [Access.weaker, decide_eq_false_iff_not, not_lt] at inUnit ordered ⊢
  exact ordered.trans inUnit

namespace Conformance
open StageM StageM.Works BodyM

variable {work : Workspace} {classMember : Member} {symbol : Symbol} {unit : Nat}

/-- A class of the unit may use the declaration. -/
def Grants (work : Workspace) (unit : Nat) (classMember : Member) (symbol : Symbol) : Prop :=
  ∃ after, (mayAccess unit classMember symbol).run work = .ok (true, after)

/-- Whom a declaration is visible to. Outside of classes it is visible to its unit, unless it is
public. -/
def VisibleTo (work : Workspace) (unit : Nat) (classMember : Member) (symbol : Symbol) : Prop :=
  match symbol.access, symbol.owner with
  | .public_, _ => True
  | .protected_, some owner => work.InheritsFrom classMember owner
  | .private_, some owner => symbol.unit = unit ∧ owner = classMember.name
  | _, _ => symbol.unit = unit

/-- What is no wider than `package` stays in its unit. -/
theorem VisibleTo.sameUnit (visible : VisibleTo work unit classMember symbol)
    (narrow : Access.package.weaker symbol.access = false) : symbol.unit = unit := by
  unfold VisibleTo at visible
  cases level : symbol.access with
  | private_ =>
    rw [level] at visible
    cases owned : symbol.owner <;> rw [owned] at visible
    · exact visible
    · exact visible.1
  | package => simpa [level] using visible
  | protected_ | public_ => exact absurd (level ▸ narrow) (by decide)

theorem class_ofClass {pool : TypePool} (name : Name) :
    PoolM.Builds (PoolM.class_ name) pool fun type after => after.OfClass type name :=
  (PoolM.Builds.entry ⟨by simp [TypeNode.parts], by simp⟩).mono fun _ _ _ found =>
    ofClass_iff.mpr ⟨_, found, .inl rfl⟩

section
variable (sound : work.Sound) (ofClass : work.pool.OfClass classMember.type classMember.name)
include sound ofClass

/-- A class inherits from itself. -/
theorem inheritsFrom_self : work.InheritsFrom classMember classMember.name := by
  obtain ⟨type, pool, made, growth, -⟩ := PoolM.Builds.class_ classMember.name sound.valid
  exact ⟨type, pool, made, ClassHierarchy.hasAncestor_self growth.valid
    (sound.hierarchy.grow growth) (ofClass.grow growth)⟩

/-- Every use is decided, and by the rule. -/
theorem mayAccess_visible (unit : Nat) (symbol : Symbol) :
    Asks True (mayAccess unit classMember symbol) work fun allowed _ =>
      allowed = true ↔ VisibleTo work unit classMember symbol := by
  unfold mayAccess VisibleTo
  dsimp only
  cases symbol.access <;> cases symbol.owner
  case protected_.some owner =>
    dsimp only
    split
    · rename_i same
      subst same
      exact Works.pure (iff_of_true rfl (inheritsFrom_self sound ofClass))
    · have made := (@class_ofClass work.pool owner).strengthen fun _ _ ran => ran
      refine Works.bind (Works.builds made) ?_
      rintro ownerType first led between ⟨above, ran⟩
      have growth := led.growth between
      have decides := ClassHierarchy.isSuperclassWithin_hasAncestor between.valid between.hierarchy
        above (ofClass.grow growth) 64
      refine Works.get (Works.mono (Works.builds decides) fun answer after _ _ told =>
        told.trans ?_)
      rw [Workspace.hierarchy, led.symbols]
      constructor
      · exact fun inherits => ⟨_, _, ran, inherits⟩
      · rintro ⟨_, _, again, inherits⟩
        cases ran.symm.trans again
        exact inherits
  all_goals exact Works.pure (by simp)

theorem grants_iff : Grants work unit classMember symbol ↔
    VisibleTo work unit classMember symbol := by
  obtain ⟨allowed, after, ran, -, -, decides⟩ :=
    (mayAccess_visible sound ofClass unit symbol sound).completes trivial
  refine ⟨fun ⟨final, granted⟩ => ?_, fun visible => ⟨after, ?_⟩⟩
  · cases ran.symm.trans granted
    exact decides.mp rfl
  · rw [ran, decides.mpr visible]

/-- A level that is not weaker admits what a level admits, unless it is `protected` and the other
one is `package`: then the owner and what inherits from it is let in, and the other classes of the
unit are not. An overriding method whose access is not weaker, in whatever unit, may be used where
the other one may exactly if what its own level asks holds there: what stays in its unit is declared
in the unit of the other method, and a `private` or `protected` one is of the class that uses it or
of one it inherits from. -/
theorem access_order_admits (unit : Nat) :
    (∀ (symbol : Symbol) (narrow wide : Access), wide.weaker narrow = false →
      Grants work unit classMember { symbol with access := narrow } →
      (Grants work unit classMember { symbol with access := wide } ↔
        ¬ (narrow = .package ∧ wide = .protected_ ∧
        ∃ owner ∈ symbol.owner, ¬ work.InheritsFrom classMember owner))) ∧
    ∀ (overridden overriding : Symbol) (sub : Name), overriding.owner = some sub →
      overriding.access.weaker overridden.access = false → Grants work unit classMember overridden →
      (Grants work unit classMember overriding ↔
        (Access.package.weaker overriding.access = false → overriding.unit = overridden.unit) ∧
        (overriding.access = .private_ → sub = classMember.name) ∧
        (overriding.access = .protected_ → work.InheritsFrom classMember sub)) := by
  simp only [grants_iff sound ofClass]
  refine ⟨fun symbol narrow wide ordered visible => ?_,
    fun overridden overriding sub owned ordered visible => ?_⟩
  · cases wide with
    | private_ =>
      cases Access.eq_private ordered
      exact iff_of_true visible (by simp)
    | package => exact iff_of_true (visible.sameUnit ordered) (by simp)
    | protected_ =>
      cases narrow with
      | private_ =>
        -- what is private to a class is used by that class, which inherits from itself
        refine iff_of_true ?_ (by simp)
        unfold VisibleTo at visible ⊢
        cases owned : symbol.owner with
        | none => simpa [owned] using visible
        | some owner =>
          obtain ⟨_, rfl⟩ : symbol.unit = unit ∧ owner = classMember.name := by
            simpa [owned] using visible
          exact inheritsFrom_self sound ofClass
      | package =>
        have inside : symbol.unit = unit := visible
        cases owned : symbol.owner <;> simp [VisibleTo, inside]
      | protected_ => exact iff_of_true visible (by simp)
      | public_ => cases ordered
    | public_ => exact iff_of_true trivial (by simp)
  · -- what stays in its unit overrides what stays in its unit, so that the other one is used in
    -- its unit
    have inside (narrow : Access.package.weaker overriding.access = false) :
        overridden.unit = unit :=
      visible.sameUnit (Access.package_weaker_of_weaker narrow ordered)
    cases level : overriding.access with
    | private_ =>
      simp [VisibleTo, level, owned, Access.weaker, Access.rank, inside (by rw [level]; rfl)]
    | package => simp [VisibleTo, level, Access.weaker, inside (by rw [level]; rfl)]
    | protected_ => simp [VisibleTo, level, owned, Access.weaker, Access.rank]
    | public_ => simp [VisibleTo, level, Access.weaker, Access.rank]

end

/-- The class `Base`. -/
def baseClass : Member :=
  { name := "Base", span := .dummy, detail := .class_ [] none [] none [] [] [1, 2],
    declared := .infer, type := ⟨9⟩,
    access := .public_ }

/-- A method of `Base` for its unit, and one of `Sub` in its place. -/
def packageMethod : Symbol := { memberSymbol "m" .method 2 with access := .package }

def protectedMethod : Symbol := { packageMethod with owner := some "Sub", access := .protected_ }

/-- `Base` may use its own method, and not the one that overrides it with a wider level, nor one of
the same level in another unit. -/
theorem access_order_admits_base :
    boundedWork.Sound ∧ boundedWork.pool.OfClass baseClass.type baseClass.name ∧
    protectedMethod.access.weaker packageMethod.access = false ∧
    Grants boundedWork 0 baseClass packageMethod ∧
    ¬ Grants boundedWork 0 baseClass protectedMethod ∧
    ¬ Grants boundedWork 0 baseClass { packageMethod with owner := some "Sub", unit := 1 } ∧
    Grants boundedWork 0 baseClass { protectedMethod with access := .public_ } := by
  have ofClass : boundedWork.pool.OfClass baseClass.type baseClass.name := rfl
  have granted : Grants boundedWork 0 baseClass packageMethod := ⟨_, rfl⟩
  have outside : ¬ boundedWork.InheritsFrom baseClass "Sub" := by
    rintro ⟨type, pool, made, types, after, ran, ancestor, member, isSub⟩
    cases made.symm.trans (rfl : (PoolM.class_ "Sub").run boundedPool = .ok (⟨8⟩, boundedPool))
    cases ran.symm.trans (rfl : (boundedWork.hierarchy.ancestors ⟨9⟩).run boundedPool =
      .ok ([⟨9⟩], boundedPool))
    cases List.mem_singleton.mp member
    exact absurd isSub (by decide)
  have admits := access_order_admits sound_boundedWork ofClass 0
  refine ⟨sound_boundedWork, ofClass, rfl, granted, fun refused => ?_, fun refused => ?_, ?_⟩
  · exact outside
      (((admits.2 packageMethod protectedMethod "Sub" rfl rfl granted).mp refused).2.2 rfl)
  · exact absurd (((admits.2 packageMethod _ "Sub" rfl rfl granted).mp refused).1 rfl) (by decide)
  · exact (admits.2 packageMethod { protectedMethod with access := .public_ } "Sub" rfl rfl
      granted).mpr (by simp [Access.weaker, Access.rank])

end Conformance

namespace Session

/-- The unit has a class that a level lets use a declaration and a wider level does not, and the
class is reported for it. -/
def Narrows (done : Session) (class_ symbol : Nat) (narrow wide : Access) : Prop :=
  wide.weaker narrow = false ∧ ∃ unit ∈ done.units, ∃ member ∈ unit.members.members[class_]?,
    ∃ declared ∈ done.program.symbols.symbols[symbol]?, declared.access = wide ∧
      (∃ report ∈ unit.diagnostics.diagnostics, report.code = .inaccessible) ∧
      ((Conformance.mayAccess unit.id member { declared with access := narrow }).run
        { done.program with unit }).map Prod.fst = .ok true ∧
      ((Conformance.mayAccess unit.id member declared).run { done.program with unit }).map
        Prod.fst = .ok false

instance (done : Session) (class_ symbol : Nat) (narrow wide : Access) : Decidable
    (done.Narrows class_ symbol narrow wide) :=
  inferInstanceAs (Decidable (_ ∧ _))

/-- `Main` calls a method of `Base`, and the one that overrides it with a wider level. -/
def wideningUnit : SourceUnit where
  name := "main"
  classes := [
    { name := "Base", span := ⟨0, 1⟩
      methods := [
        { name := "m", returns := .named "int" [] ⟨2, 3⟩, body := some (.node 0)
          access := .package, span := ⟨4, 5⟩ }] },
    { name := "Sub", superclass := some (.named "Base" [] ⟨6, 7⟩), span := ⟨8, 9⟩
      methods := [
        { name := "m", returns := .named "int" [] ⟨10, 11⟩, body := some (.node 0)
          access := .protected_, annotations := [{ name := "Override", span := ⟨12, 13⟩ }]
          span := ⟨14, 15⟩ }] },
    { name := "Main", span := ⟨16, 17⟩
      methods := [
        { name := "f",
          params := [{ name := "b", type := .named "Base" [] ⟨18, 19⟩, span := ⟨20, 21⟩ }]
          returns := .named "int" [] ⟨22, 23⟩, body := some (.node 2), span := ⟨24, 25⟩ },
        { name := "g",
          params := [{ name := "s", type := .named "Sub" [] ⟨26, 27⟩, span := ⟨28, 29⟩ }]
          returns := .named "int" [] ⟨30, 31⟩, body := some (.node 4), span := ⟨32, 33⟩ }] }]
  arena := { exprs := #[
    ⟨.literal (.int 0), ⟨34, 35⟩⟩, ⟨.ident "b", ⟨36, 37⟩⟩,
    ⟨.call (some (.node 1)) "m" [], ⟨36, 39⟩⟩,
    ⟨.ident "s", ⟨40, 41⟩⟩, ⟨.call (some (.node 3)) "m" [], ⟨40, 43⟩⟩] }

/-- The only error is that `Main` uses the overriding method, which it could use if that had the
level of the other one. -/
theorem wider_access_narrows : ∃ done, compile { sources := [wideningUnit] } = .ok
    (.ok done) ∧ done.errorCount = 1 ∧
    done.Narrows 4 3 .package .protected_ := by
  obtain ⟨done, ran, narrows⟩ := exists_run { sources := [wideningUnit] }
    (fun done => done.errorCount = 1 ∧ done.Narrows 4 3 .package .protected_) (by decide +kernel)
  exact ⟨done, congrArg Except.ok ran, narrows⟩

end Session
end ClassLang
