import ClassLang.Proofs.Checking
import ClassLang.Proofs.Stage.Implementation

/-! Classes with instances implement what they inherit, as far as the order of their ancestors does
not matter: of an abstract method there is a concrete one among the ancestors, but a nearer class
may have declared it abstract again. -/

namespace ClassLang

namespace Program
variable {program next : Program} {tree below super : TypeTree} {name : Name} {height : Nat}

/-- The classes of the program on trees. -/
abbrev trees (program : Program) : TreeHierarchy := program.symbols.hierarchy.unfold program.pool

/-- The superclass that the class of a type declares, with the arguments of the type put in. -/
def superclassOf? (program : Program) (tree : TypeTree) : Option TypeTree := do
  let name ← tree.base?
  let type ← program.symbols.hierarchy.superclass name
  return (program.pool.tree type).instantiate (program.trees.bindArgs name tree.args)

/-- The way up the superclasses of a type, each class as the type inherits it. -/
def chain? (program : Program) (tree : TypeTree) : Nat → Option TypeTree
  | 0 => some tree
  | height + 1 => do
    let below ← program.chain? tree height
    let super ← program.superclassOf? below
    program.trees.ancestorAt? tree (← super.base?)

/-- The class of the type declares a method of the name that has these parameter types as it is seen
from there. -/
def Declares (program : Program) (tree : TypeTree) (name : Name) (params : List TypeTree)
    (isAbstract : Bool) : Prop :=
  ∃ method ∈ program.symbols.seenMethods program.pool tree,
    method.symbol.name = name ∧ method.params = params ∧ method.symbol.isAbstract = isAbstract

instance (program : Program) (tree : TypeTree) (name : Name) (params : List TypeTree)
    (isAbstract : Bool) : Decidable (program.Declares tree name params isAbstract) :=
  inferInstanceAs (Decidable (∃ _ ∈ _, _))

theorem Declares.base?_isSome {params : List TypeTree} {isAbstract : Bool}
    (declares : program.Declares tree name params isAbstract) :
    tree.base?.isSome := by
  obtain ⟨method, listed, -⟩ := declares
  unfold SymbolTable.seenMethods at listed
  split at listed
  · cases listed
  · simp [*]

/-- The classes on the way up are ancestors. -/
theorem mem_ancestors_of_chain? {above : TypeTree}
    (reached : program.chain? tree height = some above) (named : above.base?.isSome) :
    above ∈ program.trees.ancestors tree := by
  cases height with
  | zero =>
    cases reached
    obtain ⟨name, hasBase⟩ := Option.isSome_iff_exists.mp named
    rw [TreeHierarchy.ancestors_eq hasBase]
    exact List.mem_cons_self
  | succ height =>
    obtain ⟨below, _, reached⟩ := Option.bind_eq_some_iff.mp reached
    obtain ⟨super, _, reached⟩ := Option.bind_eq_some_iff.mp reached
    obtain ⟨name, _, found⟩ := Option.bind_eq_some_iff.mp reached
    exact List.mem_of_find?_eq_some found

/-- The way goes on as long as a superclass is declared. -/
theorem chain?_succ (sound : program.Sound) (reached : program.chain? tree height = some below)
    (declared : program.superclassOf? below = some super) (named : super.base? = some name) :
    ∃ above, program.chain? tree (height + 1) = some above ∧ above.base? = some name := by
  obtain ⟨class_, base, type, answer, rfl⟩ : ∃ class_, below.base? = some class_ ∧ ∃ type,
      program.symbols.hierarchy.superclass class_ = some type ∧
        super = (program.pool.tree type).instantiate
          (program.trees.bindArgs class_ below.args) := by
    obtain ⟨class_, base, declared⟩ := Option.bind_eq_some_iff.mp declared
    obtain ⟨type, answer, same⟩ := Option.bind_eq_some_iff.mp declared
    exact ⟨class_, base, type, answer, (Option.some.inj same).symm⟩
  have supers : (program.pool.tree type).instantiate (program.trees.bindArgs class_ below.args) ∈
      program.trees.instantiateParts program.trees.supertypes below := by
    simp only [TreeHierarchy.instantiateParts, base]
    refine List.mem_map_of_mem (List.mem_map_of_mem (List.mem_append_left _ ?_))
    rw [answer]
    exact List.mem_singleton.mpr rfl
  obtain ⟨above, found⟩ := Option.isSome_iff_exists.mp <|
    (sound.symbols.hierarchy sound.pool).ancestors_closed
      (mem_ancestors_of_chain? reached (by simp [base])) supers named
  refine ⟨above, ?_, by simpa using List.find?_some found⟩
  rw [chain?, reached]
  change (program.superclassOf? below).bind _ = some above
  rw [declared]
  change (TypeTree.base? _).bind _ = some above
  rw [named]
  exact found

/-- A class with instances is told of every abstract method that no ancestor implements. -/
def Tells (program : Program) (reports : List Diagnostic) (member : Member) : Prop :=
  member.isClass = true → member.isConcrete = true → program.pool.Has member.type ∧
    (program.pool.Small →
      ∀ method ∈ program.symbols.missingMethods program.pool (program.pool.tree member.type),
      ∃ report ∈ reports, report.key = (method.missing member).key)

theorem lasting_tells : Lasting Tells where
  enter sound enters tells isClass isConcrete := by
    obtain ⟨held, told⟩ := tells isClass isConcrete
    refine ⟨enters.pool.has held, fun small => ?_⟩
    rw [enters.symbols, enters.pool.tree_eq sound.pool held,
      SymbolTable.missingMethods_eq sound.symbols sound.pool enters.pool]
    exact told (enters.pool.small small)
  report echoes tells isClass isConcrete := by
    obtain ⟨held, told⟩ := tells isClass isConcrete
    refine ⟨held, fun small method missing => ?_⟩
    obtain ⟨report, listed, same⟩ := told small method missing
    obtain ⟨kept, there, again⟩ := echoes report listed
    exact ⟨kept, there, again.trans same⟩
  alike same tells isClass isConcrete := by
    have modifiers := same.modifiers
    unfold Member.isConcrete at isConcrete
    rw [modifiers] at isConcrete
    obtain ⟨held, told⟩ := tells (same.isClass ▸ isClass) isConcrete
    rw [same.type]
    refine ⟨held, fun small method missing => ?_⟩
    obtain ⟨report, listed, equal⟩ := told small method missing
    refine ⟨report, listed, equal.trans ?_⟩
    simp only [SeenMethod.missing, Diagnostic.key, same.name, same.span]

theorem establishes_tells : StageM.Establishes Tells := by
  intro work id member sound typed found result after ran isClass isConcrete
  obtain ⟨led, soundAfter, told⟩ :=
    (StageM.checkMember_reports found typed isClass isConcrete sound).ensures result after ran
  have held := (typed id member found).type
  have growth := led.growth soundAfter
  refine ⟨growth.has held, fun small method missing => ?_⟩
  rw [led.symbols, growth.tree_eq sound.valid held,
    SymbolTable.missingMethods_eq sound.program.symbols sound.valid growth] at missing
  exact ⟨_, told small method missing, rfl⟩

end Program

/-- No diagnostic of the unit is about a method that the class does not implement. -/
def CompilationUnit.Accepts (unit : CompilationUnit) (class_ : Member) : Prop :=
  ∀ report ∈ unit.diagnostics.diagnostics, report.code = .missingImplementation →
    report.span = class_.span → report.args.head? ≠ some class_.name

instance (unit : CompilationUnit) (class_ : Member) : Decidable (unit.Accepts class_) :=
  inferInstanceAs (Decidable (∀ _ ∈ _, _))

namespace Session
variable {config : SessionConfig} {sources : List SourceUnit} {done : Session}
    {unit : CompilationUnit} {id : Nat}
  {member : Member}

section
variable (ran : compile { config, sources } = .ok (.ok done)) (small : done.program.pool.Small)
  (listed : unit ∈ done.units) (checked : Progress.checked.rank ≤ unit.progress.rank)
  (found : unit.members.members[id]? = some member) (isClass : member.isClass = true)
  (isConcrete : member.isConcrete = true) (accepted : unit.Accepts member)
include ran small listed checked found isClass isConcrete accepted

/-- For every abstract method that a class with instances inherits some ancestor declares a concrete
one. -/
theorem inherited_methods_implemented {ancestor : TypeTree} {name : Name} {params : List TypeTree}
    (inherits : ancestor ∈ done.program.trees.ancestors (done.program.pool.tree member.type))
    (isAbstract : done.program.Declares ancestor name params true) :
    ∃ other ∈ done.program.trees.ancestors (done.program.pool.tree member.type),
      done.program.Declares other name params false := by
  obtain ⟨sound, all⟩ := run_checked Program.lasting_tells Program.establishes_tells ran
  obtain ⟨-, told⟩ := (all unit listed).known checked id member found isClass isConcrete
  obtain ⟨method, declared, rfl, rfl, marked⟩ := isAbstract
  have above : method ∈ done.program.symbols.methodsAbove done.program.pool
      (done.program.pool.tree member.type) :=
    List.mem_flatMap.mpr ⟨ancestor, inherits, declared⟩
  by_contra none
  have missing := SymbolTable.mem_missingMethods.mpr
    ⟨⟨above, marked⟩, fun other isAbove concrete named same => by
    obtain ⟨place, reached, there⟩ := List.mem_flatMap.mp isAbove
    exact none ⟨place, reached, other, there, named, same, concrete⟩⟩
  obtain ⟨report, kept, key⟩ := told small method missing
  obtain ⟨code, span, args⟩ : report.code = .missingImplementation ∧ report.span = member.span ∧
      report.args = [member.name, method.symbol.name, method.owner] := by
    simpa [Diagnostic.key, SeenMethod.missing] using key
  exact accepted report kept code span (by rw [args]; rfl)

/-- Walking up the superclasses of a class with instances, the first one that declares a method of a
name and parameter types declares a concrete one, unless what implements it for the class stands
elsewhere: further up, or in an interface. -/
theorem concrete_classes_implement (height : Nat) (tree : TypeTree) (name : Name)
    (params : List TypeTree)
    (reached : done.program.chain? (done.program.pool.tree member.type) height = some tree)
    (declares : ∃ isAbstract, done.program.Declares tree name params isAbstract)
    (first : ∀ lower < height, ∀ below,
      done.program.chain? (done.program.pool.tree member.type) lower = some below →
      ∀ isAbstract, ¬ done.program.Declares below name params isAbstract) :
    done.program.Declares tree name params false ∨
      ∃ other ∈ done.program.trees.ancestors (done.program.pool.tree member.type),
        (∀ lower ≤ height, done.program.chain? (done.program.pool.tree member.type) lower ≠
          some other) ∧
        done.program.Declares other name params false := by
  obtain ⟨isAbstract, declares⟩ := declares
  cases isAbstract with
  | false => exact .inl declares
  | true =>
    by_cases own : done.program.Declares tree name params false
    · exact .inl own
    have inherits := Program.mem_ancestors_of_chain? reached declares.base?_isSome
    obtain ⟨other, reachedOther, concrete⟩ :=
      inherited_methods_implemented ran small listed checked found isClass isConcrete accepted
        inherits declares
    refine .inr ⟨other, reachedOther, fun lower below same => ?_, concrete⟩
    rcases Nat.lt_or_eq_of_le below with nearer | rfl
    · exact first lower nearer other same false concrete
    · cases same.symm.trans reached
      exact own concrete

end

/-- A member is a class with instances that is checked and not reported, and these are the types on
its way up. -/
def Accepts (done : Session) (id : Nat) (chain : List TypeTree) : Prop :=
  done.program.pool.Small ∧ ∃ unit ∈ done.units, Progress.checked.rank ≤ unit.progress.rank ∧
    ∃ member ∈ unit.members.members[id]?, member.isClass = true ∧ member.isConcrete = true ∧
    unit.Accepts member ∧
      ∀ step ∈ chain.zipIdx, done.program.chain? (done.program.pool.tree member.type)
        step.2 = some step.1

instance (done : Session) (id : Nat) (chain : List TypeTree) : Decidable (done.Accepts id chain) :=
  inferInstanceAs (Decidable (_ ∧ _))

/-- `B` implements the method of `A<int>` for `C`. -/
def implementingUnit : SourceUnit where
  name := "main"
  classes := [
    { name := "A", typeParams := [{ name := "T", span := ⟨0, 1⟩ }],
      modifiers := { isAbstract := true }, span := ⟨2, 3⟩
      methods := [
        { name := "m"
          params := [{ name := "x", type := .named "T" [] ⟨4, 5⟩, span := ⟨6, 7⟩ }]
          returns := .named "int" [] ⟨8, 9⟩, modifiers := { isAbstract := true }
          span := ⟨10, 11⟩ }] },
    { name := "B", superclass := some (.named "A" [.named "int" [] ⟨12, 13⟩] ⟨14, 15⟩),
      span := ⟨16, 17⟩
      methods := [
        { name := "m"
          params := [{ name := "x", type := .named "int" [] ⟨18, 19⟩, span := ⟨20, 21⟩ }]
          returns := .named "int" [] ⟨22, 23⟩, body := some (.node 0), span := ⟨24, 25⟩ }] },
    { name := "C", superclass := some (.named "B" [] ⟨26, 27⟩), span := ⟨28, 29⟩ }]
  arena := { exprs := #[⟨.literal (.int 0), ⟨30, 31⟩⟩] }

/-- The first class above `C` that declares `m(int)` declares it with a body. -/
theorem concrete_classes_implement_generic : ∃ done, compile { sources := [implementingUnit] } = .ok
    (.ok done) ∧
    done.Accepts 4 [.class_ "C", .class_ "B", .applied "A" [.int]] ∧
    done.program.Declares (.applied "A" [.int]) "m" [.int] true ∧
    done.program.Declares (.class_ "B") "m" [.int] false := by
  obtain ⟨done, ran, accepts, isAbstract, declares, fresh, only⟩ :=
    exists_run { sources := [implementingUnit] }
      (fun done => done.Accepts 4 [.class_ "C", .class_ "B", .applied "A" [.int]] ∧
      done.program.Declares (.applied "A" [.int]) "m" [.int] true ∧
      (∃ isAbstract, done.program.Declares (.class_ "B") "m" [.int] isAbstract) ∧
      (∀ isAbstract, ¬ done.program.Declares (.class_ "C") "m" [.int] isAbstract) ∧
      ∀ other ∈ done.program.trees.ancestors (.class_ "C"),
        done.program.Declares other "m" [.int] false → other = .class_ "B") (by decide +kernel)
  have ran : compile { sources := [implementingUnit] } = .ok (.ok done) := congrArg Except.ok ran
  refine ⟨done, ran, accepts, isAbstract, ?_⟩
  obtain ⟨small, unit, listed, checked, member, found, isClass, isConcrete, accepted, steps⟩ :=
    accepts
  have self : done.program.pool.tree member.type = .class_ "C" :=
    Option.some.inj (steps (_, 0) (by decide))
  have first : ∀ lower < 1, ∀ below,
      done.program.chain? (done.program.pool.tree member.type) lower = some below →
      ∀ isAbstract, ¬ done.program.Declares below "m" [.int] isAbstract := by
    intro lower isFirst below same
    cases Nat.lt_one_iff.mp isFirst
    cases same
    rw [self]
    exact fresh
  rcases concrete_classes_implement ran small listed checked found isClass isConcrete accepted 1
    _ "m" [.int] (steps (_, 1) (by decide)) declares first with concrete |
      ⟨other, inherits, apart, concrete⟩
  · exact concrete
  · rw [self] at inherits
    exact absurd (only other inherits concrete ▸ steps (_, 1) (by decide)) (apart 1 (Nat.le_refl 1))

/-- `B` declares the method of `A` abstract again, and `C` inherits it. -/
def redeclaringUnit : SourceUnit where
  name := "main"
  classes := [
    { name := "A", span := ⟨0, 1⟩
      methods := [
        { name := "m", returns := .named "int" [] ⟨2, 3⟩, body := some (.node 0)
          span := ⟨4, 5⟩ }] },
    { name := "B", superclass := some (.named "A" [] ⟨6, 7⟩), modifiers := { isAbstract := true },
      span := ⟨8, 9⟩
      methods := [
        { name := "m", returns := .named "int" [] ⟨10, 11⟩, modifiers := { isAbstract := true }
          span := ⟨12, 13⟩ }] },
    { name := "C", superclass := some (.named "B" [] ⟨14, 15⟩), span := ⟨16, 17⟩ }]
  arena := { exprs := #[⟨.literal (.int 0), ⟨18, 19⟩⟩] }

/-- The first class above `C` that declares `m()` declares it abstract only, but no error is
reported. -/
theorem concrete_class_lacks_method : ∃ done, compile { sources := [redeclaringUnit] } = .ok
    (.ok done) ∧
    done.errorCount = 0 ∧ done.Accepts 4 [.class_ "C", .class_ "B", .class_ "A"] ∧
    (∀ isAbstract, ¬ done.program.Declares (.class_ "C") "m" [] isAbstract) ∧
    done.program.Declares (.class_ "B") "m" [] true ∧
    ¬ done.program.Declares (.class_ "B") "m" [] false := by
  obtain ⟨done, ran, lacks⟩ := exists_run { sources := [redeclaringUnit] }
    (fun done => done.errorCount = 0 ∧ done.Accepts 4 [.class_ "C", .class_ "B", .class_ "A"] ∧
      (∀ isAbstract, ¬ done.program.Declares (.class_ "C") "m" [] isAbstract) ∧
      done.program.Declares (.class_ "B") "m" [] true ∧
      ¬ done.program.Declares (.class_ "B") "m" [] false)
    (by decide +kernel)
  exact ⟨done, congrArg Except.ok ran, lacks⟩

end Session
end ClassLang
