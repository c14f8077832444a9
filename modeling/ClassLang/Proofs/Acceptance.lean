import ClassLang.Proofs.Session

/-! What an accepted match covers: every class below its subject, as far as sealed classes are
extended by permitted classes only. -/

namespace ClassLang
open Relation

namespace Program

/-- A declared supertype of `class_` is the class `parent`. -/
def HasParent (program : Program) (class_ parent : Name) : Prop :=
  ∃ type ∈ program.symbols.hierarchy.supertypes class_,
    program.pool.baseName? type = .ok (some parent)

/-- `ancestor` is the class itself or one above it. -/
def Inherits (program : Program) : Name → Name → Prop := ReflTransGen program.HasParent

/-- If the class is sealed, only permitted classes declare it as a supertype. -/
def OnlyPermitted (program : Program) (name : Name) : Prop :=
  ∀ permits, program.symbols.hierarchy.variants name = some permits →
    ∀ class_, program.HasParent class_ name → class_ ∈ permits

variable {program : Program} {name class_ : Name}

/-- The classes that the analysis looks for lie above all that can be instantiated. -/
theorem exists_root (only : program.OnlyPermitted name)
    (concrete : program.symbols.hierarchy.isAbstract class_ = false)
    (inherits : program.Inherits class_ name) :
    ∃ root ∈ program.symbols.hierarchy.roots name, program.Inherits class_ root := by
  unfold ClassHierarchy.roots
  cases sealed : program.symbols.hierarchy.variants name with
  | none => exact ⟨name, List.mem_singleton.mpr rfl, inherits⟩
  | some permits =>
    rcases inherits.cases_tail with rfl | ⟨direct, below, parent⟩
    · exact ⟨name, by simp [concrete], .refl⟩
    · exact ⟨direct, List.mem_append_left _ (only permits sealed direct parent), below⟩

/-- Names that are closed under parents hold all that is above one of them. -/
theorem Inherits.mem {names : List Name} {ancestor : Name}
    (inherits : program.Inherits class_ ancestor) (member : class_ ∈ names)
    (closed : ∀ name ∈ names, ∀ type ∈ program.symbols.hierarchy.supertypes name,
      ∃ parent ∈ names, program.pool.baseName? type = .ok (some parent)) : ancestor ∈ names := by
  induction inherits with
  | refl => exact member
  | tail _ step ih =>
    obtain ⟨type, declared, base⟩ := step
    obtain ⟨parent, listed, ran⟩ := closed _ ih type declared
    cases base.symm.trans ran
    exact listed

end Program

namespace Session

/-- A match of a session without errors that only takes classes apart names, for every class that
can be instantiated below its subject, that class or one above it; of a sealed subject only
permitted classes must be declared below it. -/
theorem accepted_match_covers (config : SessionConfig) (sources : List SourceUnit) (done : Session)
    (ran : compile { config, sources } = .ok (.ok done)) (clean : done.errorCount = 0) :
    List.Forall₂ (fun source unit => ∀ body ∈ source.bodies, ∀ index,
      source.arena.Contains body index → ∀ scrutinee arms span,
      source.arena.exprs[index]? = some ⟨.matchOn scrutinee arms, span⟩ →
      (∀ arm ∈ arms, ∃ class_, source.arena.TakesClass arm.pattern class_) →
      ∃ group, unit.matchGroups.get? index = some group ∧
        ∀ name, done.program.pool.types[group.subject.raw]? = some (.class_ name) →
          done.program.OnlyPermitted name →
          ∀ class_, done.program.symbols.hierarchy.isAbstract class_ = false →
            done.program.Inherits class_ name →
            ∃ arm ∈ arms, ∃ root, source.arena.TakesClass arm.pattern root ∧
              done.program.Inherits class_ root) sources done.units := by
  obtain ⟨_, rank, holds⟩ := schedule_of_clean ran clean
  have quiet : ∀ unit ∈ done.units, unit.diagnostics.errorCount = 0 := by
    intro unit member
    exact List.sum_eq_zero_iff_forall_eq_nat.mp clean _ (List.mem_map_of_mem member)
  have quietly := (List.forall₂_and_left _ _).mpr ⟨quiet, holds.units.flip⟩
  refine quietly.flip.imp ?_
  rintro source unit ⟨faultless, stands, reached⟩ body written index contained scrutinee arms span
    read takes
  replace reached : unit.progress = .constantsFolded := reached
  have match_ : source.arena.IsMatch index := ⟨scrutinee, arms, span, read⟩
  obtain ⟨group, found⟩ := Option.isSome_iff_exists.mp
    (stands.grouped (by rw [reached]; decide) body written index contained match_)
  refine ⟨group, found, fun name subject only class_ concrete inherits => ?_⟩
  obtain ⟨root, listed, below⟩ := Program.exists_root only concrete inherits
  obtain ⟨arm, member, takesRoot⟩ :=
    stands.covered (by rw [reached]; decide) faultless body written index contained match_
      group scrutinee arms span found read takes name subject root listed
  exact ⟨arm, member, root, takesRoot, below⟩

/-- An abstract class that permits `A` only, classes below it, and a match on it that takes `A`
apart. -/
def sealedUnit (subclasses : List Name) : SourceUnit where
  name := "main"
  classes :=
    [{ name := "S", permits := ["A"], span := ⟨0, 1⟩
       modifiers := { isAbstract := true, isSealed := true } }] ++
    subclasses.map (fun name =>
      { name, superclass := some (.named "S" [] ⟨10, 11⟩), span := ⟨8, 9⟩ }) ++
    [{ name := "M", span := ⟨20, 21⟩, methods := [{
       name := "f", params := [{ name := "x", type := .named "S" [] ⟨30, 31⟩, span := ⟨32, 33⟩ }]
       returns := .named "int" [] ⟨26, 29⟩, body := some (.node 2), span := ⟨24, 25⟩ }] }]
  arena := {
    exprs := #[⟨.ident "x", ⟨50, 51⟩⟩, ⟨.literal (.int 1), ⟨64, 65⟩⟩,
      ⟨.matchOn (.node 0) [⟨0, .node 1, ⟨60, 65⟩⟩], ⟨44, 70⟩⟩]
    patterns := #[⟨.deconstruct "A" [], ⟨60, 63⟩⟩] }

theorem sealedUnit_takes (subclasses : List Name) :
    (sealedUnit subclasses).arena.TakesClass 0 "A" :=
  ⟨[], ⟨60, 63⟩, rfl, by simp⟩

theorem sealedUnit_takes_eq {subclasses : List Name} {root : Name}
    (takes : (sealedUnit subclasses).arena.TakesClass 0 root) : root = "A" := by
  obtain ⟨fields, span, found, _⟩ := takes
  cases found
  rfl

/-- The match of the unit is accepted, with `S` as its subject and `class_` below it. -/
def AcceptsBelow (done : Session) (class_ : Name) : Prop :=
  done.errorCount = 0 ∧
  (done.units.map fun unit => (unit.matchGroups.get? 2).bind fun group =>
    done.program.pool.types[group.subject.raw]?) = [some (.class_ "S")] ∧
  done.program.symbols.hierarchy.isAbstract class_ = false ∧
  ∃ type ∈ done.program.symbols.hierarchy.supertypes class_,
    done.program.pool.baseName? type = .ok (some "S")

instance (done : Session) (class_ : Name) : Decidable (done.AcceptsBelow class_) :=
  inferInstanceAs (Decidable (_ ∧ _))

theorem AcceptsBelow.exists_group {done : Session} {class_ : Name}
    (accepts : done.AcceptsBelow class_) : ∃ unit group, done.units = [unit] ∧
    unit.matchGroups.get? 2 = some group ∧
      done.program.pool.types[group.subject.raw]? = some (.class_ "S") := by
  obtain ⟨unit, units, subject⟩ := List.map_eq_singleton_iff.mp accepts.2.1
  obtain ⟨group, found, stored⟩ := Option.bind_eq_some_iff.mp subject
  exact ⟨unit, group, units, found, stored⟩

theorem AcceptsBelow.inherits {done : Session} {class_ : Name}
    (accepts : done.AcceptsBelow class_) : done.program.Inherits class_ "S" :=
  .single accepts.2.2.2

theorem accepted_match_covers_sealed : ∃ done,
    compile { sources := [sealedUnit ["A"]] } = .ok (.ok done) ∧ done.errorCount = 0 ∧
    ∃ unit group, done.units = [unit] ∧ unit.matchGroups.get? 2 = some group ∧
      done.program.pool.types[group.subject.raw]? = some (.class_ "S") ∧
      done.program.OnlyPermitted "S" ∧ done.program.Inherits "A" "S" ∧
      ∃ root, (sealedUnit ["A"]).arena.TakesClass 0 root ∧ done.program.Inherits "A" root := by
  obtain ⟨done, ran, accepts, variants, only⟩ :=
    exists_run { sources := [sealedUnit ["A"]] } (fun done => done.AcceptsBelow "A" ∧
      done.program.symbols.hierarchy.variants "S" = some ["A"] ∧
      ∀ record ∈ done.program.symbols.classes,
        record.name = "A" ∨ done.program.symbols.hierarchy.supertypes record.name = [])
      (by decide +kernel)
  have permitted : done.program.OnlyPermitted "S" := by
    rintro permits answer class_ ⟨type, declared, base⟩
    cases variants.symm.trans answer
    obtain ⟨record, listed, rfl⟩ := SymbolTable.exists_record_of_supertype declared
    rcases only record listed with same | bare
    · simp [same]
    · rw [bare] at declared
      cases declared
  have compiled : compile { sources := [sealedUnit ["A"]] } = .ok (.ok done) :=
    congrArg Except.ok ran
  have covers := accepted_match_covers {} [sealedUnit ["A"]] done compiled accepts.1
  obtain ⟨unit, group, units, found, subject⟩ := accepts.exists_group
  rw [units, List.forall₂_cons] at covers
  obtain ⟨other, same, rest⟩ :=
    covers.1 (.node 2) (by simp [SourceUnit.bodies, ClassDecl.bodies, sealedUnit])
    2 ⟨2, rfl, .refl⟩ (.node 0) [⟨0, .node 1, ⟨60, 65⟩⟩] ⟨44, 70⟩ rfl
    (by simpa using ⟨"A", sealedUnit_takes ["A"]⟩)
  cases found.symm.trans same
  obtain ⟨arm, member, root, takes, above⟩ :=
    rest "S" subject permitted "A" accepts.2.2.1 accepts.inherits
  cases List.mem_singleton.mp member
  exact ⟨done, compiled, accepts.1, unit, group, units, found, subject, permitted, accepts.inherits,
    root, takes, above⟩

/-- The stages accept a match that misses a class below its sealed subject: nothing keeps a class
that is not permitted from declaring the sealed class as its supertype. -/
theorem accepted_match_misses_class : ∃ done,
    compile { sources := [sealedUnit ["A", "B"]] } = .ok (.ok done) ∧ done.errorCount = 0 ∧
    ∃ unit group arms, done.units = [unit] ∧ unit.matchGroups.get? 2 = some group ∧
      done.program.pool.types[group.subject.raw]? = some (.class_ "S") ∧
      (∃ scrutinee span, (sealedUnit ["A", "B"]).arena.exprs[2]? =
        some ⟨.matchOn scrutinee arms, span⟩) ∧
      (∀ arm ∈ arms, ∃ class_, (sealedUnit ["A", "B"]).arena.TakesClass arm.pattern class_) ∧
      done.program.symbols.hierarchy.isAbstract "B" = false ∧ done.program.Inherits "B" "S" ∧
      ∀ arm ∈ arms, ∀ root, (sealedUnit ["A", "B"]).arena.TakesClass arm.pattern root →
        ¬ done.program.Inherits "B" root := by
  obtain ⟨done, ran, accepts, closed⟩ :=
    exists_run { sources := [sealedUnit ["A", "B"]] } (fun done => done.AcceptsBelow "B" ∧
      ∀ name ∈ ["B", "S"], ∀ type ∈ done.program.symbols.hierarchy.supertypes name,
        ∃ parent ∈ ["B", "S"], done.program.pool.baseName? type = .ok (some parent))
          (by decide +kernel)
  obtain ⟨unit, group, units, found, subject⟩ := accepts.exists_group
  refine ⟨done, congrArg Except.ok ran, accepts.1, unit, group, [⟨0, .node 1, ⟨60, 65⟩⟩],
    units, found, subject, ⟨.node 0, ⟨44, 70⟩, rfl⟩, by simpa using ⟨"A", sealedUnit_takes _⟩,
      accepts.2.2.1,
    accepts.inherits, fun arm member root takes above => ?_⟩
  cases List.mem_singleton.mp member
  rw [sealedUnit_takes_eq takes] at above
  exact absurd (above.mem List.mem_cons_self closed) (by decide)

end Session
end ClassLang
