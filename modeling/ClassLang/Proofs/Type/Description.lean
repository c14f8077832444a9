import ClassLang.Proofs.Type.Inheritance
import ClassLang.Type.Fault

/-! Walks through the types of a valid pool come to their end: parts come before the entry that has
them. -/

namespace ClassLang

/-- The report is as severe as its code. -/
def Diagnostic.Standard (diagnostic : Diagnostic) : Prop :=
  diagnostic.severity = diagnostic.code.defaultSeverity

/-- The types and parameters that a fault names are in the pool. -/
def TypeFault.HeldBy (pool : TypePool) : TypeFault → Prop
  | outsideBound param argument bound => pool.Declares param ∧ pool.Has argument ∧ pool.Has bound
  | varianceConflict param _ _ => pool.Declares param
  | unbound param => pool.Declares param

namespace TypePool

variable {pool : TypePool} {type : TypeRef}

namespace Valid
variable (valid : pool.Valid)
include valid

theorem displayWithin_ok : ∀ (depth : Nat) (type : TypeRef), pool.Has type → type.raw < depth →
    ∃ text, pool.displayWithin depth type = .ok text
  | 0, _, _, deep => absurd deep (Nat.not_lt_zero _)
  | depth + 1, type, inside, deep => by
    obtain ⟨node, found⟩ := inside.lookup
    have below : ∀ part ∈ node.parts, ∃ text, pool.displayWithin depth part = .ok text := by
      intro part member
      have smaller := valid.parts _ _ found part member
      exact displayWithin_ok depth part (Nat.lt_trans smaller inside) (by omega)
    unfold displayWithin
    split
    · exact ⟨_, rfl⟩
    · rw [node_eq found, ok_bind]
      cases node with
      | applied base args =>
        have each : ∀ part ∈ args, ∃ text, pool.displayWithin depth part = .ok text ∧ True :=
          fun part member => (below part member).imp fun _ ran => ⟨ran, trivial⟩
        obtain ⟨texts, shown, _⟩ := Except.mapM_ok each
        exact ⟨_, by dsimp only; rw [shown]; rfl⟩
      | var param variance =>
        obtain ⟨declared, stored⟩ := (valid.named _ _ _ found).lookup
        exact ⟨declared.name, by simp [TypePool.param, stored]⟩
      | wildcard variance bound =>
        obtain ⟨text, shown⟩ := below bound (by simp [TypeNode.parts])
        cases variance with
        | invariant => exact ⟨_, rfl⟩
        | _ => exact ⟨_, by dsimp only; rw [shown]; rfl⟩
      | _ => exact ⟨_, rfl⟩

/-- Every type of the pool can be shown. -/
theorem display_ok (inside : pool.Has type) : ∃ text, pool.display type = .ok text :=
  valid.displayWithin_ok _ type inside (Nat.lt_succ_of_lt inside)

theorem containsUnresolvedWithin_ok : ∀ (depth : Nat) (type : TypeRef), pool.Has type →
    type.raw < depth → ∃ answer, pool.containsUnresolvedWithin depth type = .ok answer
  | 0, _, _, deep => absurd deep (Nat.not_lt_zero _)
  | depth + 1, type, inside, deep => by
    obtain ⟨node, found⟩ := inside.lookup
    have below : ∀ part ∈ node.parts,
        ∃ answer, pool.containsUnresolvedWithin depth part = .ok answer := by
      intro part member
      have smaller := valid.parts _ _ found part member
      exact containsUnresolvedWithin_ok depth part (Nat.lt_trans smaller inside) (by omega)
    unfold containsUnresolvedWithin
    rw [node_eq found, ok_bind]
    cases node with
    | applied base args => exact Except.anyM_ok below
    | wildcard variance bound => exact below bound (by simp [TypeNode.parts])
    | _ => exact ⟨_, rfl⟩

theorem containsUnresolved_ok (inside : pool.Has type) :
    ∃ answer, pool.containsUnresolved type = .ok answer :=
  valid.containsUnresolvedWithin_ok _ type inside (Nat.lt_succ_of_lt inside)

omit valid in
/-- Where every name was found, none is found missing in a type. -/
theorem containsUnresolvedWithin_eq_false
    (found : ∀ (index : Nat) (name : Name), pool.types[index]? ≠ some (.unresolved name)) :
    ∀ (depth : Nat) (type : TypeRef) (answer : Bool),
      pool.containsUnresolvedWithin depth type = .ok answer → answer = false
  | 0, _, _, asked => nomatch asked
  | depth + 1, type, answer, asked => by
    obtain ⟨node, read, asked⟩ := Except.bind_eq_ok asked
    have below := containsUnresolvedWithin_eq_false found depth
    cases node with
    | unresolved name => exact absurd (lookup_of_node read) (found _ name)
    | applied base args =>
      have all : ∀ (args : List TypeRef) (answer : Bool),
          args.anyM (pool.containsUnresolvedWithin depth) = .ok answer → answer = false := by
        intro args
        induction args with
        | nil => exact fun answer asked => (Except.ok.inj asked).symm
        | cons arg rest ih =>
          intro answer asked
          obtain ⟨first, ran, asked⟩ := Except.bind_eq_ok asked
          cases below arg first ran
          exact ih answer asked
      exact all args answer asked
    | wildcard variance bound => exact below bound answer asked
    | _ => exact (Except.ok.inj asked).symm

theorem containsUnresolved_eq_false (inside : pool.Has type)
    (found : ∀ (index : Nat) (name : Name), pool.types[index]? ≠ some (.unresolved name)) :
    pool.containsUnresolved type = .ok false := by
  obtain ⟨answer, asked⟩ := valid.containsUnresolved_ok inside
  rw [asked, containsUnresolvedWithin_eq_false found _ type answer asked]

/-- Faults about types and parameters of the pool can be reported. -/
theorem toDiagnostic_ok {fault : TypeFault} (held : fault.HeldBy pool) (span : Span) :
    ∃ report, fault.toDiagnostic span pool = .ok report := by
  cases fault with
  | outsideBound param argument bound =>
    obtain ⟨declares, argumentHere, boundHere⟩ := held
    obtain ⟨declared, found⟩ := declares.lookup
    obtain ⟨argumentText, shownArgument⟩ := valid.display_ok argumentHere
    obtain ⟨boundText, shownBound⟩ := valid.display_ok boundHere
    simp [TypeFault.toDiagnostic, shownArgument, shownBound, TypePool.param, found]
  | varianceConflict param variance position =>
    obtain ⟨declared, found⟩ := Declares.lookup held
    simp [TypeFault.toDiagnostic, TypePool.param, found]
  | unbound param =>
    obtain ⟨declared, found⟩ := Declares.lookup held
    simp [TypeFault.toDiagnostic, TypePool.param, found]

theorem varianceConflictsWithin_ok {hierarchy : ClassHierarchy} (held : hierarchy.HeldBy pool)
    (position : TypePosition) : ∀ (depth : Nat) (type : TypeRef) (polarity : Variance)
      (before : List TypeFault), pool.Has type → type.raw < depth →
      (∀ fault ∈ before, fault.HeldBy pool) →
      ∃ faults, pool.varianceConflictsWithin hierarchy position depth type polarity before
        = .ok faults ∧ ∀ fault ∈ faults, fault.HeldBy pool
  | 0, _, _, _, _, deep, _ => absurd deep (Nat.not_lt_zero _)
  | depth + 1, type, polarity, before, inside, deep, heldBy => by
    obtain ⟨node, found⟩ := inside.lookup
    have partHere : ∀ part ∈ node.parts, pool.Has part ∧ part.raw < depth := by
      intro part member
      have smaller := valid.parts _ _ found part member
      exact ⟨Nat.lt_trans smaller inside, by omega⟩
    unfold varianceConflictsWithin
    split
    · exact ⟨before, rfl, heldBy⟩
    · rw [node_eq found, ok_bind]
      cases node with
      | var param variance =>
        dsimp only
        split
        · refine ⟨_, rfl, fun fault member => ?_⟩
          rcases List.mem_append.mp member with old | new
          · exact heldBy fault old
          · rw [List.mem_singleton.mp new]
            exact valid.named _ _ _ found
        · exact ⟨before, rfl, heldBy⟩
      | applied base args =>
        have each : ∀ param ∈ hierarchy.typeParams base, ∃ variance,
            (return (← pool.param param).variance : Except Abort Variance) = .ok variance ∧
            True := by
          intro param member
          obtain ⟨declared, there⟩ := (held.params base param member).lookup
          exact ⟨declared.variance, by simp [TypePool.param, there], trivial⟩
        obtain ⟨declared, read, _⟩ := Except.mapM_ok each
        dsimp only
        rw [TypePool.declaredVariances, read, ok_bind]
        refine Except.foldlM_ok heldBy fun entry member faults kept => ?_
        obtain ⟨partInside, partDeep⟩ :=
          partHere entry.1 (List.mem_of_getElem? (List.mem_zipIdx_iff_getElem?.mp member))
        obtain ⟨inner, seen⟩ := partInside.lookup
        obtain ⟨innerPolarity, judged⟩ : ∃ variance, pool.argumentPolarity
            (declared.getD entry.2 .invariant) polarity entry.1 = .ok variance := by
          unfold argumentPolarity
          rw [node_eq seen, ok_bind]
          cases inner <;> exact ⟨_, rfl⟩
        rw [judged, ok_bind]
        exact varianceConflictsWithin_ok held position depth entry.1 innerPolarity faults
          partInside partDeep kept
      | wildcard variance bound =>
        dsimp only
        split
        · exact ⟨before, rfl, heldBy⟩
        · obtain ⟨boundHere, boundDeep⟩ := partHere bound (by simp [TypeNode.parts])
          exact varianceConflictsWithin_ok held position depth bound polarity before boundHere
            boundDeep heldBy
      | _ => exact ⟨before, rfl, heldBy⟩

theorem varianceConflicts_ok {hierarchy : ClassHierarchy} (held : hierarchy.HeldBy pool)
    (inside : pool.Has type) (position : TypePosition) :
    ∃ faults, pool.varianceConflicts hierarchy type position = .ok faults ∧
      ∀ fault ∈ faults, fault.HeldBy pool :=
  valid.varianceConflictsWithin_ok held position _ type _ [] inside (Nat.lt_succ_of_lt inside)
    (by simp)

end Valid
end TypePool

theorem TypeFault.HeldBy.grow {before after : TypePool} {fault : TypeFault}
    (held : fault.HeldBy before) (growth : before.Growth after) : fault.HeldBy after := by
  cases fault with
  | outsideBound param argument bound =>
    exact ⟨growth.declares held.1, growth.has held.2.1, growth.has held.2.2⟩
  | varianceConflict param variance position => exact growth.declares held
  | unbound param => exact growth.declares held

/-- A fault is reported under its code, and as severe as the code says. -/
theorem TypeFault.toDiagnostic_eq_ok {fault : TypeFault} {span : Span} {pool : TypePool}
    {report : Diagnostic} (made : fault.toDiagnostic span pool = .ok report) :
    ∃ args notes, report = { code := fault.code, span, args, notes } := by
  cases fault with
  | outsideBound param argument bound =>
    obtain ⟨_, _, made⟩ := Except.bind_eq_ok made
    obtain ⟨_, _, made⟩ := Except.bind_eq_ok made
    obtain ⟨_, _, made⟩ := Except.bind_eq_ok made
    cases made
    exact ⟨_, _, rfl⟩
  | varianceConflict param variance position | unbound param =>
    obtain ⟨_, _, made⟩ := Except.bind_eq_ok made
    cases made
    exact ⟨_, _, rfl⟩

theorem TypeFault.toDiagnostic_standard {fault : TypeFault} {span : Span} {pool : TypePool}
    {report : Diagnostic} (made : fault.toDiagnostic span pool = .ok report) : report.Standard := by
  obtain ⟨args, notes, rfl⟩ := toDiagnostic_eq_ok made
  rfl

theorem TypeFault.toDiagnostic_code {fault : TypeFault} {span : Span} {pool : TypePool}
    {report : Diagnostic} (made : fault.toDiagnostic span pool = .ok report) :
    report.code = fault.code := by
  obtain ⟨args, notes, rfl⟩ := toDiagnostic_eq_ok made
  rfl

end ClassLang
