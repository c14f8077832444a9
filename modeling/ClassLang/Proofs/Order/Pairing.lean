import ClassLang.Proofs.Order.Phases

/-! A phase in two runs. Every unit is visited between other units in both, finds what belongs to it
as it was when the phase began, and leaves it alike. -/

namespace ClassLang

/-- What belongs to some symbols and parameters is the same up to numbers. -/
structure Renaming.Agrees (rename : Renaming) (touches : Nat → Prop) (binds : ParamRef → Prop)
    (program program' : Program) : Prop where
  symbols : ∀ id, touches id →
    program'.symbols.symbols[rename.symbols id]? = rename.on program.symbols.symbols[id]?
  records : ∀ id, touches id →
    program'.symbols.recordsOf (rename.symbols id) = rename.on (program.symbols.recordsOf id)
  params : ∀ param, binds param →
    program'.pool.params[(rename.on param).raw]? = rename.on program.pool.params[param.raw]?

/-- The units of one program stand, under other numbers, in the other, and share no declaration. -/
structure Renaming.Pairs (rename : Renaming) (units units' : List CompilationUnit) : Prop where
  places : ∀ index : Nat, units'[rename.units index]? = rename.on units[index]?
  apart : units.Pairwise CompilationUnit.Apart
  apart' : units'.Pairwise CompilationUnit.Apart

namespace CompilationUnit

variable {rename : Renaming} {unit : CompilationUnit}

theorem mem_symbols_on {id : Nat} : rename.symbols id ∈ (rename.on unit).symbols ↔
    id ∈ unit.symbols := by
  change rename.symbols id ∈ unit.symbols.map rename.symbols ↔ _
  rw [Array.mem_map]
  exact ⟨fun ⟨_, member, same⟩ => rename.symbols.injective same ▸ member, fun member =>
    ⟨id, member, rfl⟩⟩

theorem mem_params_on {param : ParamRef} : rename.on param ∈ (rename.on unit).params ↔
    param ∈ unit.params := by
  rw [params_on]
  exact List.mem_map_of_injective rename.on.injective

end CompilationUnit

namespace Renaming.Agrees

variable {rename : Renaming} {touches touched touched' : Nat → Prop}
    {binds bound bound' : ParamRef → Prop}
  {settled : Prop} {program program' after after' : Program}

/-- What is not touched stays the same. -/
theorem advance (agrees : rename.Agrees touches binds program program')
    (led : program.Advances settled touched bound after)
    (led' : program'.Advances settled touched' bound' after')
    (symbols : ∀ id, touches id → ¬ touched id ∧ ¬ touched' (rename.symbols id))
    (params : ∀ param, binds param → ¬ bound param ∧ ¬ bound' (rename.on param)) :
    rename.Agrees touches binds after after' where
  symbols id own := by
    rw [led.symbols id (symbols id own).1, led'.symbols _ (symbols id own).2]
    exact agrees.symbols id own
  records id own := by
    rw [led.records id (symbols id own).1, led'.records _ (symbols id own).2]
    exact agrees.records id own
  params param own := by
    rw [led.params param (params param own).1, led'.params _ (params param own).2]
    exact agrees.params param own

/-- What belongs to a unit stays the same while other units are worked on. -/
theorem aside {unit : CompilationUnit}
    (agrees : rename.Agrees (· ∈ unit.symbols) (· ∈ unit.params) program program')
    (led : program.Advances settled (· ∉ unit.symbols) (· ∉ unit.params) after)
    (led' : program'.Advances settled (· ∉ (rename.on unit).symbols)
      (· ∉ (rename.on unit).params) after') :
    rename.Agrees (· ∈ unit.symbols) (· ∈ unit.params) after after' := by
  apply agrees.advance led led'
  · exact fun id own => ⟨not_not.mpr own, not_not.mpr (CompilationUnit.mem_symbols_on.mpr own)⟩
  · exact fun param own => ⟨not_not.mpr own, not_not.mpr (CompilationUnit.mem_params_on.mpr own)⟩

/-- All is the same if what belongs to a unit is, and what belongs to none. -/
theorem of_units {units : List CompilationUnit}
    (owned : ∀ unit ∈ units, rename.Agrees (· ∈ unit.symbols) (· ∈ unit.params) program program')
    (foreign : rename.Agrees (fun id => ¬ ∃ unit ∈ units, id ∈ unit.symbols)
      (fun param => ¬ ∃ unit ∈ units, param ∈ unit.params) program program') :
    rename.Agrees (fun _ => True) (fun _ => True) program program' where
  symbols id _ := by
    by_cases own : ∃ unit ∈ units, id ∈ unit.symbols
    · obtain ⟨unit, member, own⟩ := own
      exact (owned unit member).symbols id own
    · exact foreign.symbols id own
  records id _ := by
    by_cases own : ∃ unit ∈ units, id ∈ unit.symbols
    · obtain ⟨unit, member, own⟩ := own
      exact (owned unit member).records id own
    · exact foreign.records id own
  params param _ := by
    by_cases own : ∃ unit ∈ units, param ∈ unit.params
    · obtain ⟨unit, member, own⟩ := own
      exact (owned unit member).params param own
    · exact foreign.params param own

end Renaming.Agrees

namespace Renaming.Pairs

variable {rename : Renaming} {units units' : List CompilationUnit}
    (pairs : rename.Pairs units units')
include pairs

theorem exists_origin {unit' : CompilationUnit} (member : unit' ∈ units') :
    ∃ unit ∈ units, unit' = rename.on unit := by
  obtain ⟨index', found'⟩ := List.mem_iff_getElem?.mp member
  obtain ⟨index, rfl⟩ := rename.units.surjective index'
  rw [pairs.places] at found'
  obtain ⟨unit, found, same⟩ := Option.map_eq_some_iff.mp found'
  exact ⟨unit, List.mem_of_getElem? found, same.symm⟩

/-- What belongs to no unit of the first program belongs to none of the second. -/
theorem not_owned {id : Nat} (alone : ¬ ∃ unit ∈ units, id ∈ unit.symbols) :
    ¬ ∃ unit ∈ units', rename.symbols id ∈ unit.symbols := by
  rintro ⟨unit', member, own⟩
  obtain ⟨unit, present, rfl⟩ := pairs.exists_origin member
  exact alone ⟨unit, present, CompilationUnit.mem_symbols_on.mp own⟩

theorem not_bound {param : ParamRef} (alone : ¬ ∃ unit ∈ units, param ∈ unit.params) :
    ¬ ∃ unit ∈ units', rename.on param ∈ unit.params := by
  rintro ⟨unit', member, own⟩
  obtain ⟨unit, present, rfl⟩ := pairs.exists_origin member
  exact alone ⟨unit, present, CompilationUnit.mem_params_on.mp own⟩

end Renaming.Pairs

theorem Program.Advances.classNames {settled : Prop} {touches : Nat → Prop}
    {binds : ParamRef → Prop} {program after : Program}
    (advances : program.Advances settled touches binds after) :
    after.symbols.classes.map (·.name) = program.symbols.classes.map (·.name) := by
  have named := congrArg (List.map ClassRecord.name) advances.classes
  rwa [List.map_map, List.map_map] at named

namespace Renaming.Shared

variable {rename : Renaming} {program program' : Program} {first second : TypePool} {stage : Stage}

theorem agrees (shared : rename.Shared program program') (touches : Nat → Prop)
    (binds : ParamRef → Prop) : rename.Agrees touches binds program program' where
  symbols id _ := shared.symbols id
  records id _ := shared.records id
  params param _ := shared.params param

/-- A stage on a unit leaves what is not the unit's. -/
theorem framed (shared : rename.Shared program program') (carries : rename.Carries first second) :
    program.Framed (stage ≠ .resolveTypes) stage := by
  intro here after unit done near ran
  unfold Program.visit at ran
  split at ran
  · cases ran
    exact ⟨.refl _ _ _ _, rfl, rfl⟩
  · obtain ⟨work, worked, rfl, rfl⟩ := Program.runStage_eq_ok ran
    let cross := shared.crossing carries near
      (.refl (stage ≠ .resolveTypes) (fun _ => True) (fun _ => True) program') unit
    have agree := @Crossing.runMembers_agrees cross stage Iff.rfl unit.members.ids
    have advances := agree.leadsLeft _ (.refl _ cross.start) () work worked
    exact ⟨advances.toAdvances, advances.unitSymbols, advances.unitParams⟩

theorem framed' (shared : rename.Shared program program') (carries : rename.Carries first second) :
    program'.Framed (stage ≠ .resolveTypes) stage := by
  intro here after unit done near ran
  obtain ⟨unit, rfl⟩ := rename.on.surjective unit
  unfold Program.visit at ran
  split at ran
  · cases ran
    exact ⟨.refl _ _ _ _, rfl, rfl⟩
  · obtain ⟨work, worked, rfl, rfl⟩ := Program.runStage_eq_ok ran
    let cross := shared.crossing carries
      (.refl (stage ≠ .resolveTypes) (fun _ => True) (fun _ => True) program) near unit
    have agree := @Crossing.runMembers_agrees cross stage Iff.rfl (rename.on unit).members.ids
    have advances := agree.leadsRight _ (.refl _ cross.start') () work worked
    exact ⟨advances.toAdvances, advances.unitSymbols, advances.unitParams⟩

/-- Visits of a unit in both runs leave it, and what is published for it, the same up to numbers. -/
theorem visit_agrees (shared : rename.Shared program program')
    (carries : rename.Carries first second) {here here' after after' : Program}
    {unit done done' : CompilationUnit}
    (near : program.Advances (stage ≠ .resolveTypes) (· ∉ unit.symbols) (· ∉ unit.params) here)
    (near' : program'.Advances (stage ≠ .resolveTypes) (· ∉ (rename.on unit).symbols)
      (· ∉ (rename.on unit).params) here')
    (ran : here.visit stage unit = .ok (after, done))
    (ran' : here'.visit stage (rename.on unit) = .ok (after', done'))
    (fits : TypePool.Prefix after.pool first) (fits' : TypePool.Prefix after'.pool second) :
    done' = rename.on done ∧ rename.Agrees (· ∈ unit.symbols) (· ∈ unit.params) after after' := by
  have agrees := (shared.agrees (· ∈ unit.symbols) (· ∈ unit.params)).aside near near'
  have progress : (rename.on unit).progress = unit.progress := rfl
  unfold Program.visit at ran ran'
  rw [progress] at ran'
  split at ran
  · rename_i waits
    rw [if_pos waits] at ran'
    cases ran
    cases ran'
    exact ⟨rfl, agrees⟩
  · rename_i ready
    rw [if_neg ready] at ran'
    obtain ⟨work, worked, rfl, rfl⟩ := Program.runStage_eq_ok ran
    obtain ⟨work', worked', rfl, rfl⟩ := Program.runStage_eq_ok ran'
    let cross := shared.crossing carries near near' unit
    have agree := @Crossing.runMembers_agrees cross stage Iff.rfl unit.members.ids
    have same : (rename.on unit).members.ids = unit.members.ids :=
      MemberArena.ids_on rename unit.members
    rw [same] at worked'
    have alike : cross.Alike cross.start cross.start' :=
      ⟨rfl, rfl, agrees.params, agrees.symbols, agrees.records⟩
    obtain ⟨-, later⟩ := agree.agrees cross.start cross.start' (.refl _ _) (.refl _ _) alike () work
      () work' worked worked' ⟨fits, fits'⟩
    refine ⟨?_, later.symbols, later.records, later.params⟩
    rw [show work'.unit = rename.on work.unit from later.unit, later.reports]
    rfl

/-- A unit that is visited in both phases is left the same up to numbers, also when the phases are
over. -/
theorem visits_agree (shared : rename.Shared program program')
    (carries : rename.Carries first second) {final final' : Program}
    {unit done done' : CompilationUnit}
    (visits : Program.Visits (stage ≠ .resolveTypes) stage program final unit done)
    (visits' : Program.Visits (stage ≠ .resolveTypes) stage program' final' (rename.on unit) done')
    (fits : TypePool.Prefix final.pool first) (fits' : TypePool.Prefix final'.pool second) :
    done' = rename.on done ∧ rename.Agrees (· ∈ unit.symbols) (· ∈ unit.params) final final' := by
  obtain ⟨-, before, after, near, ran, later⟩ := visits
  obtain ⟨-, before', after', near', ran', later'⟩ := visits'
  have within : TypePool.Prefix after.pool first :=
    later.types.trans fits
  have within' : TypePool.Prefix after'.pool second :=
    later'.types.trans fits'
  obtain ⟨same, agrees⟩ := shared.visit_agrees carries near near' ran ran' within within'
  exact ⟨same, agrees.aside later later'⟩

end Renaming.Shared

namespace PhaseState

variable {rename : Renaming} {first second : TypePool} {stage : Stage}
    {state state' final final' : PhaseState}

/-- A phase over paired units leaves paired units in programs that are the same up to numbers. -/
theorem runPhase_pairs (carries : rename.Carries first second)
    (shared : rename.Shared state.program state'.program)
    (pairs : rename.Pairs state.units state'.units) (free : state.budget.limitReached = false)
    (free' : state'.budget.limitReached = false) (ran : state.runPhase stage = .ok final)
    (ran' : state'.runPhase stage = .ok final') (fits : TypePool.Prefix final.program.pool first)
    (fits' : TypePool.Prefix final'.program.pool second) :
    rename.Shared final.program final'.program ∧ rename.Pairs final.units final'.units := by
  unfold runPhase at ran ran'
  rw [if_neg (by simp [free])] at ran
  rw [if_neg (by simp [free'])] at ran'
  obtain ⟨dones, units, length, visits, advances⟩ :=
    @runUnits_visits _ stage { state with units := [] } final state.program state.units
      (shared.framed carries) (.refl _ _ _ _) pairs.apart ran
  obtain ⟨dones', units', length', visits', advances'⟩ :=
    @runUnits_visits _ stage { state' with units := [] } final' state'.program state'.units
      (shared.framed' carries) (.refl _ _ _ _) pairs.apart' ran'
  rw [List.nil_append] at units units'
  -- The two visits of a unit, which come at different times of the two phases.
  have visited (index : Nat) (unit : CompilationUnit) (found : state.units[index]? = some unit) :
      ∃ done, dones[index]? = some done ∧ dones'[rename.units index]? = some (rename.on done) ∧
        rename.Agrees (· ∈ unit.symbols) (· ∈ unit.params) final.program final'.program := by
    have found' : state'.units[rename.units index]? = some (rename.on unit) := by
      rw [pairs.places, found]
      rfl
    obtain ⟨done, listed, visit⟩ := visits index unit found
    obtain ⟨done', listed', visit'⟩ := visits' _ _ found'
    obtain ⟨rfl, agrees⟩ := shared.visits_agree carries visit visit' fits fits'
    exact ⟨done, listed, listed', agrees⟩
  have agrees : rename.Agrees (fun _ => True) (fun _ => True) final.program final'.program := by
    apply Renaming.Agrees.of_units
    · intro unit member
      obtain ⟨index, found⟩ := List.mem_iff_getElem?.mp member
      obtain ⟨_, _, _, agrees⟩ := visited index unit found
      exact agrees
    · apply (shared.agrees _ _).advance advances advances'
      · exact fun id alone => ⟨alone, pairs.not_owned alone⟩
      · exact fun param alone => ⟨alone, pairs.not_bound alone⟩
  constructor
  · constructor
    case symbols => exact fun id => agrees.symbols id trivial
    case records => exact fun id => agrees.records id trivial
    case params => exact fun param => agrees.params param trivial
    case names => rw [advances.classNames]; exact shared.names
    case names' => rw [advances'.classNames]; exact shared.names'
  · rw [units, units']
    refine ⟨fun index => ?_, Program.Visits.pairwise_apart length visits pairs.apart,
      Program.Visits.pairwise_apart length' visits' pairs.apart'⟩
    cases found : state.units[index]? with
    | some unit =>
      obtain ⟨done, listed, listed', _⟩ := visited index unit found
      rw [listed, listed']
      rfl
    | none =>
      have outside : state.units.length ≤ index := List.getElem?_eq_none_iff.mp found
      have outside' : state'.units.length ≤ rename.units index := by
        rw [← List.getElem?_eq_none_iff, pairs.places, found]
        rfl
      rw [List.getElem?_eq_none (length.le.trans outside),
        List.getElem?_eq_none (length'.le.trans outside')]
      rfl

end PhaseState

end ClassLang
