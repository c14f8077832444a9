import ClassLang.Proofs.Order.Shared
import ClassLang.Proofs.Session

/-! A phase over the units in two orders. Whatever comes before or after a unit in a phase changes
nothing that belongs to it, so that every unit ends alike in both orders. -/

namespace ClassLang

/-- Units that share no symbol and no parameter. -/
def CompilationUnit.Apart (unit other : CompilationUnit) : Prop :=
  (∀ id ∈ unit.symbols, id ∉ other.symbols) ∧ ∀ param ∈ unit.params, param ∉ other.params

/-- The unit has the symbols and parameters that it had. -/
structure CompilationUnit.KeepsDeclared (unit done : CompilationUnit) : Prop where
  symbols : done.symbols = unit.symbols
  params : done.typeParams = unit.typeParams

namespace CompilationUnit.KeepsDeclared

variable {unit done other : CompilationUnit}

theorem same_params (keeps : unit.KeepsDeclared done) : done.params = unit.params :=
  congrArg (fun listed => listed.flatten.map (·.id)) keeps.params

theorem apart {other' : CompilationUnit} (keeps : unit.KeepsDeclared done)
    (keeps' : other.KeepsDeclared other') (apart : unit.Apart other) : done.Apart other' := by
  unfold Apart
  rw [keeps.symbols, keeps'.symbols, keeps.same_params, keeps'.same_params]
  exact apart

theorem pairwise_apart {units dones : List CompilationUnit} (length : dones.length = units.length)
    (keeps : ∀ (index : Nat) (unit : CompilationUnit), units[index]? = some unit →
      ∃ done, dones[index]? = some done ∧ unit.KeepsDeclared done)
    (apart : units.Pairwise Apart) : dones.Pairwise Apart := by
  have kept : ∀ (index : Nat) (inside : index < dones.length) (there : index < units.length),
      units[index].KeepsDeclared dones[index] := by
    intro index inside there
    obtain ⟨done, found, kept⟩ := keeps index _ (List.getElem?_eq_getElem there)
    rw [List.getElem?_eq_getElem inside] at found
    exact Option.some.inj found ▸ kept
  rw [List.pairwise_iff_getElem] at apart ⊢
  intro first second inside inside' before
  exact (kept first inside (length ▸ inside)).apart (kept second inside' (length ▸ inside'))
    (apart first second _ _ before)

end CompilationUnit.KeepsDeclared

namespace Program

/-- A stage on a unit, if the unit is ready for it. -/
def visit (program : Program) (stage : Stage) (unit : CompilationUnit) : Except Abort
    (Program × CompilationUnit) :=
  if unit.progress ≠ stage.required then .ok (program, unit) else program.runStage stage unit

/-- A stage on a unit changes what belongs to the unit, however far the phase has come that begins
with this program. -/
def Framed (settled : Prop) (stage : Stage) (program : Program) : Prop :=
  ∀ {here after : Program} {unit done : CompilationUnit},
    program.Advances settled (fun _ => True) (fun _ => True) here →
    here.visit stage unit = .ok (after, done) →
      here.Advances settled (· ∈ unit.symbols) (· ∈ unit.params) after ∧ unit.KeepsDeclared done

/-- Other units may be worked on before the unit is, and after. -/
structure Visits (settled : Prop) (stage : Stage) (start final : Program)
    (unit done : CompilationUnit) : Prop where
  keeps : unit.KeepsDeclared done
  visited : ∃ before after : Program,
    start.Advances settled (· ∉ unit.symbols) (· ∉ unit.params) before ∧
    before.visit stage unit = .ok (after, done) ∧
    after.Advances settled (· ∉ unit.symbols) (· ∉ unit.params) final

variable {settled : Prop} {stage : Stage} {program start middle final : Program}
    {unit done : CompilationUnit}

/-- Another unit is worked on first. -/
theorem Visits.later (visits : Visits settled stage middle final unit done)
    (advances : start.Advances settled (· ∉ unit.symbols) (· ∉ unit.params) middle) :
    Visits settled stage start final unit done := by
  obtain ⟨keeps, before, after, led, ran, leads⟩ := visits
  exact ⟨keeps, before, after, advances.trans led, ran, leads⟩

/-- Units that share no declaration share none when they have been visited. -/
theorem Visits.pairwise_apart {units dones : List CompilationUnit}
    (length : dones.length = units.length) (visits : ∀ (index : Nat) (unit : CompilationUnit),
      units[index]? = some unit → ∃ done, dones[index]? = some done ∧
      Visits settled stage start final unit done)
    (apart : units.Pairwise CompilationUnit.Apart) : dones.Pairwise CompilationUnit.Apart := by
  apply CompilationUnit.KeepsDeclared.pairwise_apart length _ apart
  intro index unit found
  obtain ⟨done, listed, visited⟩ := visits index unit found
  exact ⟨done, listed, visited.keeps⟩

end Program

namespace PhaseState

variable {settled : Prop} {stage : Stage} {state next final : PhaseState} {program : Program}

theorem runUnit_eq_ok {unit : CompilationUnit} (ran : state.runUnit stage unit = .ok next) :
    ∃ done, state.program.visit stage unit = .ok (next.program, done) ∧
    next.units = state.units ++ [done] := by
  unfold runUnit at ran
  unfold Program.visit
  split at ran
  · rename_i waits
    cases ran
    exact ⟨unit, if_pos waits, rfl⟩
  · rename_i ready
    obtain ⟨⟨after, done⟩, worked, made⟩ := Except.bind_eq_ok ran
    cases made
    exact ⟨done, (if_neg ready).trans worked, rfl⟩

/-- Every unit of a phase is visited once, and nothing is changed that belongs to none of them. -/
theorem runUnits_visits {waiting : List CompilationUnit} (framed : program.Framed settled stage)
    (near : program.Advances settled (fun _ => True) (fun _ => True) state.program)
    (apart : waiting.Pairwise CompilationUnit.Apart)
    (ran : waiting.foldlM (runUnit stage) state = .ok final) :
    ∃ dones, final.units = state.units ++ dones ∧ dones.length = waiting.length ∧
      (∀ (index : Nat) (unit : CompilationUnit), waiting[index]? = some unit → ∃ done,
        dones[index]? = some done ∧
        Program.Visits settled stage state.program final.program unit done) ∧
      state.program.Advances settled (fun id => ∃ unit ∈ waiting, id ∈ unit.symbols)
        (fun param => ∃ unit ∈ waiting, param ∈ unit.params) final.program := by
  -- The stage is framed against the program that the phase began with, which stays the same in the
  -- induction.
  induction waiting generalizing state with
  | nil =>
    cases ran
    refine ⟨[], (List.append_nil _).symm, rfl, fun _ _ found => ?_, .refl _ _ _ _⟩
    cases found
  | cons unit rest ih =>
    obtain ⟨next, first, others⟩ := Except.bind_eq_ok ran
    obtain ⟨done, visited, units⟩ := runUnit_eq_ok first
    obtain ⟨led, keeps⟩ := framed near visited
    obtain ⟨separate, later⟩ := List.pairwise_cons.mp apart
    have nearNext := near.trans (led.mono (fun _ _ => trivial) fun _ _ => trivial)
    obtain ⟨dones, listed, length, visits, leads⟩ := ih nearNext later others
    refine ⟨done :: dones, ?_, congrArg (· + 1) length, ?_, ?_⟩
    · rw [listed, units, List.append_assoc]
      rfl
    · intro index other found
      cases index with
      | zero =>
        cases found
        refine ⟨done, rfl, keeps, state.program, next.program, .refl _ _ _ _, visited,
          leads.mono ?_ ?_⟩
        · rintro id ⟨other, member, inside⟩ own
          exact (separate other member).1 id own inside
        · rintro param ⟨other, member, inside⟩ own
          exact (separate other member).2 param own inside
      | succ index =>
        obtain ⟨finished, there, visited⟩ := visits index other found
        have apartHere := separate other (List.mem_of_getElem? found)
        exact ⟨finished, there, visited.later (led.mono apartHere.1 apartHere.2)⟩
    · apply Program.Advances.trans
      · exact led.mono (fun id own => ⟨unit, List.mem_cons_self, own⟩) fun param own =>
          ⟨unit, List.mem_cons_self, own⟩
      · apply leads.mono
        · exact fun id ⟨other, member, inside⟩ => ⟨other, List.mem_cons_of_mem _ member, inside⟩
        · exact fun param ⟨other, member, inside⟩ => ⟨other, List.mem_cons_of_mem _ member, inside⟩

end PhaseState

end ClassLang
