import ClassLang.Proofs.Session

/-! What is emitted: nothing if an error is kept anywhere, and otherwise every member and every
match of every unit once, in order. -/

namespace ClassLang

namespace IdMap
variable {α : Type} (map : IdMap α)

theorem mem_entries {key : Nat} {value : α} :
    (key, value) ∈ map.entries ↔ map.get? key = some value := by
  have slot : (key, value) ∈ map.entries ↔ map.slots[key]? = some (some value) := by
    unfold entries
    rw [List.mem_filterMap, ← Array.getElem?_toList]
    constructor
    · rintro ⟨⟨slot, index⟩, listed, made⟩
      obtain ⟨kept, rfl, same⟩ := Option.map_eq_some_iff.mp made
      cases same
      exact List.mem_zipIdx_iff_getElem?.mp listed
    · intro found
      exact ⟨(some value, key), List.mem_zipIdx_iff_getElem?.mpr found, rfl⟩
  rw [slot, get?]
  cases map.slots[key]? <;> simp

/-- Entries are listed by increasing key. -/
theorem pairwise_entries : map.entries.Pairwise fun first second => first.1 < second.1 := by
  unfold entries
  refine List.Pairwise.filterMap _ (R := fun first second => first.2 < second.2) ?_ ?_
  · rintro ⟨slot, key⟩ ⟨other, later⟩ less entry made next following
    obtain ⟨_, _, rfl⟩ := Option.map_eq_some_iff.mp made
    obtain ⟨_, _, rfl⟩ := Option.map_eq_some_iff.mp following
    exact less
  · have keys := List.pairwise_lt_range' (s := 0) (n := map.slots.toList.length)
    rw [← List.zipIdx_map_snd] at keys
    exact List.pairwise_map.mp keys

end IdMap

/-- The events of one unit: its members, each at its place, and its matches by increasing position,
between the beginning and the end of the unit. -/
def CompilationUnit.Emits (unit : CompilationUnit) (events : List EmitEvent) : Prop :=
  ∃ (members : List EmitEvent) (matches_ : List (Nat × LoweredMatch)),
    events = .beginUnit unit.name :: members ++
      matches_.map (fun entry => .lowered entry.1 entry.2) ++ [.endUnit unit.name] ∧
    members.length = unit.members.size ∧
    (∀ (id : Nat) (member : Member), unit.members.members[id]? = some member →
      members[id]? = some (.member id member)) ∧
    (matches_.Pairwise fun first second => first.1 < second.1) ∧
    ∀ expr lowered, (expr, lowered) ∈ matches_ ↔ unit.lowered.get? expr = some lowered

theorem Session.unitEvents_emits (unit : CompilationUnit) : unit.Emits (unitEvents unit) := by
  refine ⟨unit.members.toList.zipIdx.map fun entry => .member entry.2 entry.1,
    unit.lowered.entries, by simp [unitEvents], by simp [MemberArena.toList, MemberArena.size],
    fun id member found => ?_, unit.lowered.pairwise_entries, fun _ _ => unit.lowered.mem_entries⟩
  simp [MemberArena.toList, List.getElem?_zipIdx, found]

/-- The unit keeps an error. -/
def CompilationUnit.Faulty (unit : CompilationUnit) : Prop :=
  ∃ diagnostic ∈ unit.diagnostics.diagnostics, diagnostic.severity = .error

theorem DiagnosticBuffer.Faithful.errorCount_pos_iff {buffer : DiagnosticBuffer}
    (faithful : buffer.Faithful) : 0 < buffer.errorCount ↔
      ∃ diagnostic ∈ buffer.diagnostics, diagnostic.severity = .error := by
  rw [faithful.counted, ClassLang.errorCount, List.countP_pos_iff]
  simp [Diagnostic.isError]

namespace Session

variable {config : SessionConfig} {sources : List SourceUnit} {done : Session}

theorem errorCount_pos_iff (faithful : ∀ unit ∈ done.units, unit.diagnostics.Faithful) :
    0 < done.errorCount ↔ ∃ unit ∈ done.units, unit.Faulty := by
  have counted : 0 < done.errorCount ↔ ∃ unit ∈ done.units, 0 < unit.diagnostics.errorCount := by
    unfold errorCount
    simp [List.sum_pos_iff_exists_pos_nat]
  rw [counted]
  exact exists_congr fun unit => and_congr_right fun member =>
    (faithful unit member).errorCount_pos_iff

/-- Without errors the units are emitted one after the other. -/
theorem emit_eq_ok (compiled : done.compiled = true) (clean : done.errorCount = 0)
    (finished : ∀ unit ∈ done.units, unit.allMembersAt .constantsFolded = true) :
    done.emit = .ok (.ok (done.units.map unitEvents).flatten) := by
  have each : ∀ units : List CompilationUnit, (∀ unit ∈ units, unit ∈ done.units) →
      (units.mapM fun unit => if unit.allMembersAt .constantsFolded then pure (unitEvents unit)
        else throw (.unfinishedUnit unit.name unit.progress) : Except Abort _) =
        .ok (units.map unitEvents) := by
    intro units inside
    induction units with
    | nil => rfl
    | cons unit rest ih =>
      rw [List.mapM_cons, if_pos (finished unit (inside unit List.mem_cons_self)),
        ih fun other member => inside other (List.mem_cons_of_mem _ member)]
      rfl
  unfold emit
  rw [clean]
  simp only [compiled, ErrorGuaranteed.ofCount?, Nat.lt_irrefl, dite_false]
  change (done.units.mapM _ >>= _) = _
  rw [each done.units fun _ member => member]
  rfl

theorem emit_eq_error (compiled : done.compiled = true) (faulty : 0 < done.errorCount) :
    done.emit = .ok (.error ⟨done.errorCount, faulty⟩) := by
  unfold emit
  simp only [compiled, ErrorGuaranteed.ofCount?, faulty, dite_true]
  rfl

/-- The emission gate. Errors are counted, modulo the range of the counter; emission is refused
exactly if a unit keeps an error; and otherwise all members are folded and all units are emitted. -/
theorem emit_exact (config : SessionConfig) (sources : List SourceUnit) (done : Session)
    (ran : compile { config, sources } = .ok (.ok done)) :
    done.budget.spent = done.errorCount % counterRange ∧
    ((∃ guarantee, done.emit = .ok (.error guarantee)) ↔ ∃ unit ∈ done.units, unit.Faulty) ∧
    (config.diagnostics.warningsAsErrors = true → ∀ unit ∈ done.units,
      ∀ diagnostic ∈ unit.diagnostics.diagnostics, diagnostic.severity ≠ .warning) ∧
    ((¬ ∃ unit ∈ done.units, unit.Faulty) →
      (∀ unit ∈ done.units, ∀ member ∈ unit.members.toList, member.progress = .constantsFolded) ∧
      ∃ parts, List.Forall₂ CompilationUnit.Emits done.units parts ∧
        done.emit = .ok (.ok parts.flatten)) := by
  have finished : run { config, sources } = .ok done := Except.ok.inj ran
  obtain ⟨compiled, rank, started, _, holds, _⟩ :=
    (@run_holds False sources config nofun).ensures done finished
  have stands := fun unit (member : unit ∈ done.units) => holds.units.exists_source member
  have counted : 0 < done.errorCount ↔ ∃ unit ∈ done.units, unit.Faulty :=
    errorCount_pos_iff fun unit member => by
      obtain ⟨_, _, stood, _⟩ := stands unit member
      exact stood.faithful
  have folded : done.errorCount = 0 →
      ∀ unit ∈ done.units, ∀ member ∈ unit.members.toList, member.progress = .constantsFolded := by
    intro clean unit listed member present
    obtain ⟨_, _, last⟩ := schedule_of_clean ran clean
    obtain ⟨_, _, stood, reached⟩ := last.units.exists_source listed
    rw [stood.member_progress member present, reached]
  have emitted : done.errorCount = 0 →
      done.emit = .ok (.ok (done.units.map unitEvents).flatten) := by
    intro clean
    refine emit_eq_ok compiled clean fun unit member => List.all_eq_true.mpr fun entry present => ?_
    simp [folded clean unit member entry present]
  refine ⟨holds.spent, ⟨?_, fun faulty => ?_⟩, fun strict unit member => ?_, fun clean => ?_⟩
  · rintro ⟨guarantee, refused⟩
    refine counted.mp (Nat.pos_of_ne_zero fun clean => ?_)
    rw [emitted clean] at refused
    cases refused
  · exact ⟨_, emit_eq_error compiled (counted.mpr faulty)⟩
  · obtain ⟨_, _, stood, _⟩ := stands unit member
    exact stood.faithful.promoted (stood.config ▸ strict)
  · have none : done.errorCount = 0 := Nat.eq_zero_of_not_pos fun positive =>
      clean (counted.mp positive)
    refine ⟨folded none, done.units.map unitEvents, ?_, emitted none⟩
    rw [List.forall₂_map_right_iff]
    exact List.forall₂_same.mpr fun unit _ => unitEvents_emits unit

/-- A unit with errors is refused; one without is emitted, its match behind its members. -/
theorem emit_exact_stray_pick :
    (∃ done, compile { sources := [strayUnit] } = .ok (.ok done) ∧
      done.budget.spent = done.errorCount % counterRange ∧ 0 < done.budget.spent ∧
      (∃ unit ∈ done.units, unit.Faulty) ∧ ∃ guarantee, done.emit = .ok (.error guarantee)) ∧
    ∃ done, compile { sources := [pickUnit] } = .ok (.ok done) ∧ done.budget.spent = 0 ∧
      (∀ unit ∈ done.units, ∀ member ∈ unit.members.toList, member.progress = .constantsFolded) ∧
      ∃ parts, List.Forall₂ CompilationUnit.Emits done.units parts ∧
        done.emit = .ok (.ok parts.flatten) ∧ parts.flatten.filterMap EmitEvent.line? =
          ["unit pick", "member 0 Pick", "member 1 value", "match 4 BranchChain"] := by
  constructor
  · obtain ⟨done, ran, finished, charged⟩ := exists_run { sources := [strayUnit] }
      (fun done => done.compiled = true ∧ 0 < done.budget.spent) (by decide +kernel)
    have compiled : compile { sources := [strayUnit] } = .ok (.ok done) := congrArg Except.ok ran
    obtain ⟨spent, gate, _⟩ := emit_exact {} [strayUnit] done compiled
    have counted : 0 < done.errorCount :=
      Nat.lt_of_lt_of_le (spent ▸ charged) (Nat.mod_le _ _)
    have refused : ∃ guarantee, done.emit = .ok (.error guarantee) :=
      ⟨_, emit_eq_error finished counted⟩
    exact ⟨done, compiled, spent, charged, gate.mp refused, refused⟩
  · obtain ⟨done, ran, unspent, logged⟩ := exists_run { sources := [pickUnit] }
      (fun done => done.budget.spent = 0 ∧
        (done.emit.map (·.map (·.filterMap EmitEvent.line?))).toOption.bind (·.toOption) =
          some ["unit pick", "member 0 Pick", "member 1 value", "match 4 BranchChain"])
      (by decide +kernel)
    have compiled : compile { sources := [pickUnit] } = .ok (.ok done) := congrArg Except.ok ran
    obtain ⟨-, gate, -, emits⟩ := emit_exact {} [pickUnit] done compiled
    have clean : ¬ ∃ unit ∈ done.units, unit.Faulty := by
      intro faulty
      obtain ⟨guarantee, refused⟩ := gate.mpr faulty
      rw [refused] at logged
      cases logged
    obtain ⟨folded, parts, each, emitted⟩ := emits clean
    rw [emitted] at logged
    exact ⟨done, compiled, unspent, folded, parts, each, emitted, Option.some.inj logged⟩

end Session
end ClassLang
