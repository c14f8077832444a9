import ClassLang.Pattern.Group
import ClassLang.Proofs.Pattern.Emission
import Mathlib.Data.List.Forall2

/-! The dispatch code of a whole match as a function of the trees of its arms, and which arm a
value is sent to. -/

namespace ClassLang

namespace PatternTree

/-- The one test that decides a switchable pattern. -/
def rootTest (slot : Slot) : PatternTree → List Instruction
  | wildcard | binding _ => []
  | constant value => [.compare slot value]
  | named _ inner => inner.rootTest slot
  | deconstruct name _ _ => [.instanceOf slot name]

end PatternTree

namespace MatchGroup

/-- Dispatch code for arms with their positions, and the instructions on entry to an arm. Labels
and slots are numbered from `label` and `slot` on. -/
def dispatchCode (strategy : Strategy) (exhaustive : Bool) (subject : Slot) :
    List (Nat × PatternTree) → Nat → Nat → List Instruction × List (Nat × List Instruction)
  | [], _, _ => ([.matchError], [])
  | (index, tree) :: rest, label, slot =>
    let bindings := tree.code none subject slot
    if tree.isIrrefutable || (rest.isEmpty && exhaustive) then
      match strategy with
      | .branchChain => ([.jump (armLabel index)], [(index, bindings.1)])
      | .ifChain => (bindings.1 ++ [.jump (armLabel index)], [])
    else
      match strategy with
      | .branchChain =>
        let later := dispatchCode strategy exhaustive subject rest label bindings.2
        (tree.rootTest subject ++ .jumpIfMatch (armLabel index) :: later.1,
          (index, bindings.1) :: later.2)
      | .ifChain =>
        let tests := tree.code (some ⟨label⟩) subject slot
        let later := dispatchCode strategy exhaustive subject rest (label + 1) tests.2
        (tests.1 ++ .jump (armLabel index) :: .mark ⟨label⟩ :: later.1, later.2)

end MatchGroup

namespace CompileM
open PatternStore

variable {state : CompileState}

theorem emitAll (code : List Instruction) {last : Nat} :
    ∀ {state : CompileState}, state.buffer.nextSlot = last →
      Emission (code.forM CompileM.emit) state code last := by
  induction code with
  | nil => intro state same; exact Emission.nothing same
  | cons instruction code ih =>
    intro state same
    exact Emission.seq (Emission.emit instruction same) fun _ emitted => ih emitted.slot

theorem freshLabel_completes :
    Completes freshLabel state fun label after =>
      label = ⟨state.buffer.nextLabel⟩ ∧ after.store = state.store ∧
        after.buffer = { state.buffer with nextLabel := state.buffer.nextLabel + 1 } :=
  Completes.modifyGet ⟨rfl, rfl, rfl⟩

theorem freshSlot_completes :
    Completes freshSlot state fun slot after =>
      slot = ⟨state.buffer.nextSlot⟩ ∧ after.store = state.store ∧
        after.buffer = { state.buffer with nextSlot := state.buffer.nextSlot + 1 } :=
  Completes.modifyGet ⟨rfl, rfl, rfl⟩

/-- What is emitted aside is returned, and only the numbering goes on. -/
theorem aside_completes {action : CompileM PUnit} {code : List Instruction} {last : Nat}
    (done : ∀ state', state'.store = state.store →
      state'.buffer.nextSlot = state.buffer.nextSlot → Emission action state' code last) :
    Completes (aside action) state fun emitted after =>
      emitted = code ∧ state.Emits after [] last := by
  refine Completes.bind (Completes.get (Completes.bind (Completes.modify (Completes.bind ?_))))
  refine Completes.mono (done _ rfl rfl) fun _ after emitted => ?_
  refine Completes.bind (Completes.get (Completes.bind (Completes.modify (Completes.pure ?_))))
  exact ⟨by simpa using emitted.code, emitted.kept, by simp, emitted.label, emitted.slot⟩

theorem switchTestWithin_emits (slot : Slot) (tree : PatternTree) :
    ∀ (id depth : Nat) (state : CompileState), state.store.Represents tree id → id < depth →
      Emission (switchTestWithin depth id slot) state (tree.rootTest slot)
        state.buffer.nextSlot := by
  induction tree with
  | wildcard | binding =>
    rintro id (_ | depth) state holds deep
    · exact absurd deep (Nat.not_lt_zero id)
    refine Completes.bind (inspect_completes (PatternStore.HoldsTyped.kind_eq holds) ?_)
    exact Emission.nothing rfl
  | constant value =>
    rintro id (_ | depth) state holds deep
    · exact absurd deep (Nat.not_lt_zero id)
    refine Completes.bind (inspect_completes (PatternStore.HoldsTyped.kind_eq holds) ?_)
    exact Emission.emit _ rfl
  | named name inner ih =>
    rintro id (_ | depth) state holds deep
    · exact absurd deep (Nat.not_lt_zero id)
    obtain ⟨child, before, held, below⟩ := holds
    refine Completes.bind (inspect_completes held.kind_eq ?_)
    exact ih child depth state below (by omega)
  | deconstruct name own fields ih =>
    rintro id (_ | depth) state holds deep
    · exact absurd deep (Nat.not_lt_zero id)
    obtain ⟨children, subject, held, _, _⟩ := holds
    refine Completes.bind (inspect_completes held.typed.kind_eq ?_)
    exact Emission.emit _ rfl

theorem switchTest_emits (slot : Slot) {tree : PatternTree} {id : Nat}
    (holds : state.store.Represents tree id) :
    Emission (switchTest id slot) state (tree.rootTest slot) state.buffer.nextSlot :=
  Completes.bind (Completes.get
    (switchTestWithin_emits slot tree id _ state holds (Nat.lt_succ_of_lt holds.inside)))

/-- A wildcard without a slot drops the subject. -/
theorem compileWildcard_completes (label : JumpLabel) {id : Nat}
    (holds : state.store.Represents .wildcard id) :
    Emission (compilePattern id none label) state [.discard] state.buffer.nextSlot := by
  obtain ⟨node, found, kind, typed⟩ := PatternStore.HoldsTyped.lookup holds
  refine Completes.bind (Completes.get (Completes.bind (inspect_completes found ?_)))
  simp only [typed, if_false, kind]
  exact Emission.thenMark (Emission.emit .discard rfl) id

end CompileM

namespace MatchGroup
open PatternStore CompileM

/-- The patterns of some arms, by position, are the given trees. -/
def RepresentsArms (store : PatternStore) (arms : List (Nat × PatternTree))
    (live : List (Nat × Nat)) : Prop :=
  List.Forall₂ (fun arm entry => arm.1 = entry.1 ∧ store.Represents arm.2 entry.2) arms live

theorem RepresentsArms.keep {before after : PatternStore} (kept : before.Keeps after)
    {arms : List (Nat × PatternTree)} {live : List (Nat × Nat)}
    (holds : RepresentsArms before arms live) : RepresentsArms after arms live :=
  List.Forall₂.imp (fun _ _ facts => ⟨facts.1, Represents.keep kept _ _ facts.2⟩) holds

/-- The action emits code, and answers with the instructions on entry to the arms. -/
abbrev EmitsDispatch (action : CompileM (List (Nat × List Instruction))) (state : CompileState)
    (code : List Instruction × List (Nat × List Instruction)) : Prop :=
  Completes action state fun entries after => state.store.Marked after.store ∧
    after.buffer.code = state.buffer.code ++ code.1 ∧ entries = code.2

section
variable {state : CompileState} {subject : Slot} {index id : Nat} {tree : PatternTree}
  (first : state.store.Represents tree id)
include first

/-- The names of an arm are bound by code that is set aside. -/
theorem bindings_completes (after : CompileState) (kept : state.store.Marked after.store)
    (equal : after.buffer.nextSlot = state.buffer.nextSlot) :
    Completes (aside (compileBindings id subject)) after fun emitted final =>
      emitted = (tree.code none subject state.buffer.nextSlot).1 ∧
        after.Emits final [] (tree.code none subject state.buffer.nextSlot).2 :=
  aside_completes fun _ same slot =>
    compileBindings_emits subject (same ▸ Represents.keep kept.keeps tree id first) _
      (slot.trans equal)

/-- An arm that ends the chain is entered without a test. -/
theorem lastArm_completes (strategy : Strategy) :
    EmitsDispatch (do
      let bindings ← aside (compileBindings id subject)
      match strategy with
      | .branchChain =>
        emit (.jump (armLabel index))
        return [(index, bindings)]
      | .ifChain =>
        bindings.forM emit
        emit (.jump (armLabel index))
        return []) state
      (match strategy with
      | .branchChain =>
        ([.jump (armLabel index)], [(index, (tree.code none subject state.buffer.nextSlot).1)])
      | .ifChain =>
        ((tree.code none subject state.buffer.nextSlot).1 ++ [.jump (armLabel index)], [])) := by
  refine Completes.bind (Completes.mono (bindings_completes first state (.refl _) rfl) ?_)
  rintro _ after ⟨rfl, aside⟩
  cases strategy with
  | branchChain =>
    refine Completes.bind (Completes.mono (Emission.emit _ rfl) fun _ final emitted => ?_)
    refine Completes.pure ⟨aside.kept.trans emitted.kept, ?_, rfl⟩
    simp [emitted.code, aside.code]
  | ifChain =>
    refine Completes.bind (Completes.mono (emitAll _ rfl) fun _ middle bound => ?_)
    refine Completes.bind (Completes.mono (Emission.emit _ rfl) fun _ final emitted => ?_)
    refine Completes.pure ⟨(aside.kept.trans bound.kept).trans emitted.kept, ?_, rfl⟩
    simp [emitted.code, bound.code, aside.code]

variable {next : CompileM (List (Nat × List Instruction))}
    {later : List Instruction × List (Nat × List Instruction)}

/-- A chain of branches tests one arm, and goes on with the others. -/
theorem branchChain_completes
    (others : ∀ after : CompileState, state.store.Marked after.store →
      after.buffer.nextLabel = state.buffer.nextLabel →
      after.buffer.nextSlot = (tree.code none subject state.buffer.nextSlot).2 →
      EmitsDispatch next after later) :
    EmitsDispatch (do
      switchTest id subject
      emit (.jumpIfMatch (armLabel index))
      let bindings ← aside (compileBindings id subject)
      return (index, bindings) :: (← next)) state
      (tree.rootTest subject ++ .jumpIfMatch (armLabel index) :: later.1,
        (index, (tree.code none subject state.buffer.nextSlot).1) :: later.2) := by
  refine Completes.bind (Completes.mono (switchTest_emits subject first) fun _ tested test => ?_)
  refine Completes.bind (Completes.mono (Emission.emit _ test.slot) fun _ middle jump => ?_)
  refine Completes.bind
    (Completes.mono (bindings_completes first middle (test.kept.trans jump.kept) jump.slot) ?_)
  rintro _ after ⟨rfl, aside⟩
  have kept := (test.kept.trans jump.kept).trans aside.kept
  refine Completes.bind (Completes.mono
    (others after kept ((aside.label.trans jump.label).trans test.label) aside.slot) ?_)
  rintro _ final ⟨keptAfter, code, rfl⟩
  refine Completes.pure ⟨kept.trans keptAfter, ?_, rfl⟩
  simp [code, aside.code, jump.code, test.code]

/-- All tests of an arm are made in turn, with a mark behind them where the others go on. -/
theorem ifChain_completes
    (others : ∀ after : CompileState, state.store.Marked after.store →
      after.buffer.nextLabel = state.buffer.nextLabel + 1 →
      after.buffer.nextSlot =
        (tree.code (some ⟨state.buffer.nextLabel⟩) subject state.buffer.nextSlot).2 →
        EmitsDispatch next after later) :
    EmitsDispatch (do
      let fresh ← freshLabel
      compilePattern id (some subject) fresh
      emit (.jump (armLabel index))
      emit (.mark fresh)
      next) state
      ((tree.code (some ⟨state.buffer.nextLabel⟩) subject state.buffer.nextSlot).1 ++ .jump
        (armLabel index) :: .mark ⟨state.buffer.nextLabel⟩ :: later.1, later.2) := by
  refine Completes.bind (Completes.mono freshLabel_completes ?_)
  rintro _ fresh ⟨rfl, store, buffer⟩
  rw [← store] at first others ⊢
  refine Completes.bind (Completes.mono (compilePattern_emits _ subject first
    state.buffer.nextSlot (by rw [buffer])) fun _ tested test => ?_)
  refine Completes.bind (Completes.mono (Emission.emit _ test.slot) fun _ middle jump => ?_)
  refine Completes.bind (Completes.mono (Emission.emit _ jump.slot) fun _ after mark => ?_)
  have kept := (test.kept.trans jump.kept).trans mark.kept
  have labels : after.buffer.nextLabel = state.buffer.nextLabel + 1 := by
    rw [mark.label, jump.label, test.label, buffer]
  refine Completes.mono (others after kept labels mark.slot) ?_
  rintro _ final ⟨keptAfter, code, rfl⟩
  refine ⟨kept.trans keptAfter, ?_, rfl⟩
  simp [code, mark.code, jump.code, test.code, buffer]

end

/-- Dispatching stored patterns emits the dispatch code of their trees. -/
theorem dispatch_completes (strategy : Strategy) (exhaustive : Bool) (subject : Slot) :
    ∀ (live : List (Nat × Nat)) (arms : List (Nat × PatternTree)) (state : CompileState)
      (label slot : Nat), RepresentsArms state.store arms live →
      state.buffer.nextLabel = label → state.buffer.nextSlot = slot →
      EmitsDispatch (dispatch strategy exhaustive subject live) state
        (dispatchCode strategy exhaustive subject arms label slot)
  | [], _, state, label, slot, .nil, _, _ =>
    Completes.bind (Completes.mono (Emission.emit .matchError rfl) fun _ _ emitted =>
      Completes.pure ⟨emitted.kept, emitted.code, rfl⟩)
  | (index, id) :: live, (_, tree) :: arms, state, label, slot, .cons ⟨rfl, first⟩ rest, labels,
      slots => by
    subst labels slots
    have sameEnd : live.isEmpty = arms.isEmpty := by
      cases rest <;> rfl
    have others := fun after (kept : state.store.Marked after.store) label slot =>
      dispatch_completes strategy exhaustive subject live arms after label slot
        (RepresentsArms.keep kept.keeps rest)
    refine Completes.bind (inspect_completes first.isIrrefutable_eq ?_)
    rw [sameEnd]
    unfold dispatchCode
    split
    · exact lastArm_completes first strategy
    · cases strategy with
      | branchChain =>
        exact branchChain_completes first fun after kept labels slots =>
          others after kept _ _ labels slots
      | ifChain =>
        exact ifChain_completes first fun after kept labels slots =>
          others after kept _ _ labels slots

/-- One test for each arm when every arm is decided by one. -/
def strategyOf (analysis : GroupAnalysis) : Strategy :=
  if analysis.switchable then .branchChain else .ifChain

/-- The code of a whole match and the instructions on entry to its arms. A leading wildcard takes
the subject from the stack; otherwise the first slot takes it. -/
def loweredCode (analysis : GroupAnalysis) (count : Nat) (arms : List (Nat × PatternTree)) :
    List Instruction × List (Nat × List Instruction) :=
  match arms with
  | (index, .wildcard) :: _ => ([.discard, .jump (armLabel index)], [])
  | arms =>
    let code :=
      dispatchCode (strategyOf analysis) analysis.coverage.isExhaustive ⟨0⟩ arms count 1
    (.store ⟨0⟩ :: code.1, code.2)

/-- Without a leading wildcard the subject is stored and dispatched. -/
theorem stored_completes {group : MatchGroup} (analysis : GroupAnalysis) {store : PatternStore}
    {arms : List (Nat × PatternTree)} (holds : RepresentsArms store arms group.live)
    {code : List Instruction × List (Nat × List Instruction)}
    (same : code = dispatchCode (strategyOf analysis) analysis.coverage.isExhaustive ⟨0⟩ arms
      group.arms.length 1) :
    Completes (do
      let subject ← CompileM.freshSlot
      CompileM.emit (.store subject)
      let entries ← dispatch (strategyOf analysis) analysis.coverage.isExhaustive subject group.live
      return (strategyOf analysis, entries))
      { store, buffer := { nextLabel := group.arms.length } } fun result after =>
        store.Marked after.store ∧ after.buffer.code = .store ⟨0⟩ :: code.1 ∧
          result.2 = code.2 := by
  refine Completes.bind (Completes.mono freshSlot_completes ?_)
  rintro _ fresh ⟨rfl, rfl, buffer⟩
  refine Completes.bind (Completes.mono (Emission.emit _ rfl) fun _ stored emitted => ?_)
  have label : stored.buffer.nextLabel = group.arms.length := by rw [emitted.label, buffer]
  have slot : stored.buffer.nextSlot = 1 := by rw [emitted.slot, buffer]
  refine Completes.bind (Completes.mono (dispatch_completes _ _ _ _ arms stored _ _
    (holds.keep emitted.kept.keeps) label slot) ?_)
  rintro entries final ⟨kept, emittedAfter, rfl⟩
  refine Completes.pure ⟨emitted.kept.trans kept, ?_, by rw [same]⟩
  simp [emittedAfter, emitted.code, buffer, same]

theorem lowerArms_completes {group : MatchGroup} (analysis : GroupAnalysis) {store : PatternStore}
    {arms : List (Nat × PatternTree)} (holds : RepresentsArms store arms group.live) :
    Completes (group.lowerArms analysis) { store, buffer := { nextLabel := group.arms.length } }
      fun result after => store.Marked after.store ∧
        after.buffer.code = (loweredCode analysis group.arms.length arms).1 ∧
        result.2 = (loweredCode analysis group.arms.length arms).2 := by
  have stored := stored_completes analysis holds rfl
  unfold lowerArms
  generalize group.live = live at holds stored
  cases holds with
  | nil => exact stored
  | @cons arm entry arms live first rest =>
    obtain ⟨index, tree⟩ := arm
    obtain ⟨_, id⟩ := entry
    obtain ⟨rfl, root⟩ := first
    refine Completes.bind (inspect_completes root.isWildcard_eq ?_)
    cases tree with
    | wildcard =>
      refine Completes.bind (Completes.mono (compileWildcard_completes _ root) ?_)
      intro _ after emitted
      refine Completes.bind (Completes.mono (Emission.emit _ emitted.slot) fun _ final jump => ?_)
      refine Completes.pure ⟨emitted.kept.trans jump.kept, ?_, rfl⟩
      simp [jump.code, emitted.code, loweredCode]
    | constant | binding | named | deconstruct => exact stored

/-- Lowering stored patterns gives the code of their trees. -/
theorem lower_completes {group : MatchGroup} (analysis : GroupAnalysis) {store : PatternStore}
    {arms : List (Nat × PatternTree)} (holds : RepresentsArms store arms group.live) :
    ∃ lowered after, group.lower analysis store = .ok (lowered, after) ∧ store.Marked after ∧
      lowered.code = (loweredCode analysis group.arms.length arms).1 ∧
      ∀ index < group.arms.length, lowered.arms[index]? = some ⟨armLabel index,
        ((loweredCode analysis group.arms.length arms).2.lookup index).getD []⟩ := by
  obtain ⟨⟨strategy, entries⟩, final, ran, kept, code, rfl⟩ :=
    lowerArms_completes analysis holds
  refine ⟨_, _, by simp only [lower, ran, ok_bind, pure_eq_ok]; rfl, kept, code, ?_⟩
  intro index inside
  simp [inside]

/-- The code has a target for each arm, in the order of the arms. -/
def Labels (group : MatchGroup) (code : LoweredMatch) : Prop :=
  code.arms.map (·.label) = (List.range group.arms.length).map armLabel

theorem lower_labels {group : MatchGroup} {code : LoweredMatch} {analysis : GroupAnalysis}
    {store after : PatternStore} (ran : group.lower analysis store = .ok (code, after)) :
    group.Labels code := by
  obtain ⟨⟨⟨strategy, entries⟩, final⟩, -, rest⟩ := Except.bind_eq_ok ran
  cases rest
  simp [Labels, Function.comp_def]

end MatchGroup
end ClassLang
