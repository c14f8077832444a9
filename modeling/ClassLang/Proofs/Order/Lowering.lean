import ClassLang.Proofs.Order.Patterns

/-! Lowering in two runs: code is made from the kinds of patterns, which no renaming changes. -/

namespace ClassLang

namespace CompileM

variable {rename : Renaming}

/-- Renamed patterns give the same code. -/
abbrev Agrees {α : Type} [Renamable α] (rename : Renaming) (first second : CompileM α) : Prop :=
  (rename.states CompileState).Agree rename.on first second

theorem inspect_agrees {α : Type} [Renamable α] {query : PatternStore → Except Abort α}
    (each : ∀ store, Corresponds rename.on (query store) (query (rename.on store))) :
    Agrees rename (inspect query) (inspect query) :=
  Renaming.states.ask fun state => each state.store

theorem emit_agrees (instruction : Instruction) : Agrees rename (emit instruction)
    (emit instruction) :=
  Renaming.states.modify fun _ => rfl

theorem freshLabel_agrees : Agrees rename freshLabel freshLabel :=
  Renaming.states.modifyGet fun _ => rfl

theorem freshSlot_agrees : Agrees rename freshSlot freshSlot :=
  Renaming.states.modifyGet fun _ => rfl

theorem markCompiled_agrees (id : Nat) : Agrees rename (markCompiled id) (markCompiled id) :=
  Renaming.states.modify fun state => congrArg (fun store => { state with store })
    (PatternStore.markCompiled_on rename state.store id)

theorem ensureSlot_agrees (slot : Option Slot) : Agrees rename (ensureSlot slot)
    (ensureSlot slot) := by
  cases slot with
  | some slot => exact .pure rfl
  | none => exact freshSlot_agrees.bind fun slot => (emit_agrees _).bind fun _ => .pure rfl

theorem aside_agrees {action : CompileM PUnit} (same : Agrees rename action action) :
    Agrees rename (aside action) (aside action) := by
  refine .get fun state state' _ _ alike => ?_
  subst alike
  refine Setting.Agree.bind (Renaming.states.modify fun _ => rfl) fun _ => ?_
  refine same.bind fun _ => ?_
  refine .get fun after after' _ _ alike => ?_
  subst alike
  exact Setting.Agree.bind (Renaming.states.modify fun _ => rfl) fun _ =>
    .pure (rename.on_plain _).symm

theorem isWildcard_agrees (id : Nat) :
    Agrees rename (inspect (·.isWildcard id)) (inspect (·.isWildcard id)) :=
  inspect_agrees fun store => .same (PatternStore.isWildcard_on rename store id)

theorem kind_agrees (id : Nat) : Agrees rename (inspect (·.kind id)) (inspect (·.kind id)) :=
  inspect_agrees fun store => .same (PatternStore.kind_on rename store id)

theorem projectFields_agrees {onField : Nat → Slot → CompileM PUnit}
    (each : ∀ field slot, Agrees rename (onField field slot) (onField field slot)) (slot : Slot) :
    ∀ (index : Nat) (fields : List Nat),
      Agrees rename (projectFields onField slot index fields)
        (projectFields onField slot index fields)
  | _, [] => .pure rfl
  | index, field :: fields => by
    have later := projectFields_agrees each slot (index + 1) fields
    refine (isWildcard_agrees field).bind fun wild => ?_
    cases wild with
    | true => exact later
    | false =>
      exact freshSlot_agrees.bind fun target => (emit_agrees _).bind fun _ =>
        (each field target).bind fun _ => later

theorem node_agrees (id : Nat) : Agrees rename (inspect (·.node id)) (inspect (·.node id)) := by
  apply inspect_agrees
  intro store
  rw [PatternStore.node_on]
  cases store.node id with
  | error fault => exact .failLeft fault
  | ok node => exact .ok rfl

theorem compileWithin_agrees : ∀ (depth id : Nat) (slot : Option Slot) (onMismatch : JumpLabel),
    Agrees rename (compileWithin depth id slot onMismatch) (compileWithin depth id slot onMismatch)
  | 0, _, _, _ => .throw _ _
  | depth + 1, id, slot, onMismatch => by
    have done : Agrees rename (markCompiled id) (markCompiled id) := markCompiled_agrees id
    rw [compileWithin]
    apply (node_agrees id).bind
    intro node
    dsimp only
    apply Setting.Agree.ite Iff.rfl
    · exact fun _ => .throwThen _ _
    intro _
    obtain ⟨kind, span, type, subject, ownClass, state⟩ := node
    cases kind with
    | wildcard =>
      exact .ite Iff.rfl (fun _ => (emit_agrees .discard).bind fun _ => done) fun _ => done
    | constant value =>
      exact (ensureSlot_agrees slot).bind fun slot => (emit_agrees _).bind fun _ =>
        (emit_agrees _).bind fun _ => done
    | binding name inner =>
      apply (ensureSlot_agrees slot).bind
      intro slot
      apply (emit_agrees _).bind
      intro _
      cases inner with
      | none => exact done
      | some inner =>
        exact (compileWithin_agrees depth inner (some slot) onMismatch).bind fun _ => done
    | deconstruct name fields =>
      apply (ensureSlot_agrees slot).bind
      intro slot
      have project := @projectFields_agrees rename _ (fun field target =>
        compileWithin_agrees depth field (some target) onMismatch) slot 0 fields
      apply Setting.Agree.ite Iff.rfl
      · exact fun _ => project.bind fun _ => done
      · exact fun _ => (emit_agrees _).bind fun _ => (emit_agrees _).bind fun _ =>
          project.bind fun _ => done

/-- What is done to a pattern starts from the number of all patterns. -/
theorem atSize_agrees {action : Nat → CompileM PUnit}
    (each : ∀ depth, Agrees rename (action depth) (action depth)) :
    Agrees rename (do action ((← get).store.size + 1)) (do action ((← get).store.size + 1)) := by
  apply Setting.Agree.get
  intro state state' _ _ same
  have size : state'.store.size = state.store.size := by
    rw [show state' = rename.on state from same]
    exact PatternStore.size_on rename state.store
  rw [size]
  exact each _

theorem compilePattern_agrees (id : Nat) (slot : Option Slot) (onMismatch : JumpLabel) :
    Agrees rename (compilePattern id slot onMismatch) (compilePattern id slot onMismatch) :=
  atSize_agrees fun depth => compileWithin_agrees depth id slot onMismatch

theorem compileBindingsWithin_agrees : ∀ (depth id : Nat) (slot : Slot),
    Agrees rename (compileBindingsWithin depth id slot) (compileBindingsWithin depth id slot)
  | 0, _, _ => .throw _ _
  | depth + 1, id, slot => by
    have done : Agrees rename (markCompiled id) (markCompiled id) := markCompiled_agrees id
    apply (kind_agrees id).bindPlain
    intro kind
    cases kind with
    | wildcard => exact done
    | constant value => exact done
    | binding name inner =>
      apply (emit_agrees _).bind
      intro _
      cases inner with
      | none => exact done
      | some inner => exact (compileBindingsWithin_agrees depth inner slot).bind fun _ => done
    | deconstruct name fields =>
      exact (projectFields_agrees (compileBindingsWithin_agrees depth) slot 0 fields).bind
        fun _ => done

theorem compileBindings_agrees (id : Nat) (slot : Slot) :
    Agrees rename (compileBindings id slot) (compileBindings id slot) :=
  atSize_agrees fun depth => compileBindingsWithin_agrees depth id slot

theorem switchTestWithin_agrees : ∀ (depth id : Nat) (slot : Slot),
    Agrees rename (switchTestWithin depth id slot) (switchTestWithin depth id slot)
  | 0, _, _ => .throw _ _
  | depth + 1, id, slot => by
    apply (kind_agrees id).bindPlain
    intro kind
    cases kind with
    | wildcard => exact .pure rfl
    | constant value => exact emit_agrees _
    | deconstruct name fields => exact emit_agrees _
    | binding name inner =>
      cases inner with
      | none => exact .pure rfl
      | some inner => exact switchTestWithin_agrees depth inner slot

theorem switchTest_agrees (id : Nat) (slot : Slot) :
    Agrees rename (switchTest id slot) (switchTest id slot) :=
  atSize_agrees fun depth => switchTestWithin_agrees depth id slot

theorem isIrrefutable_agrees (id : Nat) :
    Agrees rename (inspect (·.isIrrefutable id)) (inspect (·.isIrrefutable id)) :=
  inspect_agrees fun store => .same (congrFun (PatternStore.isIrrefutable_on rename store) id)
end CompileM

namespace MatchGroup

open CompileM

variable {rename : Renaming}

theorem dispatch_agrees (strategy : Strategy) (exhaustive : Bool) (subject : Slot) :
    ∀ arms : List (Nat × Nat), Agrees rename (dispatch strategy exhaustive subject arms)
      (dispatch strategy exhaustive subject arms)
  | [] => (emit_agrees _).bind fun _ => .pure rfl
  | (index, pattern) :: rest => by
    have later := dispatch_agrees strategy exhaustive subject rest
    have bindings := aside_agrees (@compileBindings_agrees rename pattern subject)
    apply (isIrrefutable_agrees pattern).bindPlain
    intro irrefutable
    apply Setting.Agree.ite Iff.rfl
    · intro _
      apply bindings.bindPlain
      intro bindings
      cases strategy with
      | branchChain => exact (emit_agrees _).bind fun _ => .pure (rename.on_plain _).symm
      | ifChain =>
        exact (Setting.Agree.forM_plain fun instruction _ => emit_agrees instruction).bind fun _ =>
          (emit_agrees _).bind fun _ => .pure rfl
    · intro _
      cases strategy with
      | branchChain =>
        apply (switchTest_agrees pattern subject).bind
        intro _
        apply (emit_agrees _).bind
        intro _
        apply bindings.bindPlain
        intro bindings
        exact later.bindPlain fun entries => .pure (rename.on_plain _).symm
      | ifChain =>
        apply freshLabel_agrees.bindPlain
        intro next
        exact (compilePattern_agrees pattern (some subject) next).bind fun _ =>
          (emit_agrees _).bind fun _ => (emit_agrees _).bind fun _ => later

theorem lowerArms_agrees (group : MatchGroup) (analysis : GroupAnalysis) :
    Agrees rename (group.lowerArms analysis) (group.lowerArms analysis) := by
  have chain : ∀ (strategy : Strategy) (arms : List (Nat × Nat)),
      Agrees rename (do
        let subject ← freshSlot
        emit (.store subject)
        let entries ← dispatch strategy analysis.coverage.isExhaustive subject arms
        return (strategy, entries))
      (do
        let subject ← freshSlot
        emit (.store subject)
        let entries ← dispatch strategy analysis.coverage.isExhaustive subject arms
        return (strategy, entries)) := by
    intro strategy arms
    apply freshSlot_agrees.bindPlain
    intro subject
    apply (emit_agrees _).bind
    intro _
    exact (dispatch_agrees strategy _ subject arms).bindPlain fun entries =>
      .pure (rename.on_plain _).symm
  unfold lowerArms
  cases group.live with
  | nil => exact chain _ []
  | cons first rest =>
    obtain ⟨index, pattern⟩ := first
    apply (isWildcard_agrees pattern).bindPlain
    intro wild
    apply Setting.Agree.ite Iff.rfl
    · exact fun _ => (compilePattern_agrees pattern none _).bind fun _ =>
        (emit_agrees _).bind fun _ => .pure (rename.on_plain _).symm
    · exact fun _ => chain _ ((index, pattern) :: rest)

theorem lower_agrees (group : MatchGroup) (analysis : GroupAnalysis) (store : PatternStore) :
    Corresponds rename.on (group.lower analysis store)
      ((rename.on group).lower analysis (rename.on store)) := by
  let start : CompileState := { store, buffer := { nextLabel := group.arms.length } }
  apply (Renaming.states.run (lowerArms_agrees group analysis) start).bind
  rintro ⟨⟨strategy, entries⟩, final⟩
  have same : rename.on (strategy, entries) = (strategy, entries) := rename.on_plain _
  rw [show rename.on ((strategy, entries), final) = ((strategy, entries), rename.on final) from
    Prod.ext same rfl]
  exact .ok rfl

end MatchGroup

theorem Comparison.compile_agrees {compare : Comparison} {hierarchy hierarchy' : ClassHierarchy}
    (bounded : compare.rename.Bounds compare.params compare.params')
    (classes : compare.rename.Classes hierarchy hierarchy') (group : MatchGroup)
    (store : PatternStore) : compare.Agrees (group.compile hierarchy store)
      ((compare.rename.on group).compile hierarchy' (compare.rename.on store)) := by
  apply (check_agrees bounded classes group store).bindPlain
  rintro ⟨analysis, reports⟩
  apply (Setting.Agree.lift (MatchGroup.lower_agrees group analysis store)).bind
  intro lowered
  exact .pure (Prod.ext (compare.rename.on_plain _).symm rfl)

end ClassLang
