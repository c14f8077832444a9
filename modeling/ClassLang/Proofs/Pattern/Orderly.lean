import ClassLang.Pattern.Group
import ClassLang.Proofs.Type.Orderly

/-! Reading and compiling patterns keeps the order of stages. -/

namespace ClassLang

theorem Arena.pattern_orderly (arena : Arena) (index : Nat) : Orderly (arena.pattern index) := by
  unfold Arena.pattern
  split
  · exact orderly_ok
  · exact orderly_error rfl

namespace PatternStore
variable {store : PatternStore}

@[simp]
theorem node_orderly (id : Nat) : Orderly (store.node id) := by
  unfold node
  split
  · exact orderly_ok
  · exact orderly_error rfl

@[simp]
theorem kind_orderly (id : Nat) : Orderly (store.kind id) := .map (node_orderly id)

@[simp]
theorem isWildcard_orderly (id : Nat) : Orderly (store.isWildcard id) := .map (kind_orderly id)

theorem isIrrefutableWithin_orderly : ∀ (depth id : Nat),
    Orderly (store.isIrrefutableWithin depth id)
  | 0, _ => orderly_error rfl
  | depth + 1, id => by
    refine .bind (node_orderly id) fun node => ?_
    split
    · exact .pure
    · exact .pure
    · exact .pure
    · exact isIrrefutableWithin_orderly depth _
    · split
      · exact .allM (isIrrefutableWithin_orderly depth)
      · exact .pure

@[simp]
theorem isSwitchable_orderly (id : Nat) : Orderly (store.isSwitchable id) := by
  refine .bind (kind_orderly id) fun kind => ?_
  split
  · exact .pure
  · exact .pure
  · exact .pure
  · refine .bind (kind_orderly _) fun inner => ?_
    split <;> exact .pure
  · exact .allM (isIrrefutableWithin_orderly _)

theorem bindingsWithin_orderly : ∀ (depth id : Nat), Orderly (store.bindingsWithin depth id)
  | 0, _ => orderly_error rfl
  | depth + 1, id => by
    refine .bind (node_orderly id) fun node => ?_
    split
    · exact .pure
    · exact .pure
    · dsimp only
      split
      · exact .pure
      · exact .bind (bindingsWithin_orderly depth _) fun _ => .pure
    · exact .bind (.mapM (bindingsWithin_orderly depth)) fun _ => .pure

theorem deconstructedWithin_orderly : ∀ (depth id : Nat),
    Orderly (store.deconstructedWithin depth id)
  | 0, _ => orderly_error rfl
  | depth + 1, id => by
    refine .bind (node_orderly id) fun node => ?_
    split
    · exact .pure
    · exact .pure
    · exact .pure
    · exact deconstructedWithin_orderly depth _
    · exact .bind (.mapM (deconstructedWithin_orderly depth)) fun _ => .pure

theorem importWithin_orderly (arena : Arena) : ∀ (depth index : Nat),
    Orderly (importWithin arena depth index)
  | 0, _ => .lift (orderly_error rfl)
  | depth + 1, index => by
    refine .bind (.lift (arena.pattern_orderly index)) fun pattern => ?_
    split
    · exact .bind (importWithin_orderly arena depth _) fun _ => .modifyGet
    · exact .bind (.mapM (importWithin_orderly arena depth)) fun _ => .modifyGet
    · exact .modifyGet

end PatternStore

theorem PatternFault.toDiagnostic_orderly (fault : PatternFault) (pool : TypePool) :
    Orderly (fault.toDiagnostic pool) := by
  cases fault with
  | impossible pattern subject span =>
    refine .bind (TypePool.display_orderly pattern) fun _ => ?_
    refine .bind (TypePool.display_orderly subject) fun _ => ?_
    exact .pure
  | arity => exact .pure

theorem Shape.ofStoreWithin_orderly (store : PatternStore) : ∀ (depth id : Nat),
    Orderly (Shape.ofStoreWithin store depth id)
  | 0, _ => orderly_error rfl
  | depth + 1, id => by
    refine .bind (PatternStore.kind_orderly id) fun kind => ?_
    split
    · exact .pure
    · exact .pure
    · exact ofStoreWithin_orderly store depth _
    · exact .pure
    · exact .bind (.mapM (ofStoreWithin_orderly store depth)) fun _ => .pure

@[simp]
theorem Shape.ofStore_orderly (store : PatternStore) (id : Nat) :
    Orderly (Shape.ofStore store id) :=
  ofStoreWithin_orderly store _ id

namespace ClassHierarchy
variable {hierarchy : ClassHierarchy}

theorem domainWithin_orderly (pool : TypePool) : ∀ (depth : Nat) (type : TypeRef),
    Orderly (hierarchy.domainWithin pool depth type)
  | 0, _ => orderly_error rfl
  | depth + 1, type => by
    refine .bind (TypePool.isLenient_orderly type) fun lenient => ?_
    split
    · exact .pure
    refine .bind (TypePool.node_orderly type) fun node => ?_
    split
    · exact .pure
    · split <;> exact .pure
    · split <;> exact .pure
    · exact .bind (TypePool.upperBound_orderly _) fun bound => domainWithin_orderly pool depth bound
    · exact domainWithin_orderly pool depth _
    · exact .pure

@[simp]
theorem domain_orderly (pool : TypePool) (type : TypeRef) : Orderly (hierarchy.domain pool type) :=
  domainWithin_orderly pool _ type

end ClassHierarchy

namespace CompileM

theorem inspect_orderly {α : Type} {query : PatternStore → Except Abort α}
    (asked : ∀ store, Orderly (query store)) : Orderly (inspect query) :=
  .bind .get fun state => .lift (asked state.store)

theorem emit_orderly (instruction : Instruction) : Orderly (emit instruction) := .modify

theorem ensureSlot_orderly (slot : Option Slot) : Orderly (ensureSlot slot) := by
  cases slot with
  | some slot => exact .pure
  | none => exact .bind .modifyGet fun slot => .bind (emit_orderly _) fun _ => .pure

theorem projectFields_orderly {onField : Nat → Slot → CompileM PUnit}
    (orderly : ∀ field slot, Orderly (onField field slot)) (slot : Slot) :
    ∀ (index : Nat) (fields : List Nat), Orderly (projectFields onField slot index fields)
  | _, [] => .pure
  | index, field :: fields => by
    refine .bind (inspect_orderly fun _ => PatternStore.isWildcard_orderly field) fun wild => ?_
    split
    · exact projectFields_orderly orderly slot (index + 1) fields
    · refine .bind .modifyGet fun target => ?_
      refine .bind (emit_orderly _) fun _ => ?_
      refine .bind (orderly field target) fun _ => ?_
      exact projectFields_orderly orderly slot (index + 1) fields

theorem compileWithin_orderly : ∀ (depth id : Nat) (slot : Option Slot) (onMismatch : JumpLabel),
    Orderly (compileWithin depth id slot onMismatch)
  | 0, _, _, _ => .lift (orderly_error rfl)
  | depth + 1, id, slot, onMismatch => by
    refine .bind (inspect_orderly fun _ => PatternStore.node_orderly id) fun node => ?_
    have marked : Orderly (markCompiled id) := .modify
    by_cases unbound : node.state = .unbound
    · rw [if_pos unbound]
      exact throw_bind_orderly rfl _
    rw [if_neg unbound]
    split
    · split
      · exact .bind (emit_orderly _) fun _ => marked
      · exact marked
    · refine .bind (ensureSlot_orderly slot) fun _ => ?_
      refine .bind (emit_orderly _) fun _ => ?_
      refine .bind (emit_orderly _) fun _ => ?_
      exact marked
    · refine .bind (ensureSlot_orderly slot) fun slot => ?_
      refine .bind (emit_orderly _) fun _ => ?_
      split
      · exact marked
      · exact .bind (compileWithin_orderly depth _ _ _) fun _ => marked
    · refine .bind (ensureSlot_orderly slot) fun slot => ?_
      have fields : ∀ fields : List Nat, Orderly (do
          projectFields (fun field target => compileWithin depth field (some target) onMismatch)
            slot 0 fields
          markCompiled id) := fun fields =>
        .bind (projectFields_orderly (fun _ _ => compileWithin_orderly depth _ _ _) slot 0 fields)
          fun _ => marked
      split
      · exact fields _
      · refine .bind (emit_orderly _) fun _ => ?_
        refine .bind (emit_orderly _) fun _ => ?_
        exact fields _

theorem compilePattern_orderly (id : Nat) (slot : Option Slot) (onMismatch : JumpLabel) :
    Orderly (compilePattern id slot onMismatch) :=
  .bind .get fun _ => compileWithin_orderly _ id slot onMismatch

theorem compileBindingsWithin_orderly : ∀ (depth id : Nat) (slot : Slot),
    Orderly (compileBindingsWithin depth id slot)
  | 0, _, _ => .lift (orderly_error rfl)
  | depth + 1, id, slot => by
    refine .bind (inspect_orderly fun _ => PatternStore.kind_orderly id) fun kind => ?_
    have marked : Orderly (markCompiled id) := .modify
    split
    · exact marked
    · exact marked
    · refine .bind (emit_orderly _) fun _ => ?_
      split
      · exact marked
      · exact .bind (compileBindingsWithin_orderly depth _ slot) fun _ => marked
    · exact .bind (projectFields_orderly (compileBindingsWithin_orderly depth) slot 0 _)
        fun _ => marked

theorem compileBindings_orderly (id : Nat) (slot : Slot) : Orderly (compileBindings id slot) :=
  .bind .get fun _ => compileBindingsWithin_orderly _ id slot

theorem switchTestWithin_orderly : ∀ (depth id : Nat) (slot : Slot),
    Orderly (switchTestWithin depth id slot)
  | 0, _, _ => .lift (orderly_error rfl)
  | depth + 1, id, slot => by
    refine .bind (inspect_orderly fun _ => PatternStore.kind_orderly id) fun kind => ?_
    split
    · exact emit_orderly _
    · exact switchTestWithin_orderly depth _ slot
    · exact emit_orderly _
    · exact .pure
    · exact .pure

theorem aside_orderly {action : CompileM PUnit} (done : Orderly action) :
    Orderly (aside action) := by
  refine .bind .get fun _ => ?_
  refine .bind .modify fun _ => ?_
  refine .bind done fun _ => ?_
  refine .bind .get fun _ => ?_
  refine .bind .modify fun _ => ?_
  exact .pure

end CompileM

namespace MatchGroup

theorem dispatch_orderly (strategy : Strategy) (exhaustive : Bool) (subject : Slot) :
    ∀ arms : List (Nat × Nat), Orderly (dispatch strategy exhaustive subject arms)
  | [] => .bind (CompileM.emit_orderly _) fun _ => .pure
  | (index, pattern) :: rest => by
    have bindings : Orderly (CompileM.aside (CompileM.compileBindings pattern subject)) :=
      CompileM.aside_orderly (CompileM.compileBindings_orderly pattern subject)
    refine .bind (CompileM.inspect_orderly fun _ =>
      PatternStore.isIrrefutableWithin_orderly _ pattern) fun irrefutable => ?_
    split
    · refine .bind bindings fun bindings => ?_
      cases strategy with
      | branchChain => exact .bind (CompileM.emit_orderly _) fun _ => .pure
      | ifChain =>
        exact .bind (.forM CompileM.emit_orderly) fun _ =>
          .bind (CompileM.emit_orderly _) fun _ => .pure
    · cases strategy with
      | branchChain =>
        refine .bind (.bind .get fun _ => CompileM.switchTestWithin_orderly _ _ _) fun _ => ?_
        refine .bind (CompileM.emit_orderly _) fun _ => ?_
        refine .bind bindings fun _ => ?_
        refine .bind (dispatch_orderly _ exhaustive subject rest) fun _ => ?_
        exact .pure
      | ifChain =>
        refine .bind .modifyGet fun _ => ?_
        refine .bind (CompileM.compilePattern_orderly _ _ _) fun _ => ?_
        refine .bind (CompileM.emit_orderly _) fun _ => ?_
        refine .bind (CompileM.emit_orderly _) fun _ => ?_
        exact dispatch_orderly _ exhaustive subject rest

theorem lowerArms_orderly (group : MatchGroup) (analysis : GroupAnalysis) :
    Orderly (group.lowerArms analysis) := by
  have stored : ∀ (strategy : Strategy) (arms : List (Nat × Nat)), Orderly (do
      let subject ← CompileM.freshSlot
      CompileM.emit (.store subject)
      let entries ← dispatch strategy analysis.coverage.isExhaustive subject arms
      return (strategy, entries)) := fun strategy arms =>
    .bind .modifyGet fun _ => .bind (CompileM.emit_orderly _) fun _ =>
      .bind (dispatch_orderly strategy _ _ arms) fun _ => .pure
  unfold lowerArms
  dsimp only
  split
  · refine .bind (CompileM.inspect_orderly fun _ => PatternStore.isWildcard_orderly _)
      fun wild => ?_
    split
    · refine .bind (CompileM.compilePattern_orderly _ _ _) fun _ => ?_
      refine .bind (CompileM.emit_orderly _) fun _ => ?_
      exact .pure
    · exact stored _ _
  · exact stored _ _

@[simp]
theorem lower_orderly (group : MatchGroup) (analysis : GroupAnalysis) (store : PatternStore) :
    Orderly (group.lower analysis store) := by
  refine Promise.Meets.bind (m := Except Abort) ?_ fun _ => .pure
  exact Ordered.promise.mono (lowerArms_orderly group analysis _) fun _ _ => trivial

end MatchGroup
end ClassLang
