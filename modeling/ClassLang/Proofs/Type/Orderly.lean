import ClassLang.Proofs.Orderly
import ClassLang.Type.Fault
import ClassLang.Type.Relation

/-! Asking about types keeps the order of stages. -/

namespace ClassLang

namespace TypePool
variable {pool : TypePool}

@[simp]
theorem node_orderly (type : TypeRef) : Orderly (pool.node type) := by
  unfold node
  split
  · exact orderly_ok
  · exact orderly_error rfl

@[simp]
theorem param_orderly (param : ParamRef) : Orderly (pool.param param) := by
  unfold TypePool.param
  split
  · exact orderly_ok
  · exact orderly_error rfl

@[simp]
theorem upperBound_orderly (param : ParamRef) : Orderly (pool.upperBound param) :=
  .map (param_orderly param)

@[simp]
theorem baseName?_orderly (type : TypeRef) : Orderly (pool.baseName? type) :=
  .bind (node_orderly type) fun node => by split <;> exact .pure

@[simp]
theorem args_orderly (type : TypeRef) : Orderly (pool.args type) :=
  .bind (node_orderly type) fun node => by split <;> exact .pure

@[simp]
theorem isUnresolved_orderly (type : TypeRef) : Orderly (pool.isUnresolved type) :=
  .bind (node_orderly type) fun node => by split <;> exact .pure

@[simp]
theorem isLenient_orderly (type : TypeRef) : Orderly (pool.isLenient type) := by
  unfold isLenient
  split
  · exact .pure
  · exact isUnresolved_orderly type

theorem containsUnresolvedWithin_orderly : ∀ (depth : Nat) (type : TypeRef),
    Orderly (pool.containsUnresolvedWithin depth type)
  | 0, _ => orderly_error rfl
  | depth + 1, type => by
    refine .bind (node_orderly type) fun node => ?_
    split
    · exact .pure
    · exact .anyM (containsUnresolvedWithin_orderly depth)
    · exact containsUnresolvedWithin_orderly depth _
    · exact .pure

@[simp]
theorem containsUnresolved_orderly (type : TypeRef) : Orderly (pool.containsUnresolved type) :=
  containsUnresolvedWithin_orderly _ type

theorem displayWithin_orderly : ∀ (depth : Nat) (type : TypeRef),
    Orderly (pool.displayWithin depth type)
  | 0, _ => orderly_error rfl
  | depth + 1, type => by
    unfold displayWithin
    split
    · exact .pure
    refine .bind (node_orderly type) fun node => ?_
    cases node with
    | applied base args => exact .bind (.mapM (displayWithin_orderly depth)) fun _ => .pure
    | var param variance => exact .bind (param_orderly param) fun _ => .pure
    | wildcard variance bound =>
      cases variance with
      | invariant => exact .pure
      | _ => exact .bind (displayWithin_orderly depth bound) fun _ => .pure
    | _ => exact .pure

theorem display_orderly (type : TypeRef) : Orderly (pool.display type) :=
  displayWithin_orderly _ type

theorem varianceConflictsWithin_orderly (hierarchy : ClassHierarchy) (position : TypePosition) :
    ∀ (depth : Nat) (type : TypeRef) (polarity : Variance) (found : List TypeFault),
      Orderly (pool.varianceConflictsWithin hierarchy position depth type polarity found)
  | 0, _, _, _ => orderly_error rfl
  | depth + 1, type, polarity, found => by
    unfold varianceConflictsWithin
    split
    · exact .pure
    refine .bind (node_orderly type) fun node => ?_
    split
    · split <;> exact .pure
    · refine .bind (.mapM fun param => .bind (param_orderly param) fun _ => .pure)
        fun declared => ?_
      refine .foldlM fun found entry => .bind (.bind (node_orderly entry.1) fun argument => ?_)
        fun inner => varianceConflictsWithin_orderly hierarchy position depth _ inner found
      split <;> exact .pure
    · split
      · exact .pure
      · exact varianceConflictsWithin_orderly hierarchy position depth _ polarity found
    · exact .pure

theorem varianceConflicts_orderly (hierarchy : ClassHierarchy) (type : TypeRef)
    (position : TypePosition) : Orderly (pool.varianceConflicts hierarchy type position) :=
  varianceConflictsWithin_orderly hierarchy position _ type _ _

end TypePool

theorem TypeFault.toDiagnostic_orderly (fault : TypeFault) (span : Span) (pool : TypePool) :
    Orderly (fault.toDiagnostic span pool) := by
  cases fault with
  | outsideBound param argument bound =>
    refine .bind (TypePool.display_orderly argument) fun _ => ?_
    refine .bind (TypePool.display_orderly bound) fun _ => ?_
    refine .bind (TypePool.param_orderly param) fun _ => ?_
    exact .pure
  | varianceConflict param => exact .bind (TypePool.param_orderly param) fun _ => .pure
  | unbound param => exact .bind (TypePool.param_orderly param) fun _ => .pure

end ClassLang
