import ClassLang.Diagnostic.Basic
import ClassLang.Type.Display
import ClassLang.Type.Hierarchy

/-! What can be wrong with the types of a declaration or call. -/

namespace ClassLang

/-- Where in a signature a type stands. -/
inductive TypePosition where
  | parameter
  | result
  | field
deriving Repr, DecidableEq, Inhabited

namespace TypePosition

/-- Parameters consume values; results and fields produce them. -/
def variance : TypePosition → Variance
  | parameter => .contravariant
  | result | field => .covariant

def render : TypePosition → String
  | parameter => "parameter"
  | result => "return"
  | field => "field"

end TypePosition

inductive TypeFault where
  | outsideBound (param : ParamRef) (argument bound : TypeRef)
  | varianceConflict (param : ParamRef) (variance : Variance) (position : TypePosition)
  | unbound (param : ParamRef)
deriving Repr, DecidableEq, Inhabited

namespace TypeFault

def code : TypeFault → Code
  | outsideBound .. => .outsideBound
  | varianceConflict .. => .varianceConflict
  | unbound _ => .cannotInferArgument

/-- The fault in terms of handles, without a pool to name them. -/
def render : TypeFault → String
  | outsideBound param argument bound =>
    "type argument " ++ argument.tag ++ " violates bound " ++ bound.tag ++ " of " ++ param.tag
  | varianceConflict param variance position =>
    variance.render ++ " type parameter " ++ param.tag ++ " in " ++ position.render ++ " position"
  | unbound param => "no binding inferred for " ++ param.tag

/-- The report of the fault at a place. -/
def toDiagnostic (fault : TypeFault) (span : Span) (pool : TypePool) :
    Except Abort Diagnostic := do
  match fault with
  | outsideBound param argument bound =>
    let argument ← pool.display argument
    let bound ← pool.display bound
    return { code := .outsideBound, span, args := [argument, bound, (← pool.param param).name] }
  | varianceConflict param variance position =>
    let name := (← pool.param param).name
    return { code := .varianceConflict, span, args := [variance.render, name, position.render] }
  | unbound param =>
    let declared ← pool.param param
    return {
      code := .cannotInferArgument, span
      args := [declared.name, declared.owner]
      notes := ["the type argument defaults to `any`"] }

/-- The fault is a variance conflict of `param`. -/
def concernsVariance (param : ParamRef) : TypeFault → Bool
  | varianceConflict other _ _ => other == param
  | _ => false

end TypeFault

/-- Bind every parameter that is still open to `any`, with one fault for each. -/
def Substitution.fillUnbound (subst : Substitution) (params : List ParamRef) :
    Substitution × List TypeFault :=
  params.foldl (fun (subst, faults) param =>
    if subst.contains param then (subst, faults)
    else (subst.bind param .any, faults ++ [.unbound param])) (subst, [])

namespace TypePool

/-- Declared variances of the parameters of a class. -/
def declaredVariances (pool : TypePool) (params : List ParamRef) : Except Abort (List Variance) :=
  params.mapM fun param => return (← pool.param param).variance

/-- Polarity of an argument. A wildcard replaces the declared variance by its own. -/
def argumentPolarity (pool : TypePool) (declared polarity : Variance) (argument : TypeRef) :
    Except Abort Variance := do
  match ← pool.node argument with
  | .wildcard variance _ => return variance.compose polarity
  | _ => return declared.compose polarity

/-- Add the conflicts in a type of the given polarity, by recursion on the nesting depth. -/
def varianceConflictsWithin (pool : TypePool) (hierarchy : ClassHierarchy)
    (position : TypePosition) :
    Nat → TypeRef → Variance → List TypeFault → Except Abort (List TypeFault)
  | 0, _, _, _ => throw .cyclic
  | depth + 1, type, polarity, found => do
    if type.isPrimitive then return found
    match ← pool.node type with
    | .var param variance =>
      if variance != .invariant && variance != polarity &&
        !found.any (·.concernsVariance param) then
        return found ++ [.varianceConflict param variance position]
      else return found
    | .applied base args =>
      let declared ← pool.declaredVariances (hierarchy.typeParams base)
      args.zipIdx.foldlM (fun found (argument, index) => do
        let inner ← pool.argumentPolarity (declared.getD index .invariant) polarity argument
        varianceConflictsWithin pool hierarchy position depth argument inner found) found
    | .wildcard variance bound =>
      if variance = .invariant then return found
      else varianceConflictsWithin pool hierarchy position depth bound polarity found
    | _ => return found

/-- Variables of `type` that stand where their declared variance forbids it, each once. An
invariant place conflicts with both directions. -/
def varianceConflicts (pool : TypePool) (hierarchy : ClassHierarchy) (type : TypeRef)
    (position : TypePosition) : Except Abort (List TypeFault) :=
  pool.varianceConflictsWithin hierarchy position (pool.size + 1) type position.variance []

end TypePool
end ClassLang
