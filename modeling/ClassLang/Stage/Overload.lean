import ClassLang.CompilationUnit
import ClassLang.Type.Relation

/-! Choosing the method a call refers to: by number of arguments, by applicability, by an exact
match, and at last by being the most specific. -/

namespace ClassLang

/-- A method seen through a receiver, with its parameter types as the receiver has them. -/
structure Candidate where
  id : Nat
  symbol : Symbol
  /-- The declaring class as an ancestor of the receiver. -/
  ownerType : TypeRef
  params : List TypeRef
deriving Repr, DecidableEq, Inhabited

/-- The chosen method, its result for this call, and the type parameters left open. -/
structure Selection where
  id : Nat
  result : TypeRef
  unbound : List TypeFault
deriving Repr, DecidableEq, Inhabited

inductive OverloadFault where
  /-- The receiver has no method of the name at all. -/
  | noSuchMethod
  | noneApplicable
  | ambiguous (count : Nat)
deriving Repr, DecidableEq, Inhabited

namespace SymbolTable

/-- The bindings of the class of an ancestor, with the class. -/
def ancestorBindings (table : SymbolTable) (ancestor : TypeRef) :
    PoolM (Option (Name × Substitution)) := do
  let some base ← PoolM.inspect (·.baseName? ancestor) | return none
  let args ← PoolM.inspect (·.args ancestor)
  return some (base, table.hierarchy.bindArgs base args)

/-- The parameter types of a method under a substitution; none before they are published. -/
def paramTypes (symbol : Symbol) (subst : Substitution) : PoolM (List TypeRef) :=
  ((symbol.signature.map (·.params)).getD []).mapM (instantiate · subst)

/-- Add the methods of one ancestor that are not overridden by those found before. -/
def addCandidates (ancestor : TypeRef) (subst : Substitution) :
    List Candidate → List (Nat × Symbol) → PoolM (List Candidate)
  | found, [] => return found
  | found, (id, symbol) :: rest => do
    let params ← paramTypes symbol subst
    if found.any (·.params == params) then addCandidates ancestor subst found rest
    else
      addCandidates ancestor subst (found ++ [{ id, symbol, ownerType := ancestor, params }]) rest

/-- The methods of a name that a receiver has, nearest class first; a method with the parameter
types of a nearer one is overridden and not listed. -/
def visibleMethods (table : SymbolTable) (receiver : TypeRef) (name : Name) :
    PoolM (List Candidate) := do
  let ancestors ← table.hierarchy.ancestors receiver
  ancestors.foldlM (fun found ancestor => do
    match ← table.ancestorBindings ancestor with
    | none => return found
    | some (base, subst) =>
      addCandidates ancestor subst found (table.membersNamed base name .method))
    []

/-- Whether every argument fits the parameter at its position. -/
def argumentsFit (table : SymbolTable) (subst : Substitution) :
    List TypeRef → List TypeRef → PoolM Bool
  | param :: params, arg :: args => do
    let param ← instantiate param subst
    if ← table.hierarchy.isSupertype param arg then argumentsFit table subst params args
    else return false
  | _, _ => return true

/-- The selection of a candidate, when it applies to the arguments. Method type parameters are
inferred from the arguments; what stays open becomes `any`. -/
def applicable? (table : SymbolTable) (args : List TypeRef) (candidate : Candidate) :
    PoolM (Option (Candidate × Selection)) := do
  if candidate.symbol.arity ≠ args.length then return none
  let some signature := candidate.symbol.signature | return none
  let some (_, receiver) ← table.ancestorBindings candidate.ownerType | return none
  let inferred ← (signature.params.zip args).foldlM
    (fun subst (param, arg) => table.hierarchy.infer subst param arg) receiver
  let (subst, unbound) := inferred.fillUnbound signature.typeParams
  if ← table.argumentsFit subst signature.params args then
    let result ← instantiate signature.type subst
    return some (candidate, { id := candidate.id, result, unbound })
  else return none

/-- The parameter types are exactly the argument types. -/
def exactMatch (args : List TypeRef) (candidate : Candidate) : Bool :=
  (candidate.params.zip args).all fun (param, arg) => param == arg

/-- Every parameter of `first` is a subtype of the one of `second` at its position. -/
def moreSpecific (table : SymbolTable) (first second : Candidate) : PoolM Bool :=
  (first.params.zip second.params).allM fun (param, other) =>
    table.hierarchy.isSupertype other param

/-- The candidate at a position is more specific than all others. -/
def mostSpecific (table : SymbolTable) (candidates : List (Candidate × Selection))
    (candidate : Candidate) (position : Nat) : PoolM Bool :=
  candidates.zipIdx.allM fun (other, index) =>
    if index = position then return true else table.moreSpecific candidate other.1

/-- Choose the method for a call. -/
def selectOverload (table : SymbolTable) (receiver : TypeRef) (name : Name)
    (args : List TypeRef) : PoolM (Except OverloadFault Selection) := do
  let visible ← table.visibleMethods receiver name
  if visible.isEmpty then return .error .noSuchMethod
  let applicable ← visible.filterMapM (table.applicable? args)
  match applicable with
  | [] => return .error .noneApplicable
  | [(_, only)] => return .ok only
  | _ =>
    match applicable.filter fun (candidate, _) => exactMatch args candidate with
    | [(_, exact)] => return .ok exact
    | _ =>
      let best ← applicable.zipIdx.filterM fun ((candidate, _), position) =>
        table.mostSpecific applicable candidate position
      match best with
      | [((_, only), _)] => return .ok only
      | _ => return .error (.ambiguous applicable.length)

end SymbolTable
end ClassLang
