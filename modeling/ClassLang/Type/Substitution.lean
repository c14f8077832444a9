import ClassLang.Type.Pool

/-! Replacing type variables. -/

namespace ClassLang

/-- What type parameters stand for at one use; no parameter is listed twice. -/
structure Substitution where
  bindings : List (ParamRef × TypeRef) := []
deriving Repr, DecidableEq, Inhabited

namespace Substitution

def isEmpty (subst : Substitution) : Bool := subst.bindings.isEmpty

def size (subst : Substitution) : Nat := subst.bindings.length

def get? (subst : Substitution) (param : ParamRef) : Option TypeRef :=
  subst.bindings.lookup param

def contains (subst : Substitution) (param : ParamRef) : Bool := (subst.get? param).isSome

/-- Bind `param`, in place of an earlier binding. -/
def bind (subst : Substitution) (param : ParamRef) (type : TypeRef) : Substitution :=
  if subst.contains param then
    ⟨subst.bindings.map fun entry => if entry.1 = param then (param, type) else entry⟩
  else ⟨subst.bindings ++ [(param, type)]⟩

/-- Bind parameters to arguments by position, as far as both go. -/
def ofArgs (params : List ParamRef) (args : List TypeRef) : Substitution :=
  (params.zip args).foldl (fun subst entry => subst.bind entry.1 entry.2) {}

end Substitution

/-- `instantiate` by recursion on the nesting depth. -/
def instantiateWithin (subst : Substitution) : Nat → TypeRef → PoolM TypeRef
  | 0, _ => throw .cyclic
  | depth + 1, type => do
    if subst.isEmpty || type.isPrimitive || type.isAbsent then return type
    match ← PoolM.inspect (·.node type) with
    | .var param _ => return (subst.get? param).getD type
    | .applied base args =>
      let replaced ← args.mapM (instantiateWithin subst depth)
      if replaced = args then return type else PoolM.intern (.applied base replaced)
    | .wildcard variance bound =>
      let replaced ← instantiateWithin subst depth bound
      if replaced = bound then return type
      match ← PoolM.inspect (·.node replaced) with
      | .wildcard inner innerBound =>
        if inner = variance then PoolM.wildcard variance innerBound else PoolM.anyWildcard
      | _ => if variance = .invariant then return type else PoolM.wildcard variance replaced
    | _ => return type

/-- Replace the variables of `type` that `subst` binds. What replaces a variable is not looked
into again. A wildcard inside a wildcard collapses: the inner one when both point the same way,
else `?`. -/
def instantiate (type : TypeRef) (subst : Substitution) : PoolM TypeRef := do
  instantiateWithin subst ((← get).size + 1) type

end ClassLang
