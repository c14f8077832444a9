import ClassLang.CompilationUnit

/-! The first stage: written types become pooled types, and signatures are published. -/

namespace ClassLang

/-- Type parameters in scope: those of the class, then those of the member, which hide them. -/
abbrev TypeScope := List (Name × ParamRef)

namespace TypeScope

def find? (scope : TypeScope) (name : Name) : Option ParamRef :=
  scope.reverse.lookup name

def ofParams (params : List GenericParam) : TypeScope :=
  params.map fun param => (param.name, param.id)

def forMember (members : MemberArena) (id : Nat) : Except Abort TypeScope := do
  let member ← members.get id
  let outer ← match member.owner with
    | some owner => pure (← members.get (← members.topLevel owner)).typeParams
    | none => pure []
  return ofParams outer ++ ofParams member.typeParams

end TypeScope

/-- Where types are being resolved. -/
structure TypeSite where
  scope : TypeScope
  member : Nat
deriving Repr, DecidableEq, Inhabited

namespace TypeSite

/-- Whether a type has the right number of arguments, with a report if not. Leaving all of them
out is always allowed. -/
def checkArgCount (name : Name) (expected found : Nat) (span : Span) : StageM Bool := do
  if expected = found ∨ found = 0 then return true
  StageM.report
    { code := .typeArgumentCount, span, args := [name, toString expected, toString found] }
  return false

/-- Resolve a name that is applied to `count` arguments, which `args` resolves if they are
wanted. Types with arguments are noted for checking bounds. -/
def resolveNamed (site : TypeSite) (name : Name) (count : Nat) (span : Span)
    (args : StageM (List TypeRef)) : StageM TypeRef := do
  if let some param := site.scope.find? name then
    let _ ← checkArgCount name 0 count span
    return ← PoolM.var param
  if let some primitive := TypeRef.primitive? name then
    let _ ← checkArgCount name 0 count span
    return primitive
  let work ← get
  if (work.symbols.lookupClass? name).isNone then
    StageM.report { code := .unknownType, span, args := [name] }
    return ← PoolM.unresolved name
  if count = 0 then return ← PoolM.class_ name
  let expected := (work.hierarchy.typeParams name).length
  if ← checkArgCount name expected count span then
    let args ← args
    let type ← PoolM.applied name args
    StageM.modifyUnit fun unit =>
      { unit with boundUses := unit.boundUses ++ [{ member := site.member, span, type }] }
    return type
  else PoolM.class_ name

mutual

/-- The pooled type of a written one. What is not found is reported and becomes an unresolved
type; a wildcard without direction has no bound. -/
def resolve (site : TypeSite) : TypeExpr → StageM TypeRef
  | .infer => return .any
  | .wildcard .invariant _ _ => PoolM.anyWildcard
  | .wildcard variance bound _ => do
    let bound ← resolveBound site bound
    PoolM.wildcard variance bound
  | .named name args span => site.resolveNamed name args.length span (resolveArgs site args)

def resolveBound (site : TypeSite) : Option TypeExpr → StageM TypeRef
  | none => return .any
  | some bound => resolve site bound

def resolveArgs (site : TypeSite) : List TypeExpr → StageM (List TypeRef)
  | [] => return []
  | arg :: args => do
    let first ← resolve site arg
    return first :: (← resolveArgs site args)

end

/-- Resolve and set the bounds of type parameters, one parameter after the other. -/
def resolveBounds (site : TypeSite) (params : List GenericParam) : StageM PUnit :=
  params.forM fun param => do
    let bounds ← resolveArgs site param.bounds
    StageM.onPool (PoolM.setBounds param.id bounds)

end TypeSite

namespace StageM

def publishSignature (symbol : Nat) (signature : Signature) : StageM PUnit := do
  let symbols ← inspect (·.symbols.publishSignature symbol signature)
  modify fun work => { work with symbols }

/-- Resolve the types of one member and publish its signature. A method without a written
result returns nothing. -/
def resolveTypes (id : Nat) : StageM PUnit := do
  let unit := (← get).unit
  let scope ← TypeScope.forMember unit.members id
  let symbol ← unit.symbol id
  let member ← unit.members.get id
  let site : TypeSite := { scope, member := id }
  match member.detail with
  | .class_ typeParams superclass interfaces _ _ permits members =>
    site.resolveBounds typeParams
    let superType ← superclass.mapM site.resolve
    let interfaceTypes ← site.resolveArgs interfaces
    let type ← withClasses (·.selfType member.name)
    modify fun work =>
      { work with symbols := work.symbols.publishClass symbol superType interfaceTypes }
    publishSignature symbol { type, typeParams := typeParams.map (·.id) }
    setMember id { member with
      type
      detail := .class_ typeParams superclass interfaces superType interfaceTypes permits members }
  | .field _ =>
    let type ← site.resolve member.declared
    publishSignature symbol { type }
    setMember id { member with type }
  | .method typeParams params body =>
    site.resolveBounds typeParams
    let paramTypes ← site.resolveArgs (params.map (·.declared))
    let type ← match member.declared with
      | .infer => pure TypeRef.void
      | declared => site.resolve declared
    publishSignature symbol { type, params := paramTypes, typeParams := typeParams.map (·.id) }
    let params := (params.zip paramTypes).map fun (param, type) => { param with type }
    setMember id { member with type, detail := .method typeParams params body }

end StageM
end ClassLang
