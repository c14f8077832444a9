import ClassLang.Type.Substitution

/-! Classes and what they inherit. -/

namespace ClassLang

/-- What the type model asks about classes. Supertypes and components are written over the
class's own type variables. -/
structure ClassHierarchy where
  superclass : Name → Option TypeRef
  interfaces : Name → List TypeRef
  typeParams : Name → List ParamRef
  /-- The permitted subclasses of a sealed class. -/
  variants : Name → Option (List Name)
  /-- The class has no instances of its own. -/
  isAbstract : Name → Bool
  /-- The types of the parts a pattern takes apart. -/
  components : Name → List TypeRef
  /-- The declared classes; every other name has no supertypes. -/
  classes : List Name

namespace ClassHierarchy

/-- Superclass and interfaces as declared. -/
def supertypes (hierarchy : ClassHierarchy) (name : Name) : List TypeRef :=
  (hierarchy.superclass name).toList ++ hierarchy.interfaces name

/-- Number of inheritance declarations. -/
def edges (hierarchy : ClassHierarchy) : Nat :=
  (hierarchy.classes.map fun name => (hierarchy.supertypes name).length).sum

/-- The parameters of a class bound to its arguments; a class used without any binds nothing. -/
def bindArgs (hierarchy : ClassHierarchy) (name : Name) (args : List TypeRef) : Substitution :=
  .ofArgs (hierarchy.typeParams name) args

/-- The class applied to its own type variables. -/
def selfType (hierarchy : ClassHierarchy) (name : Name) : PoolM TypeRef := do
  let vars ← (hierarchy.typeParams name).mapM PoolM.var
  PoolM.applied name vars

/-- Declared parts of a class, instantiated with the arguments of `type`. -/
def instantiateParts (hierarchy : ClassHierarchy) (parts : Name → List TypeRef)
    (type : TypeRef) : PoolM (List TypeRef) := do
  let some base ← PoolM.inspect (·.baseName? type) | return []
  let args ← PoolM.inspect (·.args type)
  let subst := hierarchy.bindArgs base args
  (parts base).mapM (instantiate · subst)

/-- Superclass and interfaces of `type`. -/
def directSupertypes (hierarchy : ClassHierarchy) (type : TypeRef) : PoolM (List TypeRef) :=
  hierarchy.instantiateParts hierarchy.supertypes type

/-- The components of `type`. -/
def componentsOf (hierarchy : ClassHierarchy) (type : TypeRef) : PoolM (List TypeRef) :=
  hierarchy.instantiateParts hierarchy.components type

/-- Work through a queue of types, adding the supertypes of each class when it is first met. -/
def ancestorsFrom (hierarchy : ClassHierarchy) :
    Nat → List TypeRef → List Name → PoolM (List TypeRef)
  | _, [], _ => return []
  | 0, _ :: _, _ => throw .cyclic
  | fuel + 1, type :: queue, seen => do
    match ← PoolM.inspect (·.baseName? type) with
    | none => ancestorsFrom hierarchy fuel queue seen
    | some base =>
      if seen.contains base then ancestorsFrom hierarchy fuel queue seen
      else
        let supers ← hierarchy.directSupertypes type
        let rest ← ancestorsFrom hierarchy fuel (queue ++ supers) (base :: seen)
        return type :: rest

/-- `type` and every class type it inherits from, nearest first. Each class is listed once, so
cyclic inheritance does no harm; every declared supertype enters the queue at most once. -/
def ancestors (hierarchy : ClassHierarchy) (type : TypeRef) : PoolM (List TypeRef) :=
  hierarchy.ancestorsFrom (hierarchy.edges + 1) [type] []

/-- The first of `types` whose class is `target`. -/
def findBase? (target : Name) (types : List TypeRef) : PoolM (Option TypeRef) :=
  types.findM? fun type => return (← PoolM.inspect (·.baseName? type)) == some target

/-- The class `target` as an ancestor of `type`, with its arguments. -/
def ancestorAt? (hierarchy : ClassHierarchy) (type : TypeRef) (target : Name) :
    PoolM (Option TypeRef) := do
  findBase? target (← hierarchy.ancestors type)

/-- Bindings for members declared in `owner` when they are reached through `receiver`. -/
def bindReceiver (hierarchy : ClassHierarchy) (receiver : TypeRef) (owner : Name) :
    PoolM Substitution := do
  match ← hierarchy.ancestorAt? receiver owner with
  | some ancestor => return hierarchy.bindArgs owner (← PoolM.inspect (·.args ancestor))
  | none => return {}

/-- `infer` by recursion on the nesting depth of the parameter type. -/
def inferWithin (hierarchy : ClassHierarchy) :
    Nat → Substitution → TypeRef → TypeRef → PoolM Substitution
  | 0, _, _, _ => throw .cyclic
  | depth + 1, subst, formal, actual => do
    if formal.isPrimitive then return subst
    match ← PoolM.inspect (·.node formal) with
    | .var param _ =>
      if subst.contains param then return subst
      match ← PoolM.inspect (·.node actual) with
      | .wildcard .covariant bound => return subst.bind param bound
      | _ => return subst.bind param actual
    | .applied base args =>
      match ← hierarchy.ancestorAt? actual base with
      | some ancestor =>
        let actuals ← PoolM.inspect (·.args ancestor)
        (args.zip actuals).foldlM
          (fun subst pair => inferWithin hierarchy depth subst pair.1 pair.2) subst
      | none => return subst
    | .wildcard _ bound => inferWithin hierarchy depth subst bound actual
    | _ => return subst

/-- Bind the variables of `formal` by laying it over `actual`. The first binding of a variable
stays; a later conflict shows when the arguments are checked. -/
def infer (hierarchy : ClassHierarchy) (subst : Substitution) (formal actual : TypeRef) :
    PoolM Substitution := do
  hierarchy.inferWithin ((← get).size + 1) subst formal actual

/-- The type of a value of type `scrutinee` once it is known to be a `variant`. Parameters that
the scrutinee does not determine become `?`. -/
def narrow (hierarchy : ClassHierarchy) (variant : Name) (scrutinee : TypeRef) :
    PoolM TypeRef := do
  let params := hierarchy.typeParams variant
  if params.isEmpty then return ← PoolM.class_ variant
  let generic ← hierarchy.selfType variant
  let inferred ← match ← PoolM.inspect (·.baseName? scrutinee) with
    | none => pure {}
    | some base =>
      match ← hierarchy.ancestorAt? generic base with
      | none => pure {}
      | some ancestor => hierarchy.infer {} ancestor scrutinee
  let complete ← params.foldlM (fun subst param =>
    if subst.contains param then return subst
    else return subst.bind param (← PoolM.anyWildcard)) inferred
  instantiate generic complete

end ClassHierarchy
end ClassLang
