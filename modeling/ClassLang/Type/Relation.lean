import ClassLang.Type.Hierarchy

/-! Subtyping and subclassing.

A covariant variable or `? extends B` accepts what `B` accepts; a contravariant variable or
`? super B` accepts the supertypes of `B`; an invariant variable accepts itself; `?` accepts
everything. `any` and names that were not found relate to every type in both directions, so that
a reported error has no consequences. -/

namespace ClassLang

/-- Bounds are followed this many times; what is deeper counts as unrelated. -/
def relationDepth : Nat := 65

/-- Whether two types are related before any structure is looked at. -/
def triviallyRelated (first second : TypeRef) : PoolM Bool := do
  if first = second then return true
  if ← PoolM.inspect (·.isLenient first) then return true
  PoolM.inspect (·.isLenient second)

/-- A relation on types, given the one for smaller depth. -/
abbrev TypeTest := TypeRef → TypeRef → PoolM Bool

namespace ClassHierarchy

/-- Whether the wildcard `sup` contains `sub`. -/
def wildcardContains (deeper : TypeTest) (sup sub : TypeRef) : PoolM Bool := do
  match ← PoolM.inspect (·.node sup) with
  | .wildcard variance bound =>
    let inner ← PoolM.inspect (·.node sub)
    match variance with
    | .invariant => return true
    | .covariant =>
      let upper := match inner with
        | .wildcard .covariant innerBound => innerBound
        | .wildcard _ _ => .any
        | _ => sub
      if bound = .any then return true
      if upper = .any then return false
      deeper bound upper
    | .contravariant =>
      match inner with
      | .wildcard .contravariant lower => deeper lower bound
      | .wildcard _ _ => return false
      | _ => deeper sub bound
  | _ => return false

/-- Whether a type argument admits another one, for a parameter declared with `declared`. -/
def argumentContains (deeper : TypeTest) (declared : Variance) (sup sub : TypeRef) :
    PoolM Bool := do
  if ← triviallyRelated sup sub then return true
  match ← PoolM.inspect (·.node sup) with
  | .wildcard _ _ => wildcardContains deeper sup sub
  | _ =>
    match ← PoolM.inspect (·.node sub) with
    | .wildcard _ _ => return false
    | _ =>
      match declared with
      | .covariant => deeper sup sub
      | .contravariant => deeper sub sup
      | .invariant => return false

/-- Declared variance of a parameter of a class; a parameter that is not there is invariant. -/
def declaredVariance (params : List ParamRef) (position : Nat) : PoolM Variance := do
  match params[position]? with
  | some param => return (← PoolM.inspect (·.param param)).variance
  | none => return .invariant

/-- Compare arguments pairwise from `position` on, as far as both lists go. -/
def argumentsContain (deeper : TypeTest) (params : List ParamRef) :
    Nat → List TypeRef → List TypeRef → PoolM Bool
  | position, sup :: sups, sub :: subs => do
    let declared ← declaredVariance params position
    if ← argumentContains deeper declared sup sub then
      argumentsContain deeper params (position + 1) sups subs
    else return false
  | _, _, _ => return true

/-- Subtyping between a class type `sup` and a type `sub` that is neither variable nor
wildcard. -/
def classSupertype (hierarchy : ClassHierarchy) (deeper : TypeTest) (sup : TypeNode)
    (sub : TypeRef) : PoolM Bool := do
  match sup with
  | .class_ base => return (← hierarchy.ancestorAt? sub base).isSome
  | .applied base args =>
    match ← hierarchy.ancestorAt? sub base with
    | none => return false
    | some ancestor =>
      let actuals ← PoolM.inspect (·.args ancestor)
      -- A generic class used without arguments fits every instance of it.
      if actuals.isEmpty then return true
      argumentsContain deeper (hierarchy.typeParams base) 0 args actuals
  | _ => return false

/-- Subtyping of types that are not trivially related. -/
def structuralSupertype (hierarchy : ClassHierarchy) (deeper : TypeTest) (sup sub : TypeRef) :
    PoolM Bool := do
  let node ← PoolM.inspect (·.node sup)
  match node with
  | .var param variance =>
    let bound ← PoolM.inspect (·.upperBound param)
    match variance with
    | .covariant => deeper bound sub
    | .contravariant => deeper sub bound
    | .invariant => return false
  | .wildcard _ _ => wildcardContains deeper sup sub
  | _ =>
    match ← PoolM.inspect (·.node sub) with
    | .var param _ =>
      let declared ← PoolM.inspect (·.param param)
      declared.bounds.anyM (deeper sup ·)
    | .wildcard .covariant bound => deeper sup bound
    | .wildcard _ _ => return false
    | _ => hierarchy.classSupertype deeper node sub

/-- Subtyping with bounds followed at most `depth` times. -/
def isSupertypeWithin (hierarchy : ClassHierarchy) : Nat → TypeTest
  | 0, sup, sub => triviallyRelated sup sub
  | depth + 1, sup, sub => do
    if ← triviallyRelated sup sub then return true
    hierarchy.structuralSupertype (isSupertypeWithin hierarchy depth) sup sub

/-- A value of type `sub` may be used where `sup` is expected. -/
def isSupertype (hierarchy : ClassHierarchy) : TypeTest :=
  hierarchy.isSupertypeWithin relationDepth

/-- The class a type comes down to when bounds are followed at most `depth` times. -/
def erasureWithin : Nat → TypeRef → PoolM (Option Name)
  | 0, _ => return none
  | depth + 1, type => do
    match ← PoolM.inspect (·.node type) with
    | .class_ name => return some name
    | .applied base _ => return some base
    | .var param _ => erasureWithin depth (← PoolM.inspect (·.upperBound param))
    | .wildcard _ bound => erasureWithin depth bound
    | _ => return none

/-- The class a type comes down to. -/
def erasure (type : TypeRef) : PoolM (Option Name) := erasureWithin 64 type

/-- Subclassing with bounds followed at most `depth` times. -/
def isSuperclassWithin (hierarchy : ClassHierarchy) : Nat → TypeTest
  | 0, sup, sub => triviallyRelated sup sub
  | depth + 1, sup, sub => do
    if ← triviallyRelated sup sub then return true
    match ← erasure sup with
    | none => return false
    | some target =>
      match ← PoolM.inspect (·.node sub) with
      | .var param _ =>
        let declared ← PoolM.inspect (·.param param)
        declared.bounds.anyM (isSuperclassWithin hierarchy depth sup ·)
      | .wildcard _ bound => isSuperclassWithin hierarchy depth sup bound
      | _ => return (← hierarchy.ancestorAt? sub target).isSome

/-- The class of `sub` is the class of `sup` or inherits from it; arguments do not count. -/
def isSuperclass (hierarchy : ClassHierarchy) : TypeTest :=
  hierarchy.isSuperclassWithin relationDepth

/-- Whether an argument is within one bound. A covariant wildcard is as soon as its bound and
the parameter's are related; any other wildcard is always. -/
def withinBound (hierarchy : ClassHierarchy) (bound argument : TypeRef) : PoolM Bool := do
  match ← PoolM.inspect (·.node argument) with
  | .wildcard .covariant upper =>
    if ← hierarchy.isSupertype bound upper then return true
    hierarchy.isSupertype upper bound
  | .wildcard _ _ => return true
  | _ => hierarchy.isSupertype bound argument

/-- The first bound of `param`, with its variables bound by `subst`, that `argument` is not
within. -/
def violatedBound? (hierarchy : ClassHierarchy) (param : ParamRef) (argument : TypeRef)
    (subst : Substitution) : PoolM (Option TypeRef) := do
  let declared ← PoolM.inspect (·.param param)
  declared.bounds.findSomeM? fun bound => do
    let bound ← instantiate bound subst
    if ← hierarchy.withinBound bound argument then return none else return some bound

end ClassHierarchy
end ClassLang
