import ClassLang.Stage.Overload

/-! The third stage: a resolved member is checked against the rules of the language, and its
matches are lowered. Every violation is reported and checking goes on. -/

namespace ClassLang

/-- Two members of a class clash: two fields, or two methods with the same parameter types. -/
def sameSignature (first second : Member) : Bool :=
  match first.detail, second.detail with
  | .field _, .field _ => true
  | .method _ params _, .method _ others _ => params.map (·.type) == others.map (·.type)
  | _, _ => false

/-- A method that a class inherits, as the class sees it. -/
structure InheritedMethod where
  owner : Name
  symbol : Symbol
  params : List TypeRef
deriving Repr, DecidableEq, Inhabited

/-- An abstract method of the list that no concrete one of the list implements. -/
def InheritedMethod.isMissing (methods : List InheritedMethod) (method : InheritedMethod) : Bool :=
  method.symbol.isAbstract && !methods.any fun other =>
    !other.symbol.isAbstract && other.symbol.name == method.symbol.name
      && other.params == method.params

namespace SymbolTable

/-- Every method of a type and its ancestors, nearest class first. -/
def inheritedMethods (table : SymbolTable) (type : TypeRef) : PoolM (List InheritedMethod) := do
  let ancestors ← table.hierarchy.ancestors type
  let methods ← ancestors.mapM fun ancestor => do
    match ← table.ancestorBindings ancestor with
    | none => return []
    | some (owner, subst) =>
      (table.methods owner).mapM fun (_, symbol) =>
        return { owner, symbol, params := ← paramTypes symbol subst }
  return methods.flatten

/-- Parameter types of a method, instantiated one by one, are exactly those given. -/
def sameParams (subst : Substitution) : List TypeRef → List TypeRef → PoolM Bool
  | param :: params, other :: others => do
    if (← instantiate param subst) = other then sameParams subst params others else return false
  | _, _ => return true

/-- A method that could be overridden: an instance method with the right number of
parameters. -/
def overridable (arity : Nat) (symbol : Symbol) : Bool :=
  symbol.arity == arity && !symbol.isStatic

/-- The nearest method with the name and parameter types given, its class, and its result
there. -/
def findOverridden? (table : SymbolTable) (name : Name) (params : List TypeRef)
    (ancestors : List TypeRef) : PoolM (Option (Name × Symbol × TypeRef)) :=
  ancestors.findSomeM? fun ancestor => do
    match ← table.ancestorBindings ancestor with
    | none => return none
    | some (base, subst) =>
      (table.membersNamed base name .method).findSomeM? fun (_, symbol) => do
        if !overridable params.length symbol then return none
        let some signature := symbol.signature | return none
        if ← sameParams subst signature.params params then
          return some (base, symbol, ← instantiate signature.type subst)
        else return none

/-- Some ancestor has a method of the name that could be overridden. -/
def hasOverridable (table : SymbolTable) (name : Name) (arity : Nat)
    (ancestors : List TypeRef) : PoolM Bool :=
  ancestors.anyM fun ancestor => do
    match ← PoolM.inspect (·.baseName? ancestor) with
    | none => return false
    | some base =>
      return (table.membersNamed base name .method).any fun (_, symbol) => overridable arity symbol

end SymbolTable

namespace Conformance

def violation (span : Span) (code : Code) (args : List String) : StageM PUnit :=
  StageM.report { code, span, args }

/-- A class is declared once in the program, a field or method signature once in its class; later
declarations are reported. -/
def duplicates (id : Nat) (member : Member) : StageM PUnit := do
  let work ← get
  let duplicate ← match member.detail with
    | .class_ .. => do
      let own ← work.unit.symbol id
      pure (((work.symbols.declarations member.name).head?.map (· != own)).getD false)
    | _ =>
      match member.owner with
      | none => pure false
      | some owner => do
        let siblings := (← work.unit.members.get owner).members.takeWhile (· != id)
        siblings.anyM fun sibling => do
          let other ← work.unit.members.get sibling
          return other.name == member.name && sameSignature other member
  if duplicate then violation member.span .duplicate [member.name]

/-- A class with instances implements every abstract method it inherits. -/
def implementation (member : Member) : StageM PUnit := do
  if member.modifiers.lacksBody || member.modifiers.marksAnnotations then return
  let table := (← get).symbols
  let methods ← StageM.onPool (table.inheritedMethods member.type)
  (methods.filter (·.isMissing methods)).forM fun method =>
    violation member.span .missingImplementation [member.name, method.symbol.name, method.owner]

/-- Rules for a method that overrides another one. -/
def overrideRules (member : Member) (owner : Name) (symbol : Symbol) (result : TypeRef) :
    StageM PUnit := do
  let target := owner ++ "." ++ symbol.name
  if symbol.modifiers.isFinal then violation member.span .overridesFinal [member.name, owner]
  unless ← StageM.withClasses (·.isSupertype result member.type) do
    let own ← StageM.display member.type
    let other ← StageM.display result
    violation member.span .badOverride [member.name, target,
      "return type `" ++ own ++ "` is not compatible with `" ++ other ++ "`"]
  if member.access.weaker symbol.access then
    violation member.span .badOverride [member.name, target,
      "weaker access; was " ++ symbol.access.render]

/-- An instance method against the nearest inherited method with the same name and parameter
types. Only a method marked as overriding must have one. -/
def overriding (member classMember : Member) : StageM PUnit := do
  if member.modifiers.isStatic then return
  let params := member.params.map (·.type)
  let table := (← get).symbols
  let ancestors := (← StageM.withClasses (·.ancestors classMember.type)).drop 1
  match ← StageM.onPool (table.findOverridden? member.name params ancestors) with
  | some (owner, symbol, result) => overrideRules member owner symbol result
  | none =>
    if member.isMarkedOverride then
      if ← StageM.onPool (table.hasOverridable member.name params.length ancestors) then
        violation member.span .badOverride [member.name, member.name, "parameter types differ"]
      else violation member.span .overridesNothing [member.name]

/-- Initializer or body against the declared type. -/
def assignability (member : Member) : StageM PUnit := do
  let some body := member.body | return
  if member.type = .void then return
  let found := (← get).unit.typeOf body
  unless ← StageM.withClasses (·.isSupertype member.type found) do
    StageM.mismatch member.type found (← StageM.inspect (·.unit.arena.span body))

/-- The types of a signature with their positions; a field has one, a method those of its
parameters and its result. -/
def signaturePositions (member : Member) : List (TypeRef × TypePosition) :=
  match member.detail with
  | .field _ => [(member.type, .field)]
  | .method _ params _ =>
    params.map (fun param => (param.type, .parameter)) ++ [(member.type, .result)]
  | .class_ .. => []

/-- Type parameters of the class stand only where their variance allows. -/
def variance (member classMember : Member) : StageM PUnit := do
  if member.modifiers.isStatic || classMember.typeParams.isEmpty then return
  let work ← get
  let faults ← (signaturePositions member).mapM fun (type, position) =>
    work.pool.varianceConflicts work.hierarchy type position
  faults.flatten.forM (StageM.reportFault member.span)

/-- Whether a class of a unit may use a declaration. -/
def mayAccess (unit : Nat) (classMember : Member) (symbol : Symbol) : StageM Bool := do
  let sameUnit := symbol.unit == unit
  match symbol.access, symbol.owner with
  | .public_, _ => return true
  | .package, _ => return sameUnit
  | .private_, some owner => return sameUnit && owner == classMember.name
  | .private_, none => return sameUnit
  | .protected_, some owner =>
    if owner = classMember.name then return true
    let ownerType ← StageM.onPool (PoolM.class_ owner)
    StageM.withClasses (·.isSuperclass ownerType classMember.type)
  | .protected_, none => return sameUnit

/-- Everything the body refers to may be used here. -/
def access (member classMember : Member) : StageM PUnit := do
  let some body := member.body | return
  let unit := (← get).unit
  let visited ← unit.arena.walk body
  visited.forM fun index => do
    let some id := (unit.resolutions.get? index).bind (·.symbol?) | return
    let symbol ← StageM.inspect (·.symbols.get id)
    unless ← mayAccess unit.id classMember symbol do
      let span ← unit.arena.span (.node index)
      violation span .inaccessible
        [symbol.name, symbol.access.render, symbol.owner.getD symbol.name]

/-- The arguments of the types written in a member are within their bounds. -/
def bounds (id : Nat) : StageM PUnit := do
  let unit := (← get).unit
  (unit.boundUses.filter (·.member == id)).forM fun usage => do
    let table := (← get).symbols
    match ← StageM.onPool (table.ancestorBindings usage.type) with
    | none => pure ()
    | some (base, subst) =>
      let args ← StageM.inspect (·.pool.args usage.type)
      ((table.hierarchy.typeParams base).zip args).forM fun (param, argument) => do
        match ← StageM.withClasses (·.violatedBound? param argument subst) with
        | none => pure ()
        | some bound => StageM.reportFault usage.span (.outsideBound param argument bound)

/-- Whether a node of the arena is a match. -/
def isMatch (arena : Arena) (index : Nat) : Except Abort Bool := do
  match ← arena.kind (.node index) with
  | .matchOn .. => return true
  | _ => return false

/-- Check and lower the match at a node. -/
def lowerMatch (index : Nat) : StageM PUnit := do
  let some group := (← get).unit.matchGroups.get? index | return
  let patterns := (← get).unit.patterns
  let ((_, reports), lowered, patterns) ← StageM.withClasses (group.compile · patterns)
  StageM.reportAll reports
  StageM.modifyUnit fun unit =>
    { unit with patterns, lowered := unit.lowered.insert index lowered }

/-- Check and lower every match of the body. -/
def lowerMatches (member : Member) : StageM PUnit := do
  let some body := member.body | return
  let arena := (← get).unit.arena
  let visited ← arena.walk body
  let matchNodes ← (visited.filterM (isMatch arena) : Except Abort (List Nat))
  matchNodes.forM lowerMatch

end Conformance

/-- Check one member. -/
def StageM.checkMember (id : Nat) : StageM PUnit := do
  let unit := (← get).unit
  let member ← unit.members.get id
  Conformance.duplicates id member
  match member.detail with
  | .class_ .. => Conformance.implementation member
  | .method .. =>
    Conformance.overriding member (← unit.classOf id)
    Conformance.assignability member
    Conformance.variance member (← unit.classOf id)
  | .field _ =>
    Conformance.assignability member
    Conformance.variance member (← unit.classOf id)
  Conformance.access member (← unit.classOf id)
  Conformance.bounds id
  Conformance.lowerMatches member

end ClassLang
