import ClassLang.Stage.Overload
import ClassLang.Stage.Signatures

/-! The second stage: names are bound, every expression of a body gets a type, and the arms of
every match are typed. -/

namespace ClassLang

/-- The member whose body is being resolved. -/
structure BodySite extends TypeSite where
  className : Name
  classType : TypeRef
  /-- Warnings about deprecated declarations are silenced. -/
  suppress : Bool
deriving Repr, DecidableEq, Inhabited

/-- Locals in scope, the innermost first. -/
abbrev Locals := List (Name × TypeRef)

/-- Only the `mark` outermost locals remain. -/
def Locals.truncate (locals : Locals) (mark : Nat) : Locals := locals.drop (locals.length - mark)

/-- Resolving an expression may add locals for what follows it. -/
abbrev BodyM := StateT Locals StageM

namespace BodyM

def spanOf (ref : ExprRef) : StageM Span := StageM.inspect (·.unit.arena.span ref)

def isLenient (type : TypeRef) : StageM Bool := StageM.inspect (·.pool.isLenient type)

/-- Note what an expression refers to. -/
def resolveAs (index : Nat) (resolution : Resolution) : StageM PUnit :=
  StageM.modifyUnit fun unit =>
    { unit with resolutions := unit.resolutions.insert index resolution }

/-- Note a use of a declaration, and warn if it is deprecated. Uses inside the declaring class
are not warned about. -/
def useSymbol (site : BodySite) (index : Nat) (resolution : Resolution) (symbol : Symbol)
    (span : Span) : StageM PUnit := do
  resolveAs index resolution
  let inside := symbol.owner == some site.className
    || (symbol.kind == .class_ && symbol.name == site.className)
  if symbol.deprecated && !site.suppress && !inside then
    StageM.report { code := .deprecatedUse, span, args := [symbol.name] }

/-- Report a mismatch unless `found` fits `expected`. -/
def expect (expected found : TypeRef) (span : Span) : StageM PUnit := do
  unless ← StageM.withClasses (·.isSupertype expected found) do
    StageM.mismatch expected found span

/-- The common type of two branches: the wider one if they are related, else `any`. A branch
that yields nothing does not count. -/
def join (first second : TypeRef) : StageM TypeRef := do
  if first = second ∨ second = .void then return first
  if first = .void then return second
  if ← StageM.withClasses (·.isSupertype first second) then return first
  if ← StageM.withClasses (·.isSupertype second first) then return second
  return .any

/-- The class type whose members a value of `type` has. -/
def classTypeOf (type : TypeRef) : StageM TypeRef := do
  match ← StageM.inspect (·.pool.node type) with
  | .var param _ => StageM.inspect (·.pool.upperBound param)
  | .wildcard .covariant bound => return bound
  | _ => return type

/-- The field of a name that a receiver has, with its type there. -/
def findField? (receiver : TypeRef) (name : Name) :
    StageM (Option (Nat × Symbol × TypeRef)) := do
  let receiver ← classTypeOf receiver
  let table := (← get).symbols
  let ancestors ← StageM.withClasses (·.ancestors receiver)
  ancestors.findSomeM? fun ancestor => do
    match ← StageM.onPool (table.ancestorBindings ancestor) with
    | none => return none
    | some (base, subst) =>
      match table.membersNamed base name .field with
      | [] => return none
      | (id, symbol) :: _ =>
        let type ← StageM.onPool (instantiate symbol.type subst)
        return some (id, symbol, type)

def noMember (receiver : TypeRef) (name : Name) (span : Span) : StageM PUnit := do
  let receiver ← StageM.display receiver
  StageM.report { code := .unknownMember, span, args := [receiver, name] }

/-- A bare name is a local, else a field of the class, else a class. -/
def ident (site : BodySite) (locals : Locals) (index : Nat) (name : Name) (span : Span) :
    StageM TypeRef := do
  if let some type := locals.lookup name then
    resolveAs index (.local_ name)
    return type
  if let some (id, symbol, type) ← findField? site.classType name then
    useSymbol site index (.field id) symbol span
    return type
  let table := (← get).symbols
  if let some id := table.lookupClass? name then
    let symbol ← table.get id
    useSymbol site index (.class_ id) symbol span
    return ← PoolM.class_ name
  StageM.report { code := .unknownName, span, args := [name] }
  resolveAs index .unresolved
  PoolM.unresolved name

def field (site : BodySite) (index : Nat) (receiver : TypeRef) (name : Name) (span : Span) :
    StageM TypeRef := do
  if ← isLenient receiver then return .any
  match ← findField? receiver name with
  | some (id, symbol, type) =>
    useSymbol site index (.field id) symbol span
    return type
  | none =>
    noMember receiver name span
    return .any

def call (site : BodySite) (index : Nat) (receiver : TypeRef) (method : Name)
    (args : List TypeRef) (span : Span) : StageM TypeRef := do
  if ← isLenient receiver then return .any
  let classType ← classTypeOf receiver
  let table := (← get).symbols
  match ← StageM.onPool (table.selectOverload classType method args) with
  | .ok selection =>
    selection.unbound.forM (StageM.reportFault span)
    let symbol ← table.get selection.id
    useSymbol site index (.method selection.id) symbol span
    return selection.result
  | .error .noSuchMethod =>
    noMember receiver method span
    return .any
  | .error .noneApplicable =>
    let shown ← args.mapM StageM.display
    StageM.report { code := .noApplicableOverload, span, args := [method, ", ".intercalate shown] }
    resolveAs index .unresolved
    return .any
  | .error (.ambiguous count) =>
    StageM.report { code := .ambiguousCall, span, args := [method, toString count] }
    resolveAs index .unresolved
    return .any

def newInstance (site : BodySite) (index : Nat) (type : TypeExpr) (span : Span) :
    StageM TypeRef := do
  let type ← site.resolve type
  let some base ← StageM.inspect (·.pool.baseName? type) | return type
  let table := (← get).symbols
  let some id := table.lookupClass? base | return type
  let symbol ← table.get id
  if symbol.isAbstract then
    StageM.report { code := .abstractInstance, span, args := [base] }
  useSymbol site index (.class_ id) symbol span
  return type

/-- The operand may stand in arithmetic; bitwise operators take integers only. -/
def isNumeric (op : BinaryOp) (type : TypeRef) : Bool :=
  type == .int || (type == .float && !op.isBitwise)

/-- Report operands that are no numbers; whether there were none. -/
def expectNumeric (op : BinaryOp) (operands : List (TypeRef × Span)) : StageM Bool := do
  let wrong := operands.filter fun (type, _) => !isNumeric op type
  wrong.forM fun (type, span) => StageM.mismatch .int type span
  return wrong.isEmpty

def binary (op : BinaryOp) (left right : TypeRef × Span) : StageM TypeRef := do
  if op.isLogical then
    expect .bool left.1 left.2
    expect .bool right.1 right.2
    return .bool
  if op = .eq ∨ op = .notEq then return .bool
  let leftLenient ← isLenient left.1
  let lenient ← if leftLenient then pure true else isLenient right.1
  if lenient then return if op.isComparison then .bool else .any
  if op = .add ∧ (left.1 = .string ∨ right.1 = .string) then return .string
  let numeric ← expectNumeric op [left, right]
  if op.isComparison then return .bool
  if !numeric then return .any
  return if left.1 = .float ∨ right.1 = .float then .float else .int

def unary (op : UnaryOp) (operand : TypeRef) (span : Span) : StageM TypeRef := do
  if ← isLenient operand then return if op = .not then .bool else operand
  match op with
  | .not =>
    expect .bool operand span
    return .bool
  | .neg =>
    if operand = .int ∨ operand = .float then return operand
    StageM.mismatch .int operand span
    return .any
  | .bitNot =>
    if operand = .int then return operand
    StageM.mismatch .int operand span
    return .any

/-- Report the classes of a pattern that do not exist; whether there are any. -/
def reportUnknownClasses (pattern : Nat) : StageM Bool := do
  let table := (← get).symbols
  let classes ← StageM.inspect (·.unit.patterns.deconstructed pattern)
  let unknown := classes.filter fun (name, _) => (table.lookupClass? name).isNone
  StageM.reportAll (unknown.map fun (name, span) => { code := .unknownName, span, args := [name] })
  return !unknown.isEmpty

/-- The pattern that typing gave, or a report of its fault. -/
def typedArm (pool : TypePool) : Except PatternFault Nat → StageM (Option Nat)
  | .ok typed => return some typed
  | .error fault => do
    StageM.report (← fault.toDiagnostic pool)
    return none

/-- Type a pattern of the unit against the subject, reporting a fault. -/
def typeArm (pattern : Nat) (subject : TypeRef) : StageM (Option Nat) := do
  let work ← get
  let (outcome, patterns, pool) ←
    PatternStore.runTyping work.hierarchy pattern subject work.unit.patterns work.pool
  modify fun work => { work with pool, unit := { work.unit with patterns } }
  typedArm pool outcome

/-- Copy the pattern of an arm into the unit's store and type it. A pattern that names an
unknown class is not typed. -/
def prepareArm (arm : MatchArm) (subject : TypeRef) : StageM (Option Nat) := do
  let work ← get
  let (raw, patterns) ← (PatternStore.importFrom work.unit.arena arm.pattern).run work.unit.patterns
  StageM.modifyUnit fun unit => { unit with patterns }
  if ← reportUnknownClasses raw then return none
  typeArm raw subject

/-- Run `action` and forget the locals it added. -/
def withScope {α : Type} (action : BodyM α) : BodyM α := do
  let mark := (← get).length
  let result ← action
  modify (·.truncate mark)
  return result

/-- Resolve the body of an arm with the names its pattern binds: the common type of the bodies so
far. -/
def armType (resolve : ExprRef → BodyM TypeRef) (arm : MatchArm) (bound : Locals)
    (result : Option TypeRef) :
    BodyM TypeRef := do
  let type ← withScope do
    modify (bound.reverse ++ ·)
    resolve arm.body
  match result with
  | none => return type
  | some previous => join previous type

/-- Resolve the arms of a match in order: the typed arms, and the common type of the bodies. -/
def arms (resolve : ExprRef → BodyM TypeRef) (subject : TypeRef) :
    List MatchArm → Option TypeRef → BodyM (List GroupArm × Option TypeRef)
  | [], result => return ([], result)
  | arm :: rest, result => do
    let pattern ← prepareArm arm subject
    let bound ← match pattern with
      | some typed => StageM.inspect (·.unit.patterns.bindings typed)
      | none => pure []
    let joined ← armType resolve arm bound result
    let (later, final) ← arms resolve subject rest (some joined)
    return ({ pattern, span := arm.span } :: later, final)

/-- The type of the last item; items may bind locals for those after them. -/
def items (resolve : ExprRef → BodyM TypeRef) : List ExprRef → TypeRef → BodyM TypeRef
  | [], type => return type
  | item :: rest, _ => do items resolve rest (← resolve item)

/-- The type of one node, given how to resolve its children. -/
def node (site : BodySite) (resolve : ExprRef → BodyM TypeRef) (index : Nat) (expr : Expr) :
    BodyM TypeRef := do
  match expr.kind with
  | .literal value => return value.type
  | .ident name => ident site (← get) index name expr.span
  | .this => return site.classType
  | .field receiver name =>
    let receiver ← resolve receiver
    field site index receiver name expr.span
  | .call receiver method args =>
    let receiver ← match receiver with
      | some receiver => resolve receiver
      | none => pure site.classType
    let args ← args.mapM resolve
    call site index receiver method args expr.span
  | .new type args =>
    args.forM fun arg => discard (resolve arg)
    newInstance site index type expr.span
  | .binary op left right =>
    let leftType ← resolve left
    let rightType ← resolve right
    let rightSpan ← spanOf right
    let leftSpan ← spanOf left
    binary op (leftType, leftSpan) (rightType, rightSpan)
  | .unary op operand =>
    let type ← resolve operand
    unary op type (← spanOf operand)
  | .ifElse cond thenBranch elseBranch =>
    let condType ← resolve cond
    expect .bool condType (← spanOf cond)
    let thenType ← resolve thenBranch
    if elseBranch = .missing then return .void
    let elseType ← resolve elseBranch
    join thenType elseType
  | .matchOn scrutinee branches =>
    let subject ← resolve scrutinee
    let (typed, result) ← arms resolve subject branches none
    let group : MatchGroup := { subject, arms := typed, span := expr.span }
    StageM.modifyUnit fun unit => { unit with matchGroups := unit.matchGroups.insert index group }
    return result.getD .void
  | .letIn name type init =>
    let initType ← resolve init
    let declared ← match type with
      | .infer => pure initType
      | type => do
        let declared ← site.resolve type
        expect declared initType (← spanOf init)
        pure declared
    modify ((name, declared) :: ·)
    return .void
  | .block list => withScope (items resolve list .void)
  | .error => return .any

/-- `resolve` by recursion on the nesting depth. -/
def resolveWithin (site : BodySite) : Nat → ExprRef → BodyM TypeRef
  | _, .missing => return .void
  | 0, .node _ => throw .cyclic
  | depth + 1, .node index => do
    let expr ← StageM.inspect (·.unit.arena.expr (.node index))
    let type ← node site (resolveWithin site depth) index expr
    StageM.modifyUnit fun unit => { unit with exprTypes := unit.exprTypes.insert index type }
    return type

/-- The type of an expression. A slot without expression yields nothing. -/
def resolve (site : BodySite) (ref : ExprRef) : BodyM TypeRef := do
  let size ← StageM.inspect fun work => pure work.unit.arena.size
  resolveWithin site (size + 1) ref

end BodyM

namespace StageM

/-- Look up an annotation that is not built in. It must name an annotation class. -/
def resolveAnnotationUse (entry : AnnotationUse) : StageM AnnotationUse := do
  if entry.kind ≠ .unresolved then return entry
  match (← get).symbols.classModifiers? entry.name with
  | some modifiers =>
    if modifiers.marksAnnotations then return { entry with kind := .user entry.name }
  | none => pure ()
  report { code := .unknownAnnotationClass, span := entry.span, args := [entry.name] }
  return entry

/-- Resolve the annotations of a member, then those of its parameters. -/
def resolveAnnotations (id : Nat) : StageM PUnit := do
  let member ← inspect (·.unit.members.get id)
  let annotations ← member.annotations.mapM resolveAnnotationUse
  let detail ← match member.detail with
    | .method typeParams params body => do
      let params ← params.mapM fun param => do
        return { param with annotations := ← param.annotations.mapM resolveAnnotationUse }
      pure (.method typeParams params body)
    | detail => pure detail
  setMember id { member with annotations, detail }

/-- Resolve the annotations and the body of one member. -/
def resolveBody (id : Nat) : StageM PUnit := do
  resolveAnnotations id
  let unit := (← get).unit
  let member ← unit.members.get id
  let some body := member.body | return
  let classMember ← unit.classOf id
  let scope ← TypeScope.forMember unit.members id
  let site : BodySite :=
    { scope, member := id, className := classMember.name, classType := classMember.type
      suppress := member.suppressesWarnings || classMember.suppressesWarnings }
  let locals : Locals := (member.params.map fun param => (param.name, param.type)).reverse
  let _ ← (BodyM.resolve site body).run locals

end StageM
end ClassLang
