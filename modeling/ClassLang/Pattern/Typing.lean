import ClassLang.Diagnostic.Basic
import ClassLang.Pattern.Store
import ClassLang.Type.Display
import ClassLang.Type.Relation

/-! Giving a pattern the type of its subject. -/

namespace ClassLang

inductive PatternFault where
  | impossible (pattern subject : TypeRef) (span : Span)
  | arity (class_ : Name) (expected found : Nat) (span : Span)
deriving Repr, DecidableEq, Inhabited

namespace PatternFault

def span : PatternFault → Span
  | impossible _ _ span => span
  | arity _ _ _ span => span

def toDiagnostic (fault : PatternFault) (pool : TypePool) : Except Abort Diagnostic := do
  match fault with
  | impossible pattern subject span =>
    let pattern ← pool.display pattern
    return { code := .impossiblePattern, span, args := [pattern, ← pool.display subject] }
  | arity name expected found span =>
    return { code := .patternArity, span, args := [name, toString expected, toString found] }

end PatternFault

def Literal.type : Literal → TypeRef
  | .int _ => .int
  | .float _ => .float
  | .bool _ => .bool
  | .char _ => .char
  | .str _ => .string

/-- `couldMatch` with bounds followed at most `depth` times. -/
def couldMatchWithin (hierarchy : ClassHierarchy) : Nat → TypeTest
  | 0, _, _ => throw .cyclic
  | depth + 1, subject, pattern => do
    if ← PoolM.inspect (·.isLenient subject) then return true
    if ← PoolM.inspect (·.isLenient pattern) then return true
    match ← PoolM.inspect (·.node subject) with
    | .var param _ =>
      couldMatchWithin hierarchy depth (← PoolM.inspect (·.upperBound param)) pattern
    | .wildcard .covariant bound => couldMatchWithin hierarchy depth bound pattern
    | .wildcard _ _ => return true
    | _ =>
      if ← hierarchy.isSuperclass subject pattern then return true
      hierarchy.isSuperclass pattern subject

/-- Some value of type `subject` could also have type `pattern`. -/
def couldMatch (hierarchy : ClassHierarchy) (subject pattern : TypeRef) : PoolM Bool := do
  couldMatchWithin hierarchy ((← get).size + 1) subject pattern

/-- Typing may fail; nodes entered before the failure stay in the store. -/
abbrev TypingM := ExceptT PatternFault (StateT PatternStore PoolM)

namespace PatternStore

def onPool {α : Type} (action : PoolM α) : TypingM α := ExceptT.lift (StateT.lift action)

/-- Enter a node typed against `subject`. -/
def pushTyped (kind : PatternKind) (span : Span) (type subject : TypeRef) : TypingM Nat := do
  let ownClass ← onPool (PoolM.inspect (·.baseName? subject))
  modifyGet (·.push { kind, span, type, subject, ownClass, state := .typed })

/-- Type fields against components, in order. -/
def typeFields (typeField : Nat → TypeRef → TypingM Nat) :
    List Nat → List TypeRef → TypingM (List Nat)
  | field :: fields, component :: components => do
    let typed ← typeField field component
    return typed :: (← typeFields typeField fields components)
  | _, _ => return []

/-- `typeAgainst` by recursion on the nesting depth. -/
def typeWithin (hierarchy : ClassHierarchy) : Nat → Nat → TypeRef → TypingM Nat
  | 0, _, _ => onPool (throw .cyclic)
  | depth + 1, id, subject => do
    let store ← get
    let node ← onPool (liftM (store.node id))
    match node.kind with
    | .wildcard => return id
    | .constant value =>
      if ← onPool (couldMatch hierarchy subject value.type) then
        pushTyped (.constant value) node.span value.type subject
      else throw (.impossible value.type subject node.span)
    | .binding name none => pushTyped (.binding name none) node.span subject subject
    | .binding name (some inner) =>
      let inner ← typeWithin hierarchy depth inner subject
      pushTyped (.binding name (some inner)) node.span subject subject
    | .deconstruct name fields =>
      let classType ← onPool (PoolM.class_ name)
      unless ← onPool (couldMatch hierarchy subject classType) do
        throw (.impossible classType subject node.span)
      let type ← onPool (hierarchy.narrow name subject)
      let components ← onPool (hierarchy.componentsOf type)
      if components.length ≠ fields.length then
        throw (.arity name components.length fields.length node.span)
      let fields ← typeFields (typeWithin hierarchy depth) fields components
      pushTyped (.deconstruct name fields) node.span type subject

/-- Type the pattern `id` against `subject`: the position of a typed copy, or the first fault.
A wildcard is its own typed copy. -/
def typeAgainst (hierarchy : ClassHierarchy) (id : Nat) (subject : TypeRef) : TypingM Nat := do
  let store ← get
  typeWithin hierarchy (store.size + 1) id subject

/-- `typeAgainst` as a function on store and pool. -/
def runTyping (hierarchy : ClassHierarchy) (id : Nat) (subject : TypeRef)
    (store : PatternStore) (pool : TypePool) :
    Except Abort (Except PatternFault Nat × PatternStore × TypePool) := do
  let ((outcome, store), pool) ← ((typeAgainst hierarchy id subject).run.run store).run pool
  return (outcome, store, pool)

end PatternStore
end ClassLang
