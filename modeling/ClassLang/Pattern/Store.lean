import ClassLang.Source.Expr

/-! Patterns with their types. Typing a pattern makes a typed copy and leaves the pattern as it
was, so it can be typed again against another subject. -/

namespace ClassLang

/-- How far a pattern has come. -/
inductive PatternState where
  | unbound
  | typed
  | compiled
deriving Repr, DecidableEq, Inhabited

def PatternState.render : PatternState → String
  | .unbound => "Unbound"
  | .typed => "Typed"
  | .compiled => "Compiled"

/-- A pattern in the store; subpatterns are positions in the same store. -/
structure PatternNode where
  kind : PatternKind
  span : Span
  /-- Type of the values the pattern matches. -/
  type : TypeRef := .absent
  /-- Type of the value being matched. -/
  subject : TypeRef := .absent
  /-- The class of the subject, when it is a class type. -/
  ownClass : Option Name := none
  state : PatternState := .unbound
deriving Repr, DecidableEq, Inhabited

structure PatternStore where
  nodes : Array PatternNode := #[]
deriving Repr, DecidableEq, Inhabited

namespace PatternStore

def size (store : PatternStore) : Nat := store.nodes.size

def push (store : PatternStore) (node : PatternNode) : Nat × PatternStore :=
  (store.size, { nodes := store.nodes.push node })

/-- Enter a pattern without a type. A wildcard needs none: it matches every subject as `any`. -/
def alloc (store : PatternStore) (kind : PatternKind) (span : Span) : Nat × PatternStore :=
  match kind with
  | .wildcard => store.push { kind, span, type := .any, state := .typed }
  | _ => store.push { kind, span }

def node (store : PatternStore) (id : Nat) : Except Abort PatternNode :=
  match store.nodes[id]? with
  | some node => .ok node
  | none => .error .outOfRange

def kind (store : PatternStore) (id : Nat) : Except Abort PatternKind :=
  (store.node id).map (·.kind)

def markCompiled (store : PatternStore) (id : Nat) : PatternStore :=
  match store.nodes[id]? with
  | some node => { nodes := store.nodes.setIfInBounds id { node with state := .compiled } }
  | none => store

/-- Type of the values a pattern matches; for a wildcard it is `any`. -/
def typeOf (store : PatternStore) (id : Nat) : Except Abort TypeRef := do
  let node ← store.node id
  match node.kind with
  | .wildcard => return .any
  | _ => return node.type

def isWildcard (store : PatternStore) (id : Nat) : Except Abort Bool :=
  (store.kind id).map (· == .wildcard)

/-- `isIrrefutable` by recursion on the nesting depth. -/
def isIrrefutableWithin (store : PatternStore) : Nat → Nat → Except Abort Bool
  | 0, _ => throw .cyclic
  | depth + 1, id => do
    let node ← store.node id
    match node.kind with
    | .wildcard => return true
    | .constant _ => return false
    | .binding _ none => return true
    | .binding _ (some inner) => isIrrefutableWithin store depth inner
    | .deconstruct name fields =>
      if node.ownClass = some name then fields.allM (isIrrefutableWithin store depth)
      else return false

/-- The pattern matches every value of its subject. -/
def isIrrefutable (store : PatternStore) (id : Nat) : Except Abort Bool :=
  store.isIrrefutableWithin (store.size + 1) id

/-- One test of the subject itself decides the pattern. -/
def isSwitchable (store : PatternStore) (id : Nat) : Except Abort Bool := do
  match ← store.kind id with
  | .wildcard | .constant _ | .binding _ none => return true
  | .binding _ (some inner) =>
    match ← store.kind inner with
    | .wildcard | .constant _ => return true
    | _ => return false
  | .deconstruct _ fields => fields.allM store.isIrrefutable

/-- `bindings` by recursion on the nesting depth. -/
def bindingsWithin (store : PatternStore) : Nat → Nat → Except Abort (List (Name × TypeRef))
  | 0, _ => throw .cyclic
  | depth + 1, id => do
    let node ← store.node id
    match node.kind with
    | .wildcard | .constant _ => return []
    | .binding name inner =>
      let type := if node.subject.isAbsent then .any else node.subject
      match inner with
      | none => return [(name, type)]
      | some inner => return (name, type) :: (← bindingsWithin store depth inner)
    | .deconstruct _ fields =>
      return (← fields.mapM (bindingsWithin store depth)).flatten

/-- The names a pattern binds, with their types, in the order in which they are written. -/
def bindings (store : PatternStore) (id : Nat) : Except Abort (List (Name × TypeRef)) :=
  store.bindingsWithin (store.size + 1) id

/-- `deconstructed` by recursion on the nesting depth. -/
def deconstructedWithin (store : PatternStore) : Nat → Nat → Except Abort (List (Name × Span))
  | 0, _ => throw .cyclic
  | depth + 1, id => do
    let node ← store.node id
    match node.kind with
    | .wildcard | .constant _ | .binding _ none => return []
    | .binding _ (some inner) => deconstructedWithin store depth inner
    | .deconstruct name fields =>
      let below ← fields.reverse.mapM (deconstructedWithin store depth)
      return (name, node.span) :: below.flatten

/-- The classes a pattern takes apart: a class before those in its fields, the last field
first. -/
def deconstructed (store : PatternStore) (id : Nat) : Except Abort (List (Name × Span)) :=
  store.deconstructedWithin (store.size + 1) id

end PatternStore

/-- Computations that enter patterns. -/
abbrev StoreM := StateT PatternStore (Except Abort)

namespace PatternStore

/-- `importFrom` by recursion on the nesting depth. -/
def importWithin (arena : Arena) : Nat → Nat → StoreM Nat
  | 0, _ => throw .cyclic
  | depth + 1, index => do
    let pattern ← arena.pattern index
    match pattern.kind with
    | .binding name (some inner) =>
      let inner ← importWithin arena depth inner
      modifyGet (·.alloc (.binding name (some inner)) pattern.span)
    | .deconstruct name fields =>
      let fields ← fields.mapM (importWithin arena depth)
      modifyGet (·.alloc (.deconstruct name fields) pattern.span)
    | kind => modifyGet (·.alloc kind pattern.span)

/-- Copy a written pattern, subpatterns first. -/
def importFrom (arena : Arena) (index : Nat) : StoreM Nat :=
  importWithin arena (arena.patterns.size + 1) index

end PatternStore
end ClassLang
