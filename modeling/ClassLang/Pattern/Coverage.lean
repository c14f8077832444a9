import ClassLang.Pattern.Typing

/-! Which values a list of patterns leaves out, and which patterns no value reaches.

A row of patterns is useful below a matrix of rows when some values match it and no row of the
matrix. Arms are exhaustive when a wildcard is not useful below them; an arm is reachable when it
is useful below the arms before it. `bool` has two constructors, a sealed class its permitted
classes and, unless it is abstract, itself, any other class only itself; every other type has
more constructors than can be listed. -/

namespace ClassLang

/-- What a value or pattern is built with at its root. -/
inductive Head where
  | bool (value : Bool)
  | literal (value : Literal)
  | class_ (name : Name)
deriving Repr, DecidableEq, Inhabited

/-- A pattern with its names forgotten. -/
inductive Shape where
  | wild
  | node (head : Head) (args : List Shape)
deriving Repr, Inhabited

namespace Shape

mutual

/-- Number of constructors in a shape. -/
def constructors : Shape → Nat
  | wild => 0
  | node _ args => rowConstructors args + 1

/-- Number of constructors in a row of shapes. -/
def rowConstructors : List Shape → Nat
  | [] => 0
  | shape :: row => constructors shape + rowConstructors row

end

mutual

def render : Shape → String
  | wild => "_"
  | node (.bool value) _ => if value then "true" else "false"
  | node (.literal value) _ => value.render
  | node (.class_ name) [] => name
  | node (.class_ name) (first :: rest) => name ++ "(" ++ render first ++ renderRest rest ++ ")"

def renderRest : List Shape → String
  | [] => ""
  | next :: rest => ", " ++ render next ++ renderRest rest

end

/-- The constructor of a literal. -/
def headOfLiteral : Literal → Head
  | .bool value => .bool value
  | value => .literal value

/-- `ofStore` by recursion on the nesting depth. -/
def ofStoreWithin (store : PatternStore) : Nat → Nat → Except Abort Shape
  | 0, _ => throw .cyclic
  | depth + 1, id => do
    match ← store.kind id with
    | .wildcard | .binding _ none => return wild
    | .binding _ (some inner) => ofStoreWithin store depth inner
    | .constant value => return node (headOfLiteral value) []
    | .deconstruct name fields =>
      return node (.class_ name) (← fields.mapM (ofStoreWithin store depth))

/-- The shape of a pattern. -/
def ofStore (store : PatternStore) (id : Nat) : Except Abort Shape :=
  ofStoreWithin store (store.size + 1) id

end Shape

/-- One pattern for each column. -/
abbrev Row := List Shape

namespace Row

def constructors (row : Row) : Nat := Shape.rowConstructors row

/-- The constructor at the head of the first column. -/
def leading? : Row → Option Head
  | .node head _ :: _ => some head
  | _ => none

/-- `args` cut or filled with wildcards to the length `arity`. -/
def resize (arity : Nat) (args : List Shape) : List Shape :=
  args.take arity ++ List.replicate (arity - args.length) .wild

/-- What is left of a row once the first value is built with `head` on `arity` arguments; a row
headed by another constructor is dropped. -/
def specialize? (head : Head) (arity : Nat) : Row → Option Row
  | [] => none
  | .wild :: rest => some (List.replicate arity .wild ++ rest)
  | .node other args :: rest => if other = head then some (resize arity args ++ rest) else none

/-- What is left of a row that takes any first value. -/
def default? : Row → Option Row
  | .wild :: rest => some rest
  | _ => none

end Row

/-- All constructors of a type, when they can be listed. -/
inductive Domain where
  | finite (heads : List Head)
  | infinite
deriving Repr, DecidableEq, Inhabited

/-- Answers of the usefulness test: a row of values that is left out, if there is one. -/
abbrev UsefulTest := List Row → Row → List TypeRef → PoolM (Option Row)

namespace ClassHierarchy

/-- `domain` with bounds followed at most `depth` times. -/
def domainWithin (hierarchy : ClassHierarchy) (pool : TypePool) :
    Nat → TypeRef → Except Abort Domain
  | 0, _ => throw .cyclic
  | depth + 1, type => do
    if ← pool.isLenient type then return .infinite
    match ← pool.node type with
    | .bool => return .finite [.bool true, .bool false]
    | .class_ name | .applied name _ =>
      match hierarchy.variants name with
      | some variants =>
        let own := if hierarchy.isAbstract name then [] else [Head.class_ name]
        return .finite (variants.map Head.class_ ++ own)
      | none => return .finite [.class_ name]
    | .var param _ => domainWithin hierarchy pool depth (← pool.upperBound param)
    | .wildcard .covariant bound => domainWithin hierarchy pool depth bound
    | _ => return .infinite

/-- The constructors of the values of a type. -/
def domain (hierarchy : ClassHierarchy) (pool : TypePool) (type : TypeRef) :
    Except Abort Domain :=
  hierarchy.domainWithin pool (pool.size + 1) type

/-- Types of the arguments of a constructor of `type`. -/
def argTypes (hierarchy : ClassHierarchy) (head : Head) (type : TypeRef) :
    PoolM (List TypeRef) := do
  match head with
  | .class_ name => hierarchy.componentsOf (← hierarchy.narrow name type)
  | .bool _ | .literal _ => return []

/-- Usefulness of a row whose first value is built with `head` on `args`. -/
def usefulHead (hierarchy : ClassHierarchy) (deeper : UsefulTest) (rows : List Row) (head : Head)
    (args : List Shape) (rest : Row) (type : TypeRef) (restTypes : List TypeRef) :
    PoolM (Option Row) := do
  let arity := args.length
  let specialized := rows.filterMap (Row.specialize? head arity)
  let argTypes ← hierarchy.argTypes head type
  let types := argTypes.take arity ++ List.replicate (arity - argTypes.length) .any ++ restTypes
  match ← deeper specialized (args ++ rest) types with
  | none => return none
  | some witness => return some (.node head (witness.take arity) :: witness.drop arity)

/-- The constructor to show for values that only wildcards of the first column take: the first
one the rows do not name, if they name any. -/
def missingHead (hierarchy : ClassHierarchy) (domain : Domain) (used : List Head)
    (type : TypeRef) : PoolM Shape := do
  match domain with
  | .infinite => return .wild
  | .finite heads =>
    if used.isEmpty then return .wild
    match heads.find? (!used.contains ·) with
    | none => return .wild
    | some head => return .node head (List.replicate (← hierarchy.argTypes head type).length .wild)

/-- Put a shape that no row leads with before values that the rest of the rows leave out. -/
def withMissingHead (hierarchy : ClassHierarchy) (domain : Domain) (used : List Head)
    (type : TypeRef) (rest : PoolM (Option Row)) : PoolM (Option Row) := do
  match ← rest with
  | none => return none
  | some witness => return some ((← hierarchy.missingHead domain used type) :: witness)

/-- Usefulness of a row, by recursion on its length, given the test for rows with fewer
constructors. -/
def usefulStep (hierarchy : ClassHierarchy) (deeper : UsefulTest) : UsefulTest
  | rows, [], _ => return if rows.isEmpty then some [] else none
  | rows, .node head args :: rest, types =>
    hierarchy.usefulHead deeper rows head args rest (types.headD .any) types.tail
  | rows, .wild :: rest, types => do
    let type := types.headD .any
    let used := rows.filterMap Row.leading?
    let domain ← PoolM.inspect (hierarchy.domain · type)
    let byDefault := hierarchy.withMissingHead domain used type
      (usefulStep hierarchy deeper (rows.filterMap Row.default?) rest types.tail)
    match domain with
    | .infinite => byDefault
    | .finite heads =>
      if heads.all (used.contains ·) then
        heads.findSomeM? fun head => do
          let arity := (← hierarchy.argTypes head type).length
          hierarchy.usefulHead deeper rows head (List.replicate arity .wild) rest type types.tail
      else byDefault

/-- The usefulness test for rows with at most `constructors` constructors between them. -/
def usefulWithin (hierarchy : ClassHierarchy) : Nat → UsefulTest
  | 0 => hierarchy.usefulStep fun _ _ _ => throw .cyclic
  | constructors + 1 => hierarchy.usefulStep (usefulWithin hierarchy constructors)

/-- Values that match `row` and none of `rows`, if there are any. Every step either shortens the
row or takes a constructor out of the rows, so their number bounds the recursion. -/
def useful (hierarchy : ClassHierarchy) : UsefulTest := fun rows row types =>
  hierarchy.usefulWithin ((rows.map Row.constructors).sum + row.constructors) rows row types

/-- What single-column rows leave out: one shape for each constructor not fully covered, or a
single shape when the constructors cannot be listed. -/
def missingValues (hierarchy : ClassHierarchy) (rows : List Row) (subject : TypeRef) :
    PoolM (List Shape) := do
  match ← hierarchy.useful rows [.wild] [subject] with
  | none => return []
  | some first =>
    match ← PoolM.inspect (hierarchy.domain · subject) with
    | .infinite => return first.take 1
    | .finite heads =>
      let missing ← heads.filterMapM fun head => do
        let arity := (← hierarchy.argTypes head subject).length
        let witness ← hierarchy.useful rows [.node head (List.replicate arity .wild)] [subject]
        return witness.bind List.head?
      return if missing.isEmpty then first.take 1 else missing

/-- The rows of some arms below the rows `before` them, and the positions of those arms that are
not useful there. -/
def armRows (hierarchy : ClassHierarchy) (store : PatternStore) (subject : TypeRef) :
    List Row → List (Nat × Nat) → PoolM (List Row × List Nat)
  | before, [] => return (before, [])
  | before, (index, id) :: rest => do
    let row : Row := [← Shape.ofStore store id]
    let witness ← hierarchy.useful before row [subject]
    let (rows, unreachable) ← armRows hierarchy store subject (before ++ [row]) rest
    return (rows, if witness.isNone then index :: unreachable else unreachable)

end ClassHierarchy

/-- What is known about the arms of a match. -/
structure Coverage where
  /-- Values that no arm takes; there are none exactly when the arms are exhaustive. -/
  witnesses : List String := []
  /-- Positions of the arms that no value reaches. -/
  unreachable : List Nat := []
deriving Repr, DecidableEq, Inhabited

def Coverage.isExhaustive (coverage : Coverage) : Bool := coverage.witnesses.isEmpty

/-- Analyse arms in order. An arm without a pattern failed to type: it takes no value and is not
reported as unreachable. -/
def analyzeArms (hierarchy : ClassHierarchy) (store : PatternStore) (arms : List (Option Nat))
    (subject : TypeRef) : PoolM Coverage := do
  let live := arms.zipIdx.filterMap fun (arm, index) => arm.map (index, ·)
  let (rows, unreachable) ← hierarchy.armRows store subject [] live
  let missing ← hierarchy.missingValues rows subject
  return { witnesses := missing.map (·.render), unreachable }

end ClassLang
