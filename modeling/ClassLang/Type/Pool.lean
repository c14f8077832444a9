import ClassLang.Abort
import ClassLang.Variance

/-! The pool that holds every type of a session once. A type is never changed after it entered
the pool, so a handle keeps its meaning while the pool grows. -/

namespace ClassLang

/-- One entry of the pool; its parts are handles of other entries. -/
inductive TypeNode where
  | any
  | void
  | int
  | float
  | bool
  | char
  | string
  /-- A class without parameters, or a generic class used without arguments. -/
  | class_ (name : Name)
  | applied (base : Name) (args : List TypeRef)
  /-- A type variable, with the variance of its parameter. -/
  | var (param : ParamRef) (variance : Variance)
  /-- `?` is invariant with bound `any`; `? extends B` is covariant, `? super B` contravariant. -/
  | wildcard (variance : Variance) (bound : TypeRef)
  /-- A name that was not found. It relates to every type, so that it is reported once. -/
  | unresolved (name : Name)
deriving Repr, DecidableEq, Inhabited

/-- A declared type parameter. Without bounds it is bounded by `any`. -/
structure TypeParam where
  name : Name
  /-- The class or method that declares it. -/
  owner : Name
  variance : Variance
  bounds : List TypeRef := []
deriving Repr, DecidableEq, Inhabited

/-- The entries, and the map from entries to handles that is kept beside them. A pool starts with
the primitives; see `TypePool.empty_eq_pushAll`. -/
structure TypePool where
  types : Array TypeNode := #[.any, .void, .int, .float, .bool, .char, .string]
  /-- The latest insertion of an entry comes first, and is the one that a lookup finds. -/
  dedup : List (TypeNode × TypeRef) :=
    [(.string, .string), (.char, .char), (.bool, .bool), (.float, .float), (.int, .int),
      (.void, .void), (.any, .any)]
  params : Array TypeParam := #[]
deriving Repr, DecidableEq

instance : Inhabited TypePool := ⟨{}⟩

namespace TypePool

def size (pool : TypePool) : Nat := pool.types.size

/-- Enter `node` at the end, and its handle in the map. -/
def push (pool : TypePool) (node : TypeNode) : TypeRef × TypePool :=
  let type : TypeRef := ⟨pool.size⟩
  (type, { pool with types := pool.types.push node, dedup := (node, type) :: pool.dedup })

/-- Enter `nodes` one after the other. -/
def pushAll (pool : TypePool) : List TypeNode → TypePool
  | [] => pool
  | node :: rest => (pool.push node).2.pushAll rest

/-- The primitives are pushed in the order of their handles. -/
theorem empty_eq_pushAll :
    ({} : TypePool) =
      pushAll { types := #[], dedup := [] } [.any, .void, .int, .float, .bool, .char, .string] :=
  rfl

/-- The handle that the map has for an entry. -/
def find? (pool : TypePool) (node : TypeNode) : Option TypeRef :=
  pool.dedup.lookup node

/-- The handle of `node`, which is pushed when the map has none. -/
def intern (pool : TypePool) (node : TypeNode) : TypeRef × TypePool :=
  match pool.find? node with
  | some type => (type, pool)
  | none => pool.push node

def node (pool : TypePool) (type : TypeRef) : Except Abort TypeNode :=
  match pool.types[type.raw]? with
  | some node => .ok node
  | none => .error (.typeNotPooled type)

/-- Declare a parameter; its bounds are set later. -/
def declareParam (pool : TypePool) (name owner : Name) (variance : Variance) :
    ParamRef × TypePool :=
  (⟨pool.params.size⟩, { pool with params := pool.params.push { name, owner, variance } })

/-- Set the bounds of a declared parameter; others are left alone. -/
def setBounds (pool : TypePool) (param : ParamRef) (bounds : List TypeRef) : TypePool :=
  match pool.params[param.raw]? with
  | some declared =>
    { pool with params := pool.params.setIfInBounds param.raw { declared with bounds } }
  | none => pool

def param (pool : TypePool) (param : ParamRef) : Except Abort TypeParam :=
  match pool.params[param.raw]? with
  | some declared => .ok declared
  | none => .error (.paramNotPooled param)

/-- The first bound of a parameter, or `any`. -/
def upperBound (pool : TypePool) (param : ParamRef) : Except Abort TypeRef :=
  (pool.param param).map fun declared => declared.bounds.headD .any

/-- The class of a class type or applied type. -/
def baseName? (pool : TypePool) (type : TypeRef) : Except Abort (Option Name) := do
  match ← pool.node type with
  | .class_ name => return some name
  | .applied base _ => return some base
  | _ => return none

/-- The arguments of an applied type; other types have none. -/
def args (pool : TypePool) (type : TypeRef) : Except Abort (List TypeRef) := do
  match ← pool.node type with
  | .applied _ args => return args
  | _ => return []

def isUnresolved (pool : TypePool) (type : TypeRef) : Except Abort Bool := do
  match ← pool.node type with
  | .unresolved _ => return true
  | _ => return false

/-- `any` and names that were not found relate to every type. -/
def isLenient (pool : TypePool) (type : TypeRef) : Except Abort Bool :=
  if type = .any then return true else pool.isUnresolved type

/-- Search for an unresolved name by recursion on the nesting depth. -/
def containsUnresolvedWithin (pool : TypePool) : Nat → TypeRef → Except Abort Bool
  | 0, _ => throw .cyclic
  | depth + 1, type => do
    match ← pool.node type with
    | .unresolved _ => return true
    | .applied _ args => args.anyM (containsUnresolvedWithin pool depth)
    | .wildcard _ bound => containsUnresolvedWithin pool depth bound
    | _ => return false

/-- A name that was not found occurs in the type. -/
def containsUnresolved (pool : TypePool) (type : TypeRef) : Except Abort Bool :=
  pool.containsUnresolvedWithin (pool.size + 1) type

/-- The type a value has when its declared type is used as a parameter or bound: a wildcard
gives its bound. -/
def asParameter (pool : TypePool) (type : TypeRef) : Except Abort TypeRef := do
  match ← pool.node type with
  | .wildcard _ bound => return bound
  | _ => return type

end TypePool

/-- Computations that may enter new types. -/
abbrev PoolM := StateT TypePool (Except Abort)

namespace PoolM

/-- Ask the pool without changing it. -/
def inspect {α : Type} (query : TypePool → Except Abort α) : PoolM α := do
  query (← get)

def intern (node : TypeNode) : PoolM TypeRef :=
  modifyGet (·.intern node)

def class_ (name : Name) : PoolM TypeRef := intern (.class_ name)

/-- `base` with arguments; without any it is the class itself. -/
def applied (base : Name) (args : List TypeRef) : PoolM TypeRef :=
  if args.isEmpty then class_ base else intern (.applied base args)

/-- The type variable of a parameter. -/
def var (param : ParamRef) : PoolM TypeRef := do
  let declared ← inspect (·.param param)
  intern (.var param declared.variance)

def wildcard (variance : Variance) (bound : TypeRef) : PoolM TypeRef :=
  intern (.wildcard variance bound)

/-- The wildcard `?`. -/
def anyWildcard : PoolM TypeRef := wildcard .invariant .any

def unresolved (name : Name) : PoolM TypeRef := intern (.unresolved name)

def declareParam (name owner : Name) (variance : Variance) : PoolM ParamRef :=
  modifyGet (·.declareParam name owner variance)

def setBounds (param : ParamRef) (bounds : List TypeRef) : PoolM PUnit :=
  modify (·.setBounds param bounds)

end PoolM
end ClassLang
