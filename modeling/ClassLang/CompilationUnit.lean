import ClassLang.Diagnostic.Buffer
import ClassLang.IdMap
import ClassLang.Pattern.Group
import ClassLang.SymbolTable
import ClassLang.Type.Fault

/-! One unit: its members and all that the stages record about them. -/

namespace ClassLang

/-- What a name, field access, call or instance creation refers to. Symbols are positions in the
symbol table. -/
inductive Resolution where
  /-- A parameter, a `let` or a name bound by a pattern. -/
  | local_ (name : Name)
  | field (symbol : Nat)
  | method (symbol : Nat)
  | class_ (symbol : Nat)
  | unresolved
deriving Repr, DecidableEq, Inhabited

/-- The symbol referred to; locals and failures have none. -/
def Resolution.symbol? : Resolution → Option Nat
  | field symbol | method symbol | class_ symbol => some symbol
  | local_ _ | unresolved => none

/-- A written type with arguments, kept until bounds can be checked. -/
structure BoundUse where
  member : Nat
  span : Span
  type : TypeRef
deriving Repr, DecidableEq, Inhabited

structure CompilationUnit where
  id : Nat
  name : String
  members : MemberArena := {}
  /-- The classes, in the order of their declaration. -/
  classes : List Nat := []
  /-- The symbol of every member. -/
  symbols : Array Nat := #[]
  arena : Arena := {}
  patterns : PatternStore := {}
  exprTypes : IdMap TypeRef := {}
  resolutions : IdMap Resolution := {}
  /-- The typed arms of every match. -/
  matchGroups : IdMap MatchGroup := {}
  /-- The code of every match. -/
  lowered : IdMap LoweredMatch := {}
  boundUses : List BoundUse := []
  diagnostics : DiagnosticBuffer := {}
  /-- The last stage that every member completed. -/
  progress : Progress := .unresolved
deriving Repr, DecidableEq, Inhabited

namespace CompilationUnit

def symbol (unit : CompilationUnit) (member : Nat) : Except Abort Nat :=
  match unit.symbols[member]? with
  | some symbol => .ok symbol
  | none => .error .outOfRange

/-- The type recorded for an expression, or `any`. -/
def typeOf (unit : CompilationUnit) : ExprRef → TypeRef
  | .node index => (unit.exprTypes.get? index).getD .any
  | .missing => .any

/-- The first class of a name, else the first member of that name. -/
def find? (unit : CompilationUnit) (name : Name) : Option Nat :=
  let members := unit.members.toList
  match members.findIdx? fun member => member.isClass && member.name == name with
  | some id => some id
  | none => members.findIdx? (·.name == name)

/-- The member of a class with a name. -/
def memberOf? (unit : CompilationUnit) (class_ : Nat) (name : Name) :
    Except Abort (Option Nat) := do
  let owner ← unit.members.get class_
  owner.members.findM? fun id => return (← unit.members.get id).name == name

/-- Every member has exactly this progress. -/
def allMembersAt (unit : CompilationUnit) (progress : Progress) : Bool :=
  unit.members.toList.all (·.progress == progress)

/-- The outermost class around a member. -/
def classOf (unit : CompilationUnit) (member : Nat) : Except Abort Member := do
  unit.members.get (← unit.members.topLevel member)

end CompilationUnit

/-- What the units of a program share. -/
structure Program where
  pool : TypePool := {}
  symbols : SymbolTable := {}
deriving Repr, DecidableEq, Inhabited

/-- What a stage works on: the shared parts, one unit, and the reports so far. -/
structure Workspace extends Program where
  unit : CompilationUnit
  reports : List Diagnostic := []
deriving Repr, DecidableEq, Inhabited

def Workspace.hierarchy (work : Workspace) : ClassHierarchy := work.symbols.hierarchy

abbrev StageM := StateT Workspace (Except Abort)

namespace StageM

/-- Work on the pool. -/
def onPool {α : Type} (action : PoolM α) : StageM α := fun work => do
  let (result, pool) ← action.run work.pool
  return (result, { work with pool })

instance : MonadLift PoolM StageM := ⟨onPool⟩

/-- Ask about the workspace without changing it. -/
def inspect {α : Type} (query : Workspace → Except Abort α) : StageM α := do
  query (← get)

/-- Work on the pool with the classes declared so far. -/
def withClasses {α : Type} (action : ClassHierarchy → PoolM α) : StageM α := do
  onPool (action (← get).hierarchy)

def report (diagnostic : Diagnostic) : StageM PUnit :=
  modify fun work => { work with reports := work.reports ++ [diagnostic] }

def reportAll (diagnostics : List Diagnostic) : StageM PUnit :=
  modify fun work => { work with reports := work.reports ++ diagnostics }

def modifyUnit (change : CompilationUnit → CompilationUnit) : StageM PUnit :=
  modify fun work => { work with unit := change work.unit }

def setMember (id : Nat) (member : Member) : StageM PUnit :=
  modifyUnit fun unit => { unit with members := unit.members.set id member }

def display (type : TypeRef) : StageM String :=
  inspect (·.pool.display type)

/-- Report a type fault at a place. -/
def reportFault (span : Span) (fault : TypeFault) : StageM PUnit := do
  report (← inspect fun work => fault.toDiagnostic span work.pool)

/-- Report that `found` stands where `expected` was wanted. -/
def mismatch (expected found : TypeRef) (span : Span) : StageM PUnit := do
  let expected ← display expected
  let found ← display found
  report { code := .typeMismatch, span, args := [expected, found] }

end StageM
end ClassLang
