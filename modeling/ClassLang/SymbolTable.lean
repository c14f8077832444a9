import ClassLang.Member
import ClassLang.Type.Hierarchy

/-! The declarations of the whole program. Names are published before any of them is resolved,
so declarations may refer to each other freely. -/

namespace ClassLang

inductive SymbolKind where
  | class_
  | field
  | method
deriving Repr, DecidableEq, Inhabited

def SymbolKind.render : SymbolKind → String
  | .class_ => "class"
  | .field => "field"
  | .method => "method"

/-- The resolved types of a declaration: of the field, the result of the method or the class
itself, and of a method's parameters. -/
structure Signature where
  type : TypeRef := .absent
  params : List TypeRef := []
  typeParams : List ParamRef := []
deriving Repr, DecidableEq, Inhabited

/-- A declaration seen from the whole program. -/
structure Symbol where
  name : Name
  kind : SymbolKind
  unit : Nat
  member : Nat
  /-- The class that declares a field or method. -/
  owner : Option Name := none
  access : Access
  modifiers : Modifiers := {}
  deprecated : Bool := false
  span : Span
  /-- Number of parameters of a method. -/
  arity : Nat := 0
  /-- Missing until types are resolved. -/
  signature : Option Signature := none
deriving Repr, DecidableEq, Inhabited

namespace Symbol

def isStatic (symbol : Symbol) : Bool := symbol.modifiers.isStatic

def isAbstract (symbol : Symbol) : Bool := symbol.modifiers.lacksBody

/-- The published type, or `any` before it is known. -/
def type (symbol : Symbol) : TypeRef :=
  match symbol.signature with
  | some signature => signature.type
  | none => .any

/-- The place of the declaration in the program. -/
def ref (symbol : Symbol) : String := s!"u{symbol.unit}.m{symbol.member}"

end Symbol

/-- Order of declarations: by unit, then by member. -/
def declaredBefore (first second : Nat × Nat) : Bool :=
  decide (first.1 < second.1 ∨ first.1 = second.1 ∧ first.2 < second.2)

/-- What is known about one class declaration. -/
structure ClassRecord where
  symbol : Nat
  name : Name
  /-- Unit and member of the declaration. -/
  order : Nat × Nat
  typeParams : List ParamRef := []
  superclass : Option TypeRef := none
  interfaces : List TypeRef := []
  /-- The permitted subclasses of a sealed class. -/
  permits : Option (List Name) := none
  /-- Symbols of the fields and methods, in the order of their declaration. -/
  members : List Nat := []
deriving Repr, DecidableEq, Inhabited

/-- The earliest of several declarations; of equals the first. -/
def earliest? : List ClassRecord → Option ClassRecord
  | [] => none
  | record :: rest =>
    match earliest? rest with
    | some best => if declaredBefore best.order record.order then some best else some record
    | none => some record

/-- Put a declaration into a list that is in order, before its equals. -/
def insertDeclaration (record : ClassRecord) : List ClassRecord → List ClassRecord
  | [] => [record]
  | next :: rest =>
    if declaredBefore next.order record.order then next :: insertDeclaration record rest
    else record :: next :: rest

/-- Symbols and class records, in the order of their publication. -/
structure SymbolTable where
  symbols : Array Symbol := #[]
  classes : List ClassRecord := []
deriving Repr, DecidableEq, Inhabited

namespace SymbolTable

def size (table : SymbolTable) : Nat := table.symbols.size

/-- Publish a class with its type parameters, and with its permitted subclasses if sealed. -/
def declareClass (table : SymbolTable) (symbol : Symbol) (typeParams : List ParamRef)
    (permits : Option (List Name)) : Nat × SymbolTable :=
  let record : ClassRecord :=
    { symbol := table.size, name := symbol.name, order := (symbol.unit, symbol.member),
      typeParams, permits }
  (table.size,
    { symbols := table.symbols.push symbol, classes := table.classes ++ [record] })

/-- Change the record of the class declared as `class_`; a symbol that is no class has none. -/
def updateClass (table : SymbolTable) (class_ : Nat) (change : ClassRecord → ClassRecord) :
    SymbolTable :=
  { table with
    classes := table.classes.map fun record =>
      if record.symbol = class_ then change record else record }

/-- Publish a field or method of a class. -/
def declareMember (table : SymbolTable) (class_ : Nat) (symbol : Symbol) : Nat × SymbolTable :=
  let table' := { table with symbols := table.symbols.push symbol }
  (table.size,
    table'.updateClass class_ fun record =>
      { record with members := record.members ++ [table.size] })

/-- Publish the supertypes of a class. -/
def publishClass (table : SymbolTable) (class_ : Nat) (superclass : Option TypeRef)
    (interfaces : List TypeRef) : SymbolTable :=
  table.updateClass class_ fun record => { record with superclass, interfaces }

def get (table : SymbolTable) (id : Nat) : Except Abort Symbol :=
  match table.symbols[id]? with
  | some symbol => .ok symbol
  | none => .error .outOfRange

/-- Publish the signature of a declaration. -/
def publishSignature (table : SymbolTable) (id : Nat) (signature : Signature) :
    Except Abort SymbolTable := do
  let symbol ← table.get id
  return { table with
    symbols := table.symbols.setIfInBounds id { symbol with signature := some signature } }

/-- The declaration a class name refers to: the earliest in the program, whatever the order of
publication. -/
def record? (table : SymbolTable) (name : Name) : Option ClassRecord :=
  earliest? (table.classes.filter (·.name == name))

def lookupClass? (table : SymbolTable) (name : Name) : Option Nat :=
  (table.record? name).map (·.symbol)

/-- The class a name refers to. -/
def lookup? (table : SymbolTable) (name : Name) : Option Symbol :=
  (table.lookupClass? name).bind (table.symbols[·]?)

/-- Every declaration of a class name, in program order. -/
def declarations (table : SymbolTable) (name : Name) : List Nat :=
  ((table.classes.filter (·.name == name)).foldr insertDeclaration []).map (·.symbol)

/-- Members of a class itself that satisfy `test`, in the order of their declaration. -/
def findMembers (table : SymbolTable) (class_ : Name) (test : Symbol → Bool) :
    List (Nat × Symbol) :=
  match table.record? class_ with
  | none => []
  | some record =>
    record.members.filterMap fun id =>
      match table.symbols[id]? with
      | some symbol => if test symbol then some (id, symbol) else none
      | none => none

/-- Members of a class itself with a name and kind. -/
def membersNamed (table : SymbolTable) (class_ name : Name) (kind : SymbolKind) :
    List (Nat × Symbol) :=
  table.findMembers class_ fun symbol => symbol.name == name && symbol.kind == kind

def methods (table : SymbolTable) (class_ : Name) : List (Nat × Symbol) :=
  table.findMembers class_ (·.kind == .method)

/-- Modifiers of the class a name refers to. -/
def classModifiers? (table : SymbolTable) (name : Name) : Option Modifiers :=
  (table.lookup? name).map (·.modifiers)

/-- The classes of the table. The components of a class are the types of its instance fields. -/
def hierarchy (table : SymbolTable) : ClassHierarchy where
  superclass name := (table.record? name).bind (·.superclass)
  interfaces name := ((table.record? name).map (·.interfaces)).getD []
  typeParams name := ((table.record? name).map (·.typeParams)).getD []
  variants name := (table.record? name).bind (·.permits)
  isAbstract name := ((table.lookup? name).map (·.isAbstract)).getD false
  components name :=
    (table.findMembers name fun symbol => symbol.kind == .field && !symbol.isStatic).map (·.2.type)
  classes := table.classes.map (·.name)

end SymbolTable
end ClassLang
