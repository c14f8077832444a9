import ClassLang.Source.Decl

/-! Fields, methods and classes of one unit after declaration. -/

namespace ClassLang

/-- What an annotation refers to. -/
inductive AnnotationKind where
  | overrides
  | deprecated
  | suppressWarnings
  /-- A class declared as an annotation. -/
  | user (name : Name)
  | unresolved
deriving Repr, DecidableEq, Inhabited

namespace AnnotationKind

/-- The built-in annotation of a name. -/
def builtin? : Name → Option AnnotationKind
  | "Override" => some overrides
  | "Deprecated" => some deprecated
  | "SuppressWarnings" => some suppressWarnings
  | _ => none

def describe : AnnotationKind → String
  | overrides => "Override"
  | deprecated => "Deprecated"
  | suppressWarnings => "SuppressWarnings"
  | user name => "User " ++ name
  | unresolved => "Unresolved"

end AnnotationKind

structure AnnotationUse where
  name : Name
  args : List ExprRef := []
  span : Span
  kind : AnnotationKind
deriving Repr, DecidableEq, Inhabited

/-- Whether one of the annotations is of a kind. -/
def annotatedAs (annotations : List AnnotationUse) (kind : AnnotationKind) : Bool :=
  annotations.any (·.kind == kind)

/-- A parameter of a method. -/
structure Param where
  name : Name
  declared : TypeExpr
  type : TypeRef := .absent
  annotations : List AnnotationUse := []
  span : Span
deriving Repr, DecidableEq, Inhabited

/-- A declared type parameter with its bounds as written. -/
structure GenericParam where
  id : ParamRef
  name : Name
  bounds : List TypeExpr
  span : Span
deriving Repr, DecidableEq, Inhabited

/-- What only one kind of member has. -/
inductive MemberDetail where
  | field (init : Option ExprRef)
  | method (typeParams : List GenericParam) (params : List Param) (body : Option ExprRef)
  | class_ (typeParams : List GenericParam) (superclass : Option TypeExpr)
      (interfaces : List TypeExpr) (superType : Option TypeRef) (interfaceTypes : List TypeRef)
      (permits : List Name) (members : List Nat)
deriving Repr, DecidableEq, Inhabited

/-- A field, method or class. Its type is the field's type, the method's result, or the class
applied to its own variables; it is absent until types are resolved. -/
structure Member where
  name : Name
  span : Span
  detail : MemberDetail
  declared : TypeExpr
  type : TypeRef := .absent
  modifiers : Modifiers := {}
  annotations : List AnnotationUse := []
  access : Access
  /-- The enclosing class; a class at the top has none. -/
  owner : Option Nat := none
  progress : Progress := .unresolved
deriving Repr, DecidableEq, Inhabited

namespace Member

def isField (member : Member) : Bool :=
  match member.detail with
  | .field _ => true
  | _ => false

def isMethod (member : Member) : Bool :=
  match member.detail with
  | .method .. => true
  | _ => false

def isClass (member : Member) : Bool :=
  match member.detail with
  | .class_ .. => true
  | _ => false

/-- Parameters of a method; other members have none. -/
def params (member : Member) : List Param :=
  match member.detail with
  | .method _ params _ => params
  | _ => []

def typeParams (member : Member) : List GenericParam :=
  match member.detail with
  | .method typeParams _ _ => typeParams
  | .class_ typeParams _ _ _ _ _ _ => typeParams
  | .field _ => []

/-- The initializer of a field or the body of a method. -/
def body (member : Member) : Option ExprRef :=
  match member.detail with
  | .field init => init
  | .method _ _ body => body
  | .class_ .. => none

/-- Members declared in a class; other members have none. -/
def members (member : Member) : List Nat :=
  match member.detail with
  | .class_ _ _ _ _ _ _ members => members
  | _ => []

/-- Replace the initializer or body; a class has neither. -/
def setBody (member : Member) (body : ExprRef) : Member :=
  match member.detail with
  | .field _ => { member with detail := .field (some body) }
  | .method typeParams params _ => { member with detail := .method typeParams params (some body) }
  | .class_ .. => member

def isDeprecated (member : Member) : Bool := annotatedAs member.annotations .deprecated

def isMarkedOverride (member : Member) : Bool := annotatedAs member.annotations .overrides

/-- Warnings inside the member are silenced. -/
def suppressesWarnings (member : Member) : Bool :=
  annotatedAs member.annotations .suppressWarnings

end Member

/-- The members of one unit; each class stands before its members. -/
structure MemberArena where
  members : Array Member := #[]
deriving Repr, DecidableEq, Inhabited

namespace MemberArena

def size (arena : MemberArena) : Nat := arena.members.size

def ids (arena : MemberArena) : List Nat := List.range arena.size

def toList (arena : MemberArena) : List Member := arena.members.toList

def alloc (arena : MemberArena) (member : Member) : Nat × MemberArena :=
  (arena.size, { members := arena.members.push member })

def get (arena : MemberArena) (id : Nat) : Except Abort Member :=
  match arena.members[id]? with
  | some member => .ok member
  | none => .error .outOfRange

def set (arena : MemberArena) (id : Nat) (member : Member) : MemberArena :=
  { members := arena.members.setIfInBounds id member }

/-- Follow owners at most `fuel` times. -/
def topLevelWithin (arena : MemberArena) : Nat → Nat → Except Abort Nat
  | 0, _ => throw .cyclic
  | fuel + 1, id => do
    match (← arena.get id).owner with
    | some owner => topLevelWithin arena fuel owner
    | none => return id

/-- The outermost class around a member, or the member itself. -/
def topLevel (arena : MemberArena) (id : Nat) : Except Abort Nat :=
  arena.topLevelWithin (arena.size + 1) id

end MemberArena
end ClassLang
