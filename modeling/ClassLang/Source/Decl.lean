import ClassLang.Source.Expr

/-! Declarations of one unit, as they are written. -/

namespace ClassLang

/-- Modifiers of a declaration. -/
structure Modifiers where
  isStatic : Bool := false
  isFinal : Bool := false
  isAbstract : Bool := false
  /-- Only the permitted classes may extend the class. -/
  isSealed : Bool := false
  isInterface : Bool := false
  /-- The class may be used as an annotation. -/
  marksAnnotations : Bool := false
deriving Repr, DecidableEq, Inhabited

namespace Modifiers

/-- Every modifier with its keyword and its bit, in the order in which they are listed. -/
def flags (modifiers : Modifiers) : List (String × Nat × Bool) :=
  [("static", 1, modifiers.isStatic), ("final", 2, modifiers.isFinal),
   ("abstract", 4, modifiers.isAbstract), ("sealed", 8, modifiers.isSealed),
   ("interface", 16, modifiers.isInterface), ("annotation", 32, modifiers.marksAnnotations)]

def keywords (modifiers : Modifiers) : List String :=
  (modifiers.flags.filter (·.2.2)).map (·.1)

def bits (modifiers : Modifiers) : Nat :=
  ((modifiers.flags.filter (·.2.2)).map (·.2.1)).sum

def isEmpty (modifiers : Modifiers) : Bool := modifiers == {}

def ofKeywords (keywords : List String) : Modifiers where
  isStatic := keywords.contains "static"
  isFinal := keywords.contains "final"
  isAbstract := keywords.contains "abstract"
  isSealed := keywords.contains "sealed"
  isInterface := keywords.contains "interface"
  marksAnnotations := keywords.contains "annotation"

/-- Abstract classes, interfaces and abstract methods have nothing to run of their own. -/
def lacksBody (modifiers : Modifiers) : Bool :=
  modifiers.isAbstract || modifiers.isInterface

end Modifiers

/-- Access levels, from the most to the least restrictive. -/
inductive Access where
  | private_
  /-- Visible in the declaring unit. -/
  | package
  | protected_
  | public_
deriving Repr, DecidableEq, Inhabited

namespace Access

def rank : Access → Nat
  | private_ => 0
  | package => 1
  | protected_ => 2
  | public_ => 3

/-- `first` is more restrictive than `second`. -/
def weaker (first second : Access) : Bool := decide (first.rank < second.rank)

def render : Access → String
  | private_ => "private"
  | package => "package-private"
  | protected_ => "protected"
  | public_ => "public"

def keyword : Access → String
  | private_ => "private"
  | package => "package"
  | protected_ => "protected"
  | public_ => "public"

def ofKeyword? (text : String) : Option Access :=
  [private_, package, protected_, public_].find? (·.keyword == text)

end Access

structure AnnotationDecl where
  name : Name
  args : List ExprRef := []
  span : Span
deriving Repr, DecidableEq, Inhabited

structure TypeParamDecl where
  name : Name
  variance : Variance := .invariant
  bounds : List TypeExpr := []
  span : Span
deriving Repr, DecidableEq, Inhabited

structure ParamDecl where
  name : Name
  type : TypeExpr
  annotations : List AnnotationDecl := []
  span : Span
deriving Repr, DecidableEq, Inhabited

structure FieldDecl where
  name : Name
  type : TypeExpr
  init : Option ExprRef := none
  access : Access := .public_
  modifiers : Modifiers := {}
  annotations : List AnnotationDecl := []
  span : Span
deriving Repr, DecidableEq, Inhabited

structure MethodDecl where
  name : Name
  typeParams : List TypeParamDecl := []
  params : List ParamDecl := []
  returns : TypeExpr
  /-- Abstract and interface methods have no body. -/
  body : Option ExprRef := none
  access : Access := .public_
  modifiers : Modifiers := {}
  annotations : List AnnotationDecl := []
  span : Span
deriving Repr, DecidableEq, Inhabited

structure ClassDecl where
  name : Name
  typeParams : List TypeParamDecl := []
  superclass : Option TypeExpr := none
  interfaces : List TypeExpr := []
  /-- Permitted direct subclasses of a sealed class. -/
  permits : List Name := []
  fields : List FieldDecl := []
  methods : List MethodDecl := []
  access : Access := .public_
  modifiers : Modifiers := {}
  annotations : List AnnotationDecl := []
  span : Span
deriving Repr, DecidableEq, Inhabited

/-- Mark the class sealed and add to its permitted subclasses. -/
def ClassDecl.seal (decl : ClassDecl) (permits : List Name) : ClassDecl :=
  { decl with
    modifiers := { decl.modifiers with isSealed := true }
    permits := decl.permits ++ permits }

/-- The declarations of one unit with the arena of its expressions. -/
structure SourceUnit where
  name : String
  classes : List ClassDecl := []
  arena : Arena := {}
deriving Repr, DecidableEq, Inhabited

end ClassLang
