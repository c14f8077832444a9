import ClassLang.Name

/-! Handles of pooled types and of type parameters. -/

namespace ClassLang

/-- The position of a type in its pool. Equal types of one pool have equal handles. -/
structure TypeRef where
  raw : Nat
deriving Repr, DecidableEq, Inhabited

namespace TypeRef

/-- The universal type, and what remains of a type after a reported error. -/
def any : TypeRef := ⟨0⟩
def void : TypeRef := ⟨1⟩
def int : TypeRef := ⟨2⟩
def float : TypeRef := ⟨3⟩
def bool : TypeRef := ⟨4⟩
def char : TypeRef := ⟨5⟩
def string : TypeRef := ⟨6⟩

/-- The handle of no type: nothing has been determined yet. -/
def absent : TypeRef := ⟨4294967295⟩

/-- Names of the primitive types, in the order of their handles. -/
def primitiveNames : List Name := ["any", "void", "int", "float", "bool", "char", "string"]

def isPrimitive (type : TypeRef) : Bool := decide (type.raw < 7)

def isAbsent (type : TypeRef) : Bool := type == absent

/-- The written name of a primitive. -/
def name? (type : TypeRef) : Option Name := primitiveNames[type.raw]?

/-- The primitive written `name`. -/
def primitive? (name : Name) : Option TypeRef :=
  (primitiveNames.idxOf? name).map TypeRef.mk

def render (type : TypeRef) : String :=
  match type.name? with
  | some name => name
  | none => if type.isAbsent then "<none>" else s!"type#{type.raw}"

/-- The handle itself, as internal errors print it. -/
def tag (type : TypeRef) : String :=
  match type.name? with
  | some name => "Idx::" ++ name.toUpper
  | none => if type.isAbsent then "Idx::NONE" else s!"Idx({type.raw})"

end TypeRef

/-- The number of a declared type parameter. -/
structure ParamRef where
  raw : Nat
deriving Repr, DecidableEq, Inhabited

namespace ParamRef

/-- The number itself, as internal errors print it. -/
def tag (param : ParamRef) : String := s!"TypeParamId({param.raw})"

end ParamRef
end ClassLang
