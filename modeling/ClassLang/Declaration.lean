import ClassLang.CompilationUnit

/-! Declaring a unit: its members are laid out and their names published. -/

namespace ClassLang

abbrev DeclareM := StateM Workspace

namespace Declaration

/-- Declare type parameters of a class or method; bounds are resolved later. -/
def typeParams (owner : Name) (decls : List TypeParamDecl) : DeclareM (List GenericParam) :=
  decls.mapM fun decl =>
    modifyGet fun work =>
      let (id, pool) := work.pool.declareParam decl.name owner decl.variance
      ({ id, name := decl.name, bounds := decl.bounds, span := decl.span }, { work with pool })

/-- Built-in annotations are known by name; the others are looked up later. -/
def annotations (decls : List AnnotationDecl) : List AnnotationUse :=
  decls.map fun decl =>
    { name := decl.name, args := decl.args, span := decl.span,
      kind := (AnnotationKind.builtin? decl.name).getD .unresolved }

/-- Lay out a member. -/
def alloc (member : Member) : DeclareM Nat :=
  modifyGet fun work =>
    let (id, members) := work.unit.members.alloc member
    (id, { work with unit := { work.unit with members } })

/-- The symbol of a member that has just been laid out. -/
def symbolFor (member : Member) (id unit : Nat) (kind : SymbolKind) (owner : Option Name)
    (arity : Nat) : Symbol :=
  { name := member.name, kind, unit, member := id, owner, access := member.access,
    modifiers := member.modifiers, deprecated := member.isDeprecated, span := member.span, arity }

/-- Publish a symbol and note it for its member. -/
def publish (declare : SymbolTable → Nat × SymbolTable) : DeclareM Nat :=
  modifyGet fun work =>
    let (symbol, symbols) := declare work.symbols
    (symbol,
      { work with symbols, unit := { work.unit with symbols := work.unit.symbols.push symbol } })

/-- Lay out and publish a field or method of a class. -/
def member (owner : Nat) (class_ : Nat) (className : Name) (kind : SymbolKind) (arity : Nat)
    (member : Member) : DeclareM Nat := do
  let member := { member with owner := some owner }
  let id ← alloc member
  let unit := (← get).unit.id
  let _ ← publish (·.declareMember class_ (symbolFor member id unit kind (some className) arity))
  return id

def field (owner class_ : Nat) (className : Name) (decl : FieldDecl) : DeclareM Nat :=
  member owner class_ className .field 0
    { name := decl.name, span := decl.span, detail := .field decl.init, declared := decl.type,
      modifiers := decl.modifiers, annotations := annotations decl.annotations,
      access := decl.access }

/-- Declare a method. Methods of an interface are public, and abstract when they have no
body. -/
def method (owner class_ : Nat) (className : Name) (inInterface : Bool) (decl : MethodDecl) :
    DeclareM Nat := do
  let modifiers :=
    if inInterface && decl.body.isNone then { decl.modifiers with isAbstract := true }
    else decl.modifiers
  let typeParams ← typeParams decl.name decl.typeParams
  let params := decl.params.map fun param =>
    { name := param.name, declared := param.type,
      annotations := annotations param.annotations, span := param.span : Param }
  member owner class_ className .method params.length
    { name := decl.name, span := decl.span, detail := .method typeParams params decl.body,
      declared := decl.returns, modifiers, annotations := annotations decl.annotations,
      access := if inInterface then .public_ else decl.access }

/-- Declare a class, then its fields, then its methods. -/
def class_ (decl : ClassDecl) : DeclareM PUnit := do
  let typeParams ← typeParams decl.name decl.typeParams
  let detail := MemberDetail.class_ typeParams decl.superclass decl.interfaces none [] decl.permits
  let member : Member :=
    { name := decl.name, span := decl.span, detail := detail [],
      declared := .named decl.name [] decl.span, modifiers := decl.modifiers,
      annotations := annotations decl.annotations, access := decl.access }
  let id ← alloc member
  let unit := (← get).unit.id
  let permits := if decl.modifiers.isSealed then some decl.permits else none
  let symbol ← publish
    (·.declareClass (symbolFor member id unit .class_ none 0) (typeParams.map (·.id)) permits)
  modify fun work => { work with unit := { work.unit with classes := work.unit.classes ++ [id] } }
  let fields ← decl.fields.mapM (field id symbol decl.name)
  let methods ← decl.methods.mapM (method id symbol decl.name decl.modifiers.isInterface)
  modify fun work =>
    let complete := { member with detail := detail (fields ++ methods) }
    { work with unit := { work.unit with members := work.unit.members.set id complete } }

end Declaration

/-- Declare all classes of a unit. -/
def Program.declareUnit (program : Program) (id : Nat) (source : SourceUnit) :
    CompilationUnit × Program :=
  let start : Workspace :=
    { toProgram := program, unit := { id, name := source.name, arena := source.arena } }
  let (_, final) := (source.classes.forM Declaration.class_).run start
  (final.unit, final.toProgram)

end ClassLang
