import ClassLang.CompilationUnit

/-! Diagnostics, symbols and compiled units laid out for inspection by tools. -/

namespace ClassLang

inductive Tree where
  | absent
  | flag (value : Bool)
  | number (value : Nat)
  | text (value : String)
  | list (items : List Tree)
  | record (fields : List (String × Tree))
deriving Repr, Inhabited

namespace Tree

def texts (items : List String) : Tree := list (items.map text)

def numbers (items : List Nat) : Tree := list (items.map number)

def optional {α : Type} (lay : α → Tree) : Option α → Tree
  | some value => lay value
  | none => absent

def span (span : Span) : Tree := numbers [span.start, span.stop]

end Tree

def Diagnostic.inspect (diagnostic : Diagnostic) : Tree :=
  .record [("code", .text diagnostic.code.label), ("span", .span diagnostic.span),
    ("args", .texts diagnostic.args), ("text", .text diagnostic.render)]

def GroupAnalysis.inspect (analysis : GroupAnalysis) : Tree :=
  .record [("exhaustive", .flag analysis.coverage.isExhaustive),
    ("witnesses", .texts analysis.coverage.witnesses),
    ("unreachable", .numbers analysis.coverage.unreachable),
    ("switchable", .flag analysis.switchable)]

def Instruction.inspectAll (code : List Instruction) : Tree := .texts (code.map (·.describe))

def LoweredMatch.inspect (lowered : LoweredMatch) : Tree :=
  .record [("strategy", .text lowered.strategy.render),
    ("code", Instruction.inspectAll lowered.code),
    ("arms", .list (lowered.arms.map fun arm =>
      .list [.text arm.label.render, Instruction.inspectAll arm.bindings]))]

namespace TypePool

def inspect (pool : TypePool) (type : TypeRef) : Except Abort Tree :=
  return .text (← pool.describe type)

def inspectAll (pool : TypePool) (types : List TypeRef) : Except Abort Tree :=
  return .list (← types.mapM pool.inspect)

def inspect? (pool : TypePool) : Option TypeRef → Except Abort Tree
  | some type => pool.inspect type
  | none => return .absent

end TypePool

def Signature.inspect (pool : TypePool) (signature : Signature) : Except Abort Tree := do
  let type ← pool.inspect signature.type
  let params ← pool.inspectAll signature.params
  let names ← signature.typeParams.mapM fun param => return (← pool.param param).name
  return .record [("ty", type), ("params", params), ("type_params", .texts names)]

def Symbol.inspect (pool : TypePool) (symbol : Symbol) : Except Abort Tree := do
  let type ← pool.inspect symbol.type
  let signature ← match symbol.signature with
    | some signature => signature.inspect pool
    | none => pure .absent
  return .record [("ref", .text symbol.ref), ("name", .text symbol.name),
    ("kind", .text symbol.kind.render), ("owner", .optional .text symbol.owner),
    ("acc", .text symbol.access.keyword), ("mods", .texts symbol.modifiers.keywords),
    ("deprecated", .flag symbol.deprecated), ("span", .span symbol.span),
    ("arity", .number symbol.arity), ("static", .flag symbol.isStatic),
    ("abstract", .flag symbol.isAbstract), ("ty", type),
    ("signature", signature)]

def AnnotationUse.inspectAll (annotations : List AnnotationUse) : Tree :=
  .texts (annotations.map (·.kind.describe))

/-- A body is shown by its position, written as text. -/
def ExprRef.inspectBody (body : Option ExprRef) : Tree :=
  .optional (fun ref => .text ref.describe) body

def GenericParam.inspect (pool : TypePool) (param : GenericParam) : Except Abort Tree := do
  let declared ← pool.param param.id
  return .list [.text param.name, .text declared.variance.keyword,
    ← pool.inspectAll declared.bounds]

def Param.inspect (pool : TypePool) (param : Param) : Except Abort Tree :=
  return .list [.text param.name, ← pool.inspect param.type,
    AnnotationUse.inspectAll param.annotations]

def Member.inspect (pool : TypePool) (member : Member) : Except Abort Tree := do
  let type ← pool.inspect member.type
  let typeParams ← member.typeParams.mapM (·.inspect pool)
  let common := [("name", Tree.text member.name), ("ty", type),
    ("state", .text member.progress.render), ("acc", .text member.access.keyword),
    ("mods", .texts member.modifiers.keywords),
      ("ann", AnnotationUse.inspectAll member.annotations),
    ("owner", .optional .number member.owner), ("tparams", .list typeParams)]
  match member.detail with
  | .field init =>
    return .record (common ++ [("kind", .text "field"), ("body", ExprRef.inspectBody init)])
  | .method _ params body =>
    let params ← params.mapM (·.inspect pool)
    return .record (common ++ [("kind", .text "method"), ("body", ExprRef.inspectBody body),
      ("params", .list params)])
  | .class_ _ _ _ superType interfaceTypes permits members =>
    return .record (common ++ [("kind", .text "class"), ("super", ← pool.inspect? superType),
      ("ifaces", ← pool.inspectAll interfaceTypes), ("permits", .texts permits),
      ("members", .numbers members)])

def Resolution.inspect (table : SymbolTable) : Resolution → Except Abort Tree
  | local_ name => return .text ("local " ++ name)
  | field symbol => return .text ("field " ++ (← table.get symbol).ref)
  | method symbol => return .text ("method " ++ (← table.get symbol).ref)
  | class_ symbol => return .text ("class " ++ (← table.get symbol).ref)
  | unresolved => return .text "unresolved"

namespace CompilationUnit

/-- A node with its type and what it refers to. -/
def inspectExpr (unit : CompilationUnit) (program : Program) (expr : Expr) (index : Nat) :
    Except Abort Tree := do
  let type ← program.pool.inspect? (unit.exprTypes.get? index)
  let resolution ← match unit.resolutions.get? index with
    | some resolution => resolution.inspect program.symbols
    | none => pure .absent
  return .list [.text expr.kind.describe, type, resolution]

def inspectMatch (unit : CompilationUnit) (program : Program) (index : Nat) (group : MatchGroup) :
    Except Abort Tree := do
  let arms := group.arms.map fun arm => .list [.optional .number arm.pattern, .span arm.span]
  return .record [("expr", .number index), ("subject", ← program.pool.inspect group.subject),
    ("arms", .list arms), ("lowered", .optional (·.inspect) (unit.lowered.get? index))]

/-- Everything recorded about a unit. -/
def inspect (unit : CompilationUnit) (program : Program) : Except Abort Tree := do
  let members ← unit.members.toList.mapM (·.inspect program.pool)
  let exprs ← unit.arena.exprs.toList.zipIdx.mapM fun (expr, index) =>
    unit.inspectExpr program expr index
  let groups ← unit.matchGroups.entries.mapM fun (index, group) =>
    unit.inspectMatch program index group
  let uses ← unit.boundUses.mapM fun usage =>
    return .list [.number usage.member, .span usage.span, ← program.pool.inspect usage.type]
  return .record [("id", .number unit.id), ("name", .text unit.name),
    ("progress", .text unit.progress.render),
    ("diags", .list (unit.diagnostics.diagnostics.map (·.inspect))),
    ("errors", .number unit.diagnostics.errorCount), ("classes", .numbers unit.classes),
    ("members", .list members), ("exprs", .list exprs), ("patterns", .number unit.patterns.size),
    ("matches", .list groups), ("uses", .list uses)]

end CompilationUnit
end ClassLang
