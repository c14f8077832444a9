import ClassLang.Source.Decl

/-! Assembling a unit node by node. Every node gets a span of its own, so that no two reports
about different nodes look alike. -/

namespace ClassLang

/-- A unit under construction and the offset of the next span. -/
structure Builder where
  unit : SourceUnit
  nextOffset : Nat := 0
deriving Repr, Inhabited

abbrev BuilderM := StateM Builder

namespace Builder

/-- A span no other node has: three offsets long, one apart from the next. -/
def freshSpan : BuilderM Span :=
  modifyGet fun builder =>
    (⟨builder.nextOffset, builder.nextOffset + 3⟩,
      { builder with nextOffset := builder.nextOffset + 4 })

def named (name : Name) (args : List TypeExpr) : BuilderM TypeExpr :=
  return .named name args (← freshSpan)

def wildcard (variance : Variance) (bound : TypeExpr) : BuilderM TypeExpr :=
  return .wildcard variance (some bound) (← freshSpan)

def expr (kind : ExprKind) : BuilderM ExprRef := do
  let span ← freshSpan
  modifyGet fun builder =>
    let (ref, arena) := builder.unit.arena.alloc kind span
    (ref, { builder with unit := { builder.unit with arena } })

/-- A match; its arms take their spans in order before the match takes its own. -/
def matchOn (scrutinee : ExprRef) (arms : List (Nat × ExprRef)) : BuilderM ExprRef := do
  let arms ← arms.mapM fun (pattern, body) => return { pattern, body, span := ← freshSpan }
  expr (.matchOn scrutinee arms)

def pattern (kind : PatternKind) : BuilderM Nat := do
  let span ← freshSpan
  modifyGet fun builder =>
    let (index, arena) := builder.unit.arena.allocPattern kind span
    (index, { builder with unit := { builder.unit with arena } })

def classDecl (name : Name) : BuilderM ClassDecl :=
  return { name, span := ← freshSpan }

def withField (decl : ClassDecl) (name : Name) (type : TypeExpr) (init : Option ExprRef) :
    BuilderM ClassDecl := do
  let span ← freshSpan
  return { decl with fields := decl.fields ++ [{ name, type, init, span }] }

/-- Add a method. It takes its span before its parameters take theirs. -/
def withMethod (decl : ClassDecl) (name : Name) (returns : TypeExpr)
    (params : List (Name × TypeExpr)) (body : Option ExprRef) : BuilderM ClassDecl := do
  let span ← freshSpan
  let params ← params.mapM fun (name, type) => return { name, type, span := ← freshSpan }
  return { decl with methods := decl.methods ++ [{ name, params, returns, body, span }] }

def withTypeParam (decl : ClassDecl) (name : Name) (bound : Option TypeExpr) :
    BuilderM ClassDecl := do
  let span ← freshSpan
  return { decl with typeParams := decl.typeParams ++ [{ name, bounds := bound.toList, span }] }

def annotate (decl : ClassDecl) (name : Name) : BuilderM ClassDecl := do
  let span ← freshSpan
  return { decl with annotations := decl.annotations ++ [{ name, span }] }

def pushClass (decl : ClassDecl) : BuilderM PUnit :=
  modify fun builder =>
    { builder with unit := { builder.unit with classes := builder.unit.classes ++ [decl] } }

end Builder
end ClassLang
