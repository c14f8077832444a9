import ClassLang.Abort
import ClassLang.Source.Literal
import ClassLang.Source.TypeExpr

/-! Expressions and patterns of one unit. Nodes live in an arena and name their children by
position, so several parents may share a child. -/

namespace ClassLang

/-- A child slot: the position of an expression, or nothing. -/
inductive ExprRef where
  | node (index : Nat)
  | missing
deriving Repr, DecidableEq, Inhabited

namespace ExprRef

def isPresent : ExprRef → Bool
  | node _ => true
  | missing => false

/-- The position as a number; an empty slot has the largest of 32 bits. -/
def raw : ExprRef → Nat
  | node index => index
  | missing => 4294967295

/-- The slot with a number. -/
def ofRaw (raw : Nat) : ExprRef := if raw = 4294967295 then missing else node raw

def describe : ExprRef → String
  | node index => toString index
  | missing => "-"

end ExprRef

/-- One case of a match: a written pattern and the body it guards. -/
structure MatchArm where
  pattern : Nat
  body : ExprRef
  span : Span
deriving Repr, DecidableEq, Inhabited

inductive ExprKind where
  | literal (value : Literal)
  /-- A bare name: a local, a field of the enclosing class, or a class. -/
  | ident (name : Name)
  | this
  | field (receiver : ExprRef) (name : Name)
  /-- A call; without a receiver it goes to the enclosing class. -/
  | call (receiver : Option ExprRef) (method : Name) (args : List ExprRef)
  | new (type : TypeExpr) (args : List ExprRef)
  | binary (op : BinaryOp) (left right : ExprRef)
  | unary (op : UnaryOp) (operand : ExprRef)
  | ifElse (cond thenBranch elseBranch : ExprRef)
  | matchOn (scrutinee : ExprRef) (arms : List MatchArm)
  /-- Binds `name` for the rest of the enclosing block. -/
  | letIn (name : Name) (type : TypeExpr) (init : ExprRef)
  | block (items : List ExprRef)
  | error
deriving Repr, DecidableEq, Inhabited

structure Expr where
  kind : ExprKind
  span : Span
deriving Repr, DecidableEq, Inhabited

/-- A written pattern; subpatterns are positions in the same arena. -/
inductive PatternKind where
  | wildcard
  | constant (value : Literal)
  | binding (name : Name) (inner : Option Nat)
  | deconstruct (class_ : Name) (fields : List Nat)
deriving Repr, DecidableEq, Inhabited

structure Pattern where
  kind : PatternKind
  span : Span
deriving Repr, DecidableEq, Inhabited

/-- The pattern on one line, with its subpatterns by position. -/
def PatternKind.describe : PatternKind → String
  | .wildcard => "wild"
  | .constant value => value.describe
  | .binding name inner => "bind " ++ name ++ " " ++ (inner.map toString).getD "-"
  | .deconstruct name fields =>
    "dec " ++ name ++ " (" ++ " ".intercalate (fields.map toString) ++ ")"

namespace ExprKind

/-- The children in evaluation order. An absent branch of an `if` is no child. -/
def children : ExprKind → List ExprRef
  | literal _ | ident _ | this | error => []
  | field receiver _ => [receiver]
  | call receiver _ args => receiver.toList ++ args
  | new _ args => args
  | binary _ left right => [left, right]
  | unary _ operand => [operand]
  | ifElse cond thenBranch elseBranch => [cond, thenBranch, elseBranch].filter (·.isPresent)
  | matchOn scrutinee arms => scrutinee :: arms.map (·.body)
  | letIn _ _ init => [init]
  | block items => items

/-- The node on one line, with its children by position. -/
def describe : ExprKind → String
  | literal value => value.describe
  | ident name => "ident " ++ name
  | this => "this"
  | field receiver name => "field " ++ receiver.describe ++ " " ++ name
  | call receiver method args =>
    "call " ++ (receiver.map (·.describe)).getD "self" ++ " " ++ method ++ " " ++ refs args
  | new type args => "new " ++ type.describe ++ " " ++ refs args
  | binary op left right => op.symbol ++ " " ++ left.describe ++ " " ++ right.describe
  | unary op operand => op.word ++ " " ++ operand.describe
  | ifElse cond thenBranch elseBranch =>
    "if " ++ cond.describe ++ " " ++ thenBranch.describe ++ " " ++ elseBranch.describe
  | matchOn scrutinee arms =>
    "match " ++ scrutinee.describe ++ " [" ++ ", ".intercalate (arms.map arm) ++ "]"
  | letIn name type init => "let " ++ name ++ ": " ++ type.describe ++ " = " ++ init.describe
  | block items => "block " ++ refs items
  | error => "error"
where
  refs (items : List ExprRef) : String := "(" ++ " ".intercalate (items.map (·.describe)) ++ ")"
  arm (arm : MatchArm) : String :=
    s!"p{arm.pattern}=>" ++ arm.body.describe ++ "@" ++ arm.span.render

end ExprKind

/-- The expressions and written patterns of one unit. Nodes are only ever appended. -/
structure Arena where
  exprs : Array Expr := #[]
  patterns : Array Pattern := #[]
deriving Repr, DecidableEq, Inhabited

namespace Arena

def size (arena : Arena) : Nat := arena.exprs.size

def alloc (arena : Arena) (kind : ExprKind) (span : Span) : ExprRef × Arena :=
  (.node arena.size, { arena with exprs := arena.exprs.push ⟨kind, span⟩ })

def allocPattern (arena : Arena) (kind : PatternKind) (span : Span) : Nat × Arena :=
  (arena.patterns.size, { arena with patterns := arena.patterns.push ⟨kind, span⟩ })

/-- The expression in a slot; an empty slot holds none. -/
def expr (arena : Arena) : ExprRef → Except Abort Expr
  | .node index =>
    match arena.exprs[index]? with
    | some expr => .ok expr
    | none => .error .outOfRange
  | .missing => .error .outOfRange

def kind (arena : Arena) (ref : ExprRef) : Except Abort ExprKind :=
  (arena.expr ref).map (·.kind)

def span (arena : Arena) (ref : ExprRef) : Except Abort Span :=
  (arena.expr ref).map (·.span)

def pattern (arena : Arena) (index : Nat) : Except Abort Pattern :=
  match arena.patterns[index]? with
  | some pattern => .ok pattern
  | none => .error .outOfRange

/-- Replace the kind of a node and keep its span. -/
def setKind (arena : Arena) (ref : ExprRef) (kind : ExprKind) : Except Abort Arena :=
  match ref with
  | .node index =>
    match arena.exprs[index]? with
    | some expr => .ok { arena with exprs := arena.exprs.setIfInBounds index { expr with kind } }
    | none => .error .outOfRange
  | .missing => .error .outOfRange

/-- The literal at a node, when the node is one. -/
def literal? (arena : Arena) (ref : ExprRef) : Except Abort (Option Literal) := do
  match ← arena.kind ref with
  | .literal value => return some value
  | _ => return none

def children (arena : Arena) (ref : ExprRef) : Except Abort (List ExprRef) :=
  (arena.kind ref).map (·.children)

/-- Positions below `ref`, a node before its children, by recursion on the nesting depth. -/
def preorderWithin (arena : Arena) : Nat → ExprRef → Except Abort (List Nat)
  | _, .missing => return []
  | 0, .node _ => throw .cyclic
  | depth + 1, .node index => do
    let children ← arena.children (.node index)
    let below ← children.mapM (preorderWithin arena depth)
    return index :: below.flatten

/-- The pre-order of the tree at `ref`; a shared node occurs once for each path to it. -/
def preorder (arena : Arena) (ref : ExprRef) : Except Abort (List Nat) :=
  arena.preorderWithin (arena.size + 1) ref

/-- Number of slots in the tree at `ref`, empty ones included. -/
def slotsWithin (arena : Arena) : Nat → ExprRef → Except Abort Nat
  | _, .missing => return 1
  | 0, .node _ => throw .cyclic
  | depth + 1, .node index => do
    let children ← arena.children (.node index)
    let below ← children.mapM (slotsWithin arena depth)
    return below.sum + 1

/-- Visit the slots of a work list, putting the children of each node in front of the rest. -/
def walkFrom (arena : Arena) : Nat → List ExprRef → Except Abort (List Nat)
  | _, [] => return []
  | 0, _ :: _ => throw .cyclic
  | fuel + 1, .missing :: pending => walkFrom arena fuel pending
  | fuel + 1, .node index :: pending => do
    let children ← arena.children (.node index)
    let visited ← walkFrom arena fuel (children ++ pending)
    return index :: visited

/-- The positions visited from `root`, in order, with an explicit work list. -/
def walk (arena : Arena) (root : ExprRef) : Except Abort (List Nat) := do
  let slots ← arena.slotsWithin (arena.size + 1) root
  arena.walkFrom slots [root]

end Arena
end ClassLang
