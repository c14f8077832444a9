import ClassLang.CompilationUnit

/-! The last stage: constant expressions are evaluated. What would fail when run, such as a
division by zero or an overflow, is left as it is. -/

namespace ClassLang

/-- The integer when it has 64 bits. -/
def checkedInt64 (value : Int) : Option Int64 :=
  if -9223372036854775808 ≤ value ∧ value < 9223372036854775808 then some (.ofInt value) else none

namespace Literal

/-- The result of a comparison of ordered values. -/
def compareBy (op : BinaryOp) (order : Ordering) : Bool :=
  match op with
  | .eq => order == .eq
  | .notEq => order != .eq
  | .lt => order == .lt
  | .ltEq => order != .gt
  | .gt => order == .gt
  | .gtEq => order != .lt
  | _ => false

/-- Integer operations. A shift to the left must lose no bits. -/
def evalInt? (op : BinaryOp) (a b : Int64) : Option Literal :=
  match op with
  | .add => (checkedInt64 (a.toInt + b.toInt)).map int
  | .sub => (checkedInt64 (a.toInt - b.toInt)).map int
  | .mul => (checkedInt64 (a.toInt * b.toInt)).map int
  | .div => if b = 0 then none else (checkedInt64 (a.toInt.tdiv b.toInt)).map int
  | .mod =>
    if b = 0 ∨ (checkedInt64 (a.toInt.tdiv b.toInt)).isNone then none
    else (checkedInt64 (a.toInt.tmod b.toInt)).map int
  | .bitAnd => some (int (a &&& b))
  | .bitOr => some (int (a ||| b))
  | .bitXor => some (int (a ^^^ b))
  | .shl =>
    if 0 ≤ b ∧ b < 64 ∧ (a <<< b) >>> b = a then some (int (a <<< b)) else none
  | .shr => if 0 ≤ b ∧ b < 64 then some (int (a >>> b)) else none
  | .eq | .notEq | .lt | .ltEq | .gt | .gtEq =>
    some (bool (compareBy op (compare a.toInt b.toInt)))
  | .and | .or => none

/-- The order of two floats; there is none with a not-a-number. -/
def compareFloat? (a b : Float) : Option Ordering :=
  if a < b then some .lt else if a == b then some .eq else if a > b then some .gt else none

/-- Float operations. Division by zero is not evaluated. -/
def evalFloat? (op : BinaryOp) (a b : Float) : Option Literal :=
  match op with
  | .add => some (float (a + b).toBits)
  | .sub => some (float (a - b).toBits)
  | .mul => some (float (a * b).toBits)
  | .div => if b == 0.0 then none else some (float (a / b).toBits)
  | .eq | .notEq | .lt | .ltEq | .gt | .gtEq =>
    (compareFloat? a b).map fun order => bool (compareBy op order)
  | _ => none

/-- The value of a binary operation on literals, when it has one. -/
def evalBinary? (op : BinaryOp) (left right : Literal) : Option Literal :=
  match left, right with
  | int a, int b => evalInt? op a b
  | float a, float b => evalFloat? op (Float.ofBits a) (Float.ofBits b)
  | bool a, bool b =>
    match op with
    | .eq => some (bool (a == b))
    | .notEq => some (bool (a != b))
    | .and => some (bool (a && b))
    | .or => some (bool (a || b))
    | _ => none
  | str a, str b =>
    match op with
    | .eq => some (bool (a == b))
    | .notEq => some (bool (a != b))
    | .add => some (str (a ++ b))
    | _ => none
  | _, _ => none

/-- The value of a unary operation on a literal, when it has one. -/
def evalUnary? (op : UnaryOp) (operand : Literal) : Option Literal :=
  match op, operand with
  | .neg, int a => (checkedInt64 (-a.toInt)).map int
  | .neg, float bits => some (float (-(Float.ofBits bits)).toBits)
  | .not, bool a => some (bool !a)
  | .bitNot, int a => some (int (~~~a))
  | _, _ => none

end Literal

/-- Replace the child slots of a node, in evaluation order. -/
def ExprKind.mapChildrenM {m : Type → Type} [Monad m] (replace : ExprRef → m ExprRef) :
    ExprKind → m ExprKind
  | .field receiver name => return .field (← replace receiver) name
  | .call receiver method args => do
    let receiver ← receiver.mapM replace
    return .call receiver method (← args.mapM replace)
  | .new type args => return .new type (← args.mapM replace)
  | .binary op left right => do
    let left ← replace left
    return .binary op left (← replace right)
  | .unary op operand => return .unary op (← replace operand)
  | .ifElse cond thenBranch elseBranch => do
    let cond ← replace cond
    let thenBranch ← replace thenBranch
    return .ifElse cond thenBranch (← replace elseBranch)
  | .matchOn scrutinee arms => do
    let scrutinee ← replace scrutinee
    let arms ← arms.mapM fun arm => return { arm with body := ← replace arm.body }
    return .matchOn scrutinee arms
  | .letIn name type init => return .letIn name type (← replace init)
  | .block items => return .block (← items.mapM replace)
  | kind => return kind

/-- The expressions of a unit and their types, while constants are folded. -/
structure FoldState where
  arena : Arena
  types : IdMap TypeRef
deriving Repr, DecidableEq, Inhabited

abbrev FoldM := StateT FoldState (Except Abort)

namespace FoldM

/-- A literal in place of a node, with the span and type of that node. -/
def replaceBy (index : Nat) (value : Literal) : FoldM ExprRef := do
  let state ← get
  let span ← state.arena.span (.node index)
  let (ref, arena) := state.arena.alloc (.literal value) span
  let types := match state.types.get? index with
    | some type => state.types.insert state.arena.size type
    | none => state.types
  set { arena, types : FoldState }
  return ref

/-- The expression that stands for a node whose children are folded. -/
def simplify (index : Nat) (kind : ExprKind) : FoldM ExprRef := do
  let arena := (← get).arena
  match kind with
  | .ifElse cond thenBranch elseBranch =>
    match ← arena.literal? cond with
    | some (.bool true) => return thenBranch
    | some (.bool false) => return if elseBranch.isPresent then elseBranch else .node index
    | _ => return .node index
  | .binary op left right =>
    let some first ← arena.literal? left | return .node index
    let some second ← arena.literal? right | return .node index
    match Literal.evalBinary? op first second with
    | some value => replaceBy index value
    | none => return .node index
  | .unary op operand =>
    let some value ← arena.literal? operand | return .node index
    match Literal.evalUnary? op value with
    | some value => replaceBy index value
    | none => return .node index
  | _ => return .node index

/-- `fold` by recursion on the nesting depth. -/
def foldWithin : Nat → ExprRef → FoldM ExprRef
  | _, .missing => return .missing
  | 0, .node _ => throw .cyclic
  | depth + 1, .node index => do
    let kind ← (← get).arena.kind (.node index)
    let folded ← kind.mapChildrenM (foldWithin depth)
    if folded ≠ kind then
      let arena ← (← get).arena.setKind (.node index) folded
      modify fun state => { state with arena }
    simplify index folded

/-- Fold the tree at a slot: children first, then the node itself. Nodes stay where they are; a
folded value is a new node, and the slots that led to the old one are changed. -/
def fold (ref : ExprRef) : FoldM ExprRef := do
  foldWithin ((← get).arena.size + 1) ref

end FoldM

/-- Fold the constants in one member. -/
def StageM.foldConstants (id : Nat) : StageM PUnit := do
  let unit := (← get).unit
  let member ← unit.members.get id
  let some body := member.body | return
  let start : FoldState := { arena := unit.arena, types := unit.exprTypes }
  let (root, final) ← (FoldM.fold body).run start
  StageM.modifyUnit fun unit => { unit with arena := final.arena, exprTypes := final.types }
  if root ≠ body then StageM.setMember id (member.setBody root)

end ClassLang
