import ClassLang.Proofs.Source.WellFormed
import ClassLang.Proofs.Stage.Arithmetic

/-! What expressions without calls and objects evaluate to, with the exact integers of 64 bits, and
that constant operations are evaluated alike. -/

namespace ClassLang

/-- What an expression evaluates to: a literal, or nothing. -/
inductive Datum where
  | literal (value : Literal)
  | void
deriving Repr, DecidableEq, Inhabited

/-- Why an evaluation fails. -/
inductive Failure where
  | overflow
  | divisionByZero
  /-- An operand of a kind the operator does not take. -/
  | mismatch
  /-- A name without a value. -/
  | unbound
  /-- A node that is no literal, name, operator, `if` or block. -/
  | unsupported
  /-- A node below itself. -/
  | endless
deriving Repr, DecidableEq, Inhabited

abbrev Outcome := Except Failure Datum

namespace Literal

/-- The integer, if it has 64 bits. -/
def exactly (value : Int) : Except Failure Literal :=
  if Int64.minValue.toInt ≤ value ∧ value ≤ Int64.maxValue.toInt then .ok (int (.ofInt value))
  else .error .overflow

/-- A shift by as many bits as an integer has, or by a negative number, overflows. -/
def shiftBy (amount : Int64) (shifted : Nat → Int) : Except Failure Literal :=
  if 0 ≤ amount.toInt ∧ amount.toInt < 64 then exactly (shifted amount.toInt.toNat)
  else .error .overflow

/-- Operations on integers. A remainder overflows where its quotient does. -/
def applyInt (op : BinaryOp) (a b : Int64) : Except Failure Literal :=
  match op with
  | .add => exactly (a.toInt + b.toInt)
  | .sub => exactly (a.toInt - b.toInt)
  | .mul => exactly (a.toInt * b.toInt)
  | .div => if b.toInt = 0 then .error .divisionByZero else exactly (a.toInt.tdiv b.toInt)
  | .mod =>
    if b.toInt = 0 then .error .divisionByZero
    else exactly (a.toInt.tdiv b.toInt) >>= fun _ => exactly (a.toInt.tmod b.toInt)
  | .bitAnd => .ok (int (a &&& b))
  | .bitOr => .ok (int (a ||| b))
  | .bitXor => .ok (int (a ^^^ b))
  | .shl => shiftBy b fun bits => a.toInt * (Nat.pow 2 bits : Nat)
  | .shr => shiftBy b fun bits => a.toInt / (Nat.pow 2 bits : Nat)
  | .eq => .ok (bool (a.toInt = b.toInt))
  | .notEq => .ok (bool (a.toInt ≠ b.toInt))
  | .lt => .ok (bool (a.toInt < b.toInt))
  | .ltEq => .ok (bool (a.toInt ≤ b.toInt))
  | .gt => .ok (bool (b.toInt < a.toInt))
  | .gtEq => .ok (bool (b.toInt ≤ a.toInt))
  | .and | .or => .error .mismatch

/-- Operations on floats. Values without an order are only unequal. -/
def applyFloat (op : BinaryOp) (a b : Float) : Except Failure Literal :=
  match op with
  | .add => .ok (float (a + b).toBits)
  | .sub => .ok (float (a - b).toBits)
  | .mul => .ok (float (a * b).toBits)
  | .div => .ok (float (a / b).toBits)
  | .eq | .notEq | .lt | .ltEq | .gt | .gtEq =>
    .ok (bool (match compareFloat? a b with
      | some order => compareBy op order
      | none => op = .notEq))
  | _ => .error .mismatch

/-- A binary operation once both operands are known. -/
def applyBinary (op : BinaryOp) : Literal → Literal → Except Failure Literal
  | int a, int b => applyInt op a b
  | float a, float b => applyFloat op (Float.ofBits a) (Float.ofBits b)
  | left, right =>
    match op, left, right with
    | .eq, bool a, bool b => .ok (bool (a == b))
    | .notEq, bool a, bool b => .ok (bool (a != b))
    | .eq, char a, char b => .ok (bool (a == b))
    | .notEq, char a, char b => .ok (bool (a != b))
    | .eq, str a, str b => .ok (bool (a == b))
    | .notEq, str a, str b => .ok (bool (a != b))
    | .add, str a, str b => .ok (str (a ++ b))
    | _, _, _ => .error .mismatch

def applyUnary : UnaryOp → Literal → Except Failure Literal
  | .neg, int a => exactly (-a.toInt)
  | .neg, float bits => .ok (float (-(Float.ofBits bits)).toBits)
  | .not, bool a => .ok (bool !a)
  | .bitNot, int a => .ok (int (~~~a))
  | _, _ => .error .mismatch

/-! Operations that are evaluated beforehand. -/

theorem exactly_of_checked {value : Int} {word : Int64} (found : checkedInt64 value = some word) :
    exactly value = .ok (int word) := by
  unfold checkedInt64 at found
  split at found
  · rename_i range
    cases found
    have inside : Int64.minValue.toInt ≤ value ∧ value ≤ Int64.maxValue.toInt := by
      rw [Int64.toInt_minValue, Int64.toInt_maxValue]
      omega
    exact if_pos inside
  · cases found

theorem exactly_toInt (word : Int64) : exactly word.toInt = .ok (int word) := by
  rw [exactly, if_pos ⟨word.minValue_le_toInt, word.toInt_le⟩, Int64.ofInt_toInt]

theorem shiftBy_of_range {amount : Int64} {shifted : Nat → Int} {word : Int64}
    (range : 0 ≤ amount.toInt ∧ amount.toInt < 64)
    (same : word.toInt = shifted amount.toInt.toNat) : shiftBy amount shifted = .ok (int word) := by
  rw [shiftBy, if_pos range, ← same, exactly_toInt]

theorem applyInt_of_evalInt? {op : BinaryOp} {a b : Int64} {result : Literal}
    (found : evalInt? op a b = some result) : applyInt op a b = .ok result := by
  have zero : b.toInt = 0 ↔ b = 0 :=
    ⟨fun same => Int64.toInt_inj.mp same, fun same => by rw [same]; rfl⟩
  have checked : ∀ value, (checkedInt64 value).map int = some result →
      exactly value = .ok result := by
    intro value mapped
    obtain ⟨word, fits, rfl⟩ := Option.map_eq_some_iff.mp mapped
    exact exactly_of_checked fits
  cases op with
  | add | sub | mul => exact checked _ found
  | div =>
    simp only [evalInt?] at found
    split at found
    · cases found
    · rename_i divides
      simp only [applyInt, zero, divides, if_false]
      exact checked _ found
  | mod =>
    simp only [evalInt?] at found
    split at found
    · cases found
    · rename_i divides
      obtain ⟨divides, fits⟩ := not_or.mp divides
      obtain ⟨quotient, fits⟩ :=
        Option.ne_none_iff_exists'.mp (mt Option.isNone_iff_eq_none.mpr fits)
      simp only [applyInt, zero, divides, if_false, exactly_of_checked fits]
      exact checked _ found
  | bitAnd | bitOr | bitXor => exact congrArg _ (Option.some.inj found)
  | shl =>
    have folded := evalInt?_shl a b
    obtain ⟨word, rfl, same⟩ := folded.value result found
    have defined := folded.defined.mp (Option.isSome_iff_exists.mpr ⟨_, found⟩)
    simp only [applyInt]
    exact shiftBy_of_range defined.1 (same.trans (by simp))
  | shr =>
    have folded := evalInt?_shr a b
    obtain ⟨word, rfl, same⟩ := folded.value result found
    have range := folded.defined.mp (Option.isSome_iff_exists.mpr ⟨_, found⟩)
    simp only [applyInt]
    refine shiftBy_of_range range (same.trans ?_)
    rw [Int.fdiv_eq_ediv_of_nonneg _ (Int.pow_nonneg (by decide))]
    simp
  | eq | notEq | lt | ltEq | gt | gtEq =>
    cases found
    rcases Int.lt_trichotomy a.toInt b.toInt with less | same | more
    · simp [applyInt, compareBy, compare, compareOfLessAndEq, less, Int.ne_of_lt less,
        Int.le_of_lt less]
    · simp [applyInt, compareBy, compare, compareOfLessAndEq, same]
    · simp [applyInt, compareBy, compare, compareOfLessAndEq, more, Int.ne_of_gt more,
        Int.le_of_lt more, Int.lt_asymm more, Int.not_le.mpr more]
  | and | or => cases found

theorem applyFloat_of_evalFloat? {op : BinaryOp} {a b : Float} {result : Literal}
    (found : evalFloat? op a b = some result) : applyFloat op a b = .ok result := by
  cases op with
  | add | sub | mul => exact congrArg _ (Option.some.inj found)
  | div =>
    simp only [evalFloat?] at found
    split at found
    · cases found
    · exact congrArg _ (Option.some.inj found)
  | eq | notEq | lt | ltEq | gt | gtEq =>
    obtain ⟨order, ordered, rfl⟩ := Option.map_eq_some_iff.mp found
    simp only [applyFloat, ordered]
  | mod | and | or | bitAnd | bitOr | bitXor | shl | shr => cases found

/-- An operation that is evaluated beforehand gives what it gives when it is run. -/
theorem applyBinary_of_evalBinary? {op : BinaryOp} {first second result : Literal}
    (eager : op.isLogical = false) (found : evalBinary? op first second = some result) :
    applyBinary op first second = .ok result := by
  cases first with
  | int a =>
    cases second with
    | int b => exact applyInt_of_evalInt? found
    | _ => cases found
  | float a =>
    cases second with
    | float b => exact applyFloat_of_evalFloat? found
    | _ => cases found
  | bool a =>
    cases second with
    | bool b => cases op <;> cases found <;> cases eager <;> rfl
    | _ => cases found
  | str a =>
    cases second with
    | str b => cases op <;> cases found <;> cases eager <;> rfl
    | _ => cases found
  | char => cases found

theorem applyUnary_of_evalUnary? {op : UnaryOp} {operand result : Literal}
    (found : evalUnary? op operand = some result) : applyUnary op operand = .ok result := by
  cases op <;> cases operand <;> try cases found
  · obtain ⟨word, fits, rfl⟩ := Option.map_eq_some_iff.mp found
    exact exactly_of_checked fits
  all_goals rfl

end Literal

namespace Datum

/-- The literal that an operand must be. -/
def operand : Datum → Except Failure Literal
  | literal value => .ok value
  | void => .error .mismatch

/-- The answer that a condition must be. -/
def truth : Datum → Except Failure Bool
  | literal (.bool answer) => .ok answer
  | _ => .error .mismatch

end Datum

/-- What a node evaluates to, given what its slots do. The second operand of `&&` and `||` counts
only if the first leaves the answer open; a block gives what its last item gives. -/
def ExprKind.outcome (names : Name → Option Literal) (value : ExprRef → Outcome) :
    ExprKind → Outcome
  | .literal known => .ok (.literal known)
  | .ident name =>
    match names name with
    | some known => .ok (.literal known)
    | none => .error .unbound
  | .unary op operand => do
    let argument ← (← value operand).operand
    return .literal (← Literal.applyUnary op argument)
  | .binary .and left right => do
    if ← (← value left).truth then return .literal (.bool (← (← value right).truth))
    else return .literal (.bool false)
  | .binary .or left right => do
    if ← (← value left).truth then return .literal (.bool true)
    else return .literal (.bool (← (← value right).truth))
  | .binary op left right => do
    let first ← (← value left).operand
    let second ← (← value right).operand
    return .literal (← Literal.applyBinary op first second)
  | .ifElse cond thenBranch elseBranch => do
    if ← (← value cond).truth then value thenBranch else value elseBranch
  | .block items => items.foldlM (fun _ item => value item) .void
  | _ => .error .unsupported

namespace ExprKind

variable {names : Name → Option Literal} {value : ExprRef → Outcome}

/-- A binary operation on literals that is evaluated beforehand. -/
theorem outcome_binary {op : BinaryOp} {left right : ExprRef} {first second result : Literal}
    (found : Literal.evalBinary? op first second = some result)
    (earlier : value left = .ok (.literal first)) (later : value right = .ok (.literal second)) :
    (binary op left right).outcome names value = .ok (.literal result) := by
  cases logical : op.isLogical with
  | false =>
    have run : (binary op left right).outcome names value = (do
        let first ← (← value left).operand
        let second ← (← value right).operand
        return .literal (← Literal.applyBinary op first second)) := by
      cases op <;> first | rfl | cases logical
    rw [run, earlier, later]
    change (Literal.applyBinary op first second >>= fun known => pure (Datum.literal known)) = _
    rw [Literal.applyBinary_of_evalBinary? logical found]
    rfl
  | true =>
    -- Both operands are known, so it does not matter that the second may not be asked for.
    cases first with
    | bool a =>
      cases second with
      | bool b =>
        cases op <;> cases logical <;> cases found <;> cases a <;>
          simp only [outcome, earlier, later] <;> rfl
      | _ => cases found
    | str => cases op <;> cases logical <;> cases second <;> cases found
    | int => cases op <;> cases logical <;> cases second <;> cases found
    | float => cases op <;> cases logical <;> cases second <;> cases found
    | char => cases found

theorem outcome_unary {op : UnaryOp} {operand : ExprRef} {argument result : Literal}
    (found : Literal.evalUnary? op argument = some result)
    (ran : value operand = .ok (.literal argument)) :
    (unary op operand).outcome names value = .ok (.literal result) := by
  rw [outcome, ran]
  change (Literal.applyUnary op argument >>= fun known => pure (Datum.literal known)) = _
  rw [Literal.applyUnary_of_evalUnary? found]
  rfl

/-! What a node gives depends only on what its slots give. -/

section
variable {first second : ExprRef → Outcome}

theorem outcome_unary_congr {op : UnaryOp} {operand operand' : ExprRef}
    (same : first operand = second operand') :
    (unary op operand).outcome names first = (unary op operand').outcome names second := by
  simp only [outcome, same]

theorem outcome_binary_congr {op : BinaryOp} {left right left' right' : ExprRef}
    (sameLeft : first left = second left') (sameRight : first right = second right') :
    (binary op left right).outcome names first = (binary op left' right').outcome names second := by
  cases op <;> simp only [outcome, sameLeft, sameRight]

theorem outcome_ifElse_congr {cond thenBranch elseBranch cond' thenBranch' elseBranch' : ExprRef}
    (sameCond : first cond = second cond') (sameThen : first thenBranch = second thenBranch')
    (sameElse : first elseBranch = second elseBranch') :
    (ifElse cond thenBranch elseBranch).outcome names first =
      (ifElse cond' thenBranch' elseBranch').outcome names second := by
  simp only [outcome, sameCond, sameThen, sameElse]

theorem outcome_block_congr {items items' : List ExprRef}
    (same : List.Forall₂ (fun item item' => first item = second item') items items') :
    (block items).outcome names first = (block items').outcome names second := by
  suffices ∀ start : Datum, items.foldlM (fun _ item => first item) start =
      items'.foldlM (fun _ item => second item) start from this .void
  induction same with
  | nil => exact fun _ => rfl
  | cons head _ ih =>
    intro start
    rw [List.foldlM_cons, List.foldlM_cons, head]
    exact congrArg _ (funext ih)

end
end ExprKind

namespace Arena

/-- `value` by recursion on the nesting depth. -/
def valueWithin (names : Name → Option Literal) (arena : Arena) : Nat → ExprRef → Outcome
  | _, .missing => .ok .void
  | 0, .node _ => .error .endless
  | depth + 1, .node index =>
    match arena.exprs[index]? with
    | some expr => expr.kind.outcome names (valueWithin names arena depth)
    | none => .error .unsupported

/-- What the expression in a slot evaluates to, where names have values. An empty slot gives
nothing. -/
def value (names : Name → Option Literal) (arena : Arena) (ref : ExprRef) : Outcome :=
  valueWithin names arena (arena.size + 1) ref

end Arena
end ClassLang
