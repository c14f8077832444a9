import ClassLang.Proofs.Annotation
import ClassLang.Proofs.Branches
import ClassLang.Proofs.Stage.ScopedConstants

/-! Folding goes down the subtype relation: what takes the place of an expression has a type that is
reached from that of the expression, through the operands of operations that are evaluated and the
branches that are kept. -/

namespace ClassLang
open CompilationUnit Relation

namespace Literal
variable {op : BinaryOp}

theorem type_of_evalInt {a b : Int64} {value : Literal} (evaluated : evalInt? op a b = some value) :
    if op.isLogical = true ∨ op.isComparison = true then value.type = .bool else
      value.type = .int := by
  cases op <;> simp only [evalInt?, Option.map_eq_some_iff, Option.some.injEq, reduceCtorEq,
    Option.ite_none_left_eq_some, Option.ite_none_right_eq_some] at evaluated <;>
      grind [type, BinaryOp.isLogical, BinaryOp.isComparison]

theorem type_of_evalFloat {a b : Float} {value : Literal}
    (evaluated : evalFloat? op a b = some value) :
    if op.isLogical = true ∨ op.isComparison = true then value.type = .bool else value.type =
      .float := by
  cases op <;> simp only [evalFloat?, Option.map_eq_some_iff, Option.some.injEq, reduceCtorEq,
    Option.ite_none_left_eq_some] at evaluated <;>
      grind [type, BinaryOp.isLogical, BinaryOp.isComparison]

/-- An operation on literals has a truth value, or a value of the type of both. -/
theorem type_of_evalBinary {a b value : Literal} (evaluated : evalBinary? op a b = some value) :
    if op.isLogical = true ∨ op.isComparison = true then value.type = .bool
    else value.type = a.type ∧ value.type = b.type := by
  cases a with
  | int a =>
    cases b with
    | int b => simpa [type] using type_of_evalInt evaluated
    | _ => cases evaluated
  | float a =>
    cases b with
    | float b => simpa [type] using type_of_evalFloat evaluated
    | _ => cases evaluated
  | bool a =>
    cases b with
    | bool b => cases op <;> cases evaluated <;>
        simp [type, BinaryOp.isLogical, BinaryOp.isComparison]
    | _ => cases evaluated
  | str a =>
    cases b with
    | str b => cases op <;> cases evaluated <;>
        simp [type, BinaryOp.isLogical, BinaryOp.isComparison]
    | _ => cases evaluated
  | char a => cases evaluated

theorem type_of_evalUnary {op : UnaryOp} {a value : Literal}
    (evaluated : evalUnary? op a = some value) :
    if op = .not then value.type = .bool else value.type = a.type := by
  cases op <;> cases a <;> simp_all [evalUnary?, type, Option.map_eq_some_iff] <;> grind [type]

end Literal

/-! The way down. -/

namespace Arena

/-- The condition of the `if` is a constant, which selects the branch. -/
def Keeps (origin : Arena) (parent child : Nat) : Prop :=
  ∃ cond thenBranch elseBranch span test answer,
    origin.exprs[parent]? = some ⟨.ifElse cond thenBranch elseBranch, span⟩ ∧
    origin.Reduces cond test ∧ origin.constant? test = some (.bool answer) ∧
    (if answer then thenBranch else elseBranch) = .node child

theorem exists_of_constant? {origin : Arena} {index : Nat} {value : Literal}
    (isLiteral : origin.constant? (.slot (.node index)) = some value) :
    ∃ span, origin.exprs[index]? = some ⟨.literal value, span⟩ := by
  simp only [constant?] at isLiteral
  split at isLiteral
  · rename_i found
    cases isLiteral
    exact ⟨_, found⟩
  · cases isLiteral

/-- What takes the place of the node depends on what takes the place of the other one. -/
inductive Passes (origin : Arena) (parent child : Nat) : Prop where
  | operand {expr : Expr} (found : origin.exprs[parent]? = some expr)
      (operation : expr.kind.isOperation = true) (slot : .node child ∈ expr.kind.slots)
  | branch (keeps : origin.Keeps parent child)

theorem Keeps.hasChild {origin : Arena} {parent child : Nat} (keeps : origin.Keeps parent child) :
    origin.HasChild parent child := by
  obtain ⟨cond, thenBranch, elseBranch, span, _, answer, found, -, -, kept⟩ := keeps
  refine hasChild_of_slot found ?_
  rw [← kept]
  cases answer <;> simp [ExprKind.slots]

theorem Passes.hasChild {origin : Arena} {parent child : Nat}
    (passes : origin.Passes parent child) :
    origin.HasChild parent child := by
  cases passes with
  | operand found operation slot => exact hasChild_of_slot found slot
  | branch keeps => exact keeps.hasChild

end Arena

/-- The node whose type the substitute has. -/
def Substitute.place? : Substitute → Option Nat
  | .slot (.node index) => some index
  | .slot .missing => none
  | .value index _ => some index

namespace Program
variable {program : Program} {sup middle sub : TypeRef}

/-- The type is the other one or above it. -/
def AtLeast (program : Program) (sup sub : TypeRef) : Prop := sup = sub ∨ program.Above sup sub

theorem AtLeast.admits (atLeast : program.AtLeast sup sub) (sound : program.Sound) :
    program.Admits sup sub := by
  rcases atLeast with same | above
  · exact admits_of_eq (.inr same)
  · exact above.decides sound

theorem Composes.atLeast (composes : program.Composes sup middle sub) (sound : program.Sound)
    (first : program.AtLeast sup middle) (second : program.AtLeast middle sub) :
    program.AtLeast sup sub := by
  rcases first with rfl | first
  · exact second
  rcases second with rfl | second
  · exact .inr first
  · exact .inr (composes.above sound first second)

end Program

namespace CompilationUnit

/-- Nodes on the way down are parts of one node, and an `if` yields something just when the branch
that it keeps does. -/
structure Passable (unit declared : CompilationUnit) (index : Nat) : Prop where
  owned : ∀ parent child, ReflTransGen declared.arena.Passes index parent →
    declared.arena.Passes parent child → declared.Owns parent child
  yields : ∀ parent child, ReflTransGen declared.arena.Passes index parent →
    declared.arena.Keeps parent child →
      (unit.exprTypes.get? parent = some .void ↔ unit.exprTypes.get? child = some .void)

/-- The type recorded for the first node admits the one recorded for the second, on which what takes
the place of the first node depends. -/
structure StepsDown (unit declared : CompilationUnit) (admits : TypeRef → TypeRef → Prop)
    (parent child : Nat) : Prop where
  passes : declared.arena.Passes parent child
  types : ∃ sup ∈ unit.exprTypes.get? parent, ∃ sub ∈ unit.exprTypes.get? child, admits sup sub

/-- The types recorded for the two nodes compose with the last one. -/
def Composing (unit : CompilationUnit) (program : Program) (last : TypeRef) (parent child : Nat) :
    Prop :=
  ∀ sup ∈ unit.exprTypes.get? parent, ∀ sub ∈ unit.exprTypes.get? child,
    program.Composes sup sub last

/-- A way down, from a node to the last of the others: their types go down step by step, and the
type of the first node admits that of the last one where the types on the way compose. -/
structure Descends (unit declared : CompilationUnit) (program : Program)
    (admits : TypeRef → TypeRef → Prop) (index : Nat) (nodes : List Nat) (last : Nat)
    (type narrowed : TypeRef) : Prop where
  chain : (index :: nodes).IsChain (unit.StepsDown declared admits)
  ends : (index :: nodes).getLast? = some last
  recorded : unit.exprTypes.get? last = some narrowed
  direct : (index :: nodes).IsChain (unit.Composing program narrowed) → admits type narrowed

/-- There is a way down to the node. -/
abbrev Reaches (unit declared : CompilationUnit) (program : Program) (index last : Nat)
    (type narrowed : TypeRef) : Prop :=
  ∃ nodes, unit.Descends declared program program.AtLeast index nodes last type narrowed

/-- What the type of a node leads to: that of the node which the substitute stands for, and that of
the literal which it is. -/
structure Leads (unit declared : CompilationUnit) (program : Program) (index : Nat) (type : TypeRef)
    (substitute : Substitute) : Prop where
  place : ∀ place, substitute.place? = some place →
    ∃ narrowed, unit.Reaches declared program index place type narrowed
  value : ∀ literal, declared.arena.constant? substitute = some literal →
    ∃ last, unit.Reaches declared program index last type literal.type

variable {unit declared : CompilationUnit} {program : Program} {index last parent child : Nat}
  {type middle narrowed : TypeRef} {ref : ExprRef} {substitute : Substitute} {nodes : List Nat}

theorem Descends.mono {admits looser : TypeRef → TypeRef → Prop}
    (descends : unit.Descends declared program admits index nodes last type narrowed)
    (loosen : ∀ sup sub, admits sup sub → looser sup sub) :
    unit.Descends declared program looser index nodes last type narrowed where
  chain := descends.chain.imp fun _ _ ⟨passes, sup, isSup, sub, isSub, step⟩ =>
    ⟨passes, sup, isSup, sub, isSub, loosen sup sub step⟩
  ends := descends.ends
  recorded := descends.recorded
  direct composing := loosen _ _ (descends.direct composing)

theorem Reaches.self (recorded : unit.exprTypes.get? index = some type) :
    unit.Reaches declared program index index type type :=
  ⟨[], .singleton _, rfl, recorded, fun _ => .inl rfl⟩

/-- One step before a way down. -/
theorem Reaches.step (sound : program.Sound) (passes : declared.arena.Passes index child)
    (recorded : unit.exprTypes.get? index = some type)
    (there : unit.exprTypes.get? child = some middle) (atLeast : program.AtLeast type middle)
    (rest : unit.Reaches declared program child last middle narrowed) :
    unit.Reaches declared program index last type narrowed := by
  obtain ⟨nodes, descends⟩ := rest
  refine ⟨child :: nodes, ?_, List.getLast?_cons_cons.trans descends.ends, descends.recorded,
    fun composing => ?_⟩
  · exact descends.chain.cons_cons ⟨passes, type, recorded, middle, there, atLeast⟩
  · obtain ⟨first, composing⟩ := List.isChain_cons_cons.mp composing
    have composes := first type recorded middle there
    exact composes.atLeast sound atLeast (descends.direct composing)

theorem Passable.descend (passable : unit.Passable declared parent)
    (passes : declared.arena.Passes parent child) : unit.Passable declared child :=
  ⟨fun _ _ path => passable.owned _ _ (.head passes path),
    fun _ _ path => passable.yields _ _ (.head passes path)⟩

section
variable (coherent : declared.arena.Coherent program.typeRule declared.Owns (fun _ => False)
  unit.exprTypes)
include coherent

/-- The type of an `if` is at least that of the branch that is kept, as far as both yield
something. -/
theorem keeps_atLeast (keeps : declared.arena.Keeps parent child) (own : declared.Owns parent child)
    (yields : unit.exprTypes.get? parent = some .void ↔ unit.exprTypes.get? child = some .void)
    (recorded : unit.exprTypes.get? parent = some type) :
    ∃ branchType, unit.exprTypes.get? child = some branchType ∧
    program.AtLeast type branchType := by
  obtain ⟨cond, thenBranch, elseBranch, span, test, answer, found, -, -, kept⟩ := keeps
  obtain ⟨slotTypes, slots, typed⟩ := coherent parent _ type found not_false recorded
  match slotTypes, slots with
  | [_, thenType, elseType], .cons _ (.cons isThen (.cons isElse .nil)) =>
    obtain ⟨branchType, listed, there⟩ : ∃ branchType ∈ [thenType, elseType],
        unit.exprTypes.get? child = some branchType := by
      cases answer with
      | true =>
        obtain rfl : thenBranch = .node child := kept
        exact ⟨thenType, List.mem_cons_self, isThen own⟩
      | false =>
        obtain rfl : elseBranch = .node child := kept
        exact ⟨elseType, by simp, isElse own⟩
    refine ⟨branchType, there, ?_⟩
    rw [recorded, there, Option.some.injEq, Option.some.injEq] at yields
    by_cases nothing : branchType = .void
    · exact .inl ((yields.mpr nothing).trans nothing.symm)
    cases elseBranch with
    | missing => exact absurd (yields.mp typed) nothing
    | node other => exact Joins.above_of_pair typed (by simp) branchType listed nothing

omit coherent in
/-- An operand that is a constant: the type of its slot leads to that of the constant, and so does
the type of the operation, which is that of the slot or the widest one. -/
theorem Reaches.of_operand (sound : program.Sound)
    (held : ∀ index type, unit.exprTypes.get? index = some type → program.pool.Has type)
    {expr : Expr} {slotType : TypeRef} {literal : Literal}
    (leads : ∀ {child slotType}, ref = .node child → unit.Passable declared child →
      unit.exprTypes.get? child = some slotType →
        unit.Leads declared program child slotType substitute)
    (passable : unit.Passable declared index) (found : declared.arena.exprs[index]? = some expr)
    (operation : expr.kind.isOperation = true) (slot : ref ∈ expr.kind.slots)
    (typed : Arena.SlotTyped declared.Owns unit.exprTypes index ref slotType)
    (reduces : declared.arena.Reduces ref substitute)
    (isLiteral : declared.arena.constant? substitute = some literal)
    (recorded : unit.exprTypes.get? index = some type) (yields : type = .any ∨ type = slotType) :
    ∃ last, unit.Reaches declared program index last type literal.type := by
  cases ref with
  | missing =>
    cases reduces.of_missing
    cases isLiteral
  | node child =>
    have passes : declared.arena.Passes index child := .operand found operation slot
    have there := typed (passable.owned index child .refl passes)
    obtain ⟨last, reaches⟩ := (leads rfl (passable.descend passes) there).value literal isLiteral
    refine ⟨last, reaches.step sound passes recorded there ?_⟩
    rcases yields with rfl | same
    · exact .inr (Program.above_any sound.pool (held child slotType there))
    · exact .inl same

/-- The type of an operation leads to that of the literal which it gives. -/
theorem binary_reaches {op : BinaryOp} {left right : ExprRef} {span : Span} {a b value : Literal}
    (found : declared.arena.exprs[index]? = some ⟨.binary op left right, span⟩)
    (recorded : unit.exprTypes.get? index = some type)
    (evaluated : Literal.evalBinary? op a b = some value)
    (ofLeft : ∀ leftType, Arena.SlotTyped declared.Owns unit.exprTypes index left leftType →
      type = .any ∨ type = leftType → ∃ last, unit.Reaches declared program index last type a.type)
    (ofRight : ∀ rightType, Arena.SlotTyped declared.Owns unit.exprTypes index right rightType →
      type = .any ∨ type = rightType →
        ∃ last, unit.Reaches declared program index last type b.type) :
    ∃ last, unit.Reaches declared program index last type value.type := by
  obtain ⟨slotTypes, slots, typed⟩ := coherent index _ type found not_false recorded
  match slotTypes, slots with
  | [leftType, rightType], .cons isLeft (.cons isRight .nil) =>
    have yields : op.Yields leftType rightType type := typed
    have valueType := Literal.type_of_evalBinary evaluated
    unfold BinaryOp.Yields at yields
    split at yields
    · rename_i truth
      rw [if_pos truth] at valueType
      rw [valueType, ← yields]
      exact ⟨index, .self recorded⟩
    · rename_i other
      rw [if_neg other] at valueType
      rcases yields with any | left | right
      · exact valueType.1 ▸ ofLeft leftType isLeft (.inl any)
      · exact valueType.1 ▸ ofLeft leftType isLeft (.inr left)
      · exact valueType.2 ▸ ofRight rightType isRight (.inr right)

theorem unary_reaches {op : UnaryOp} {operand : ExprRef} {span : Span} {a value : Literal}
    (found : declared.arena.exprs[index]? = some ⟨.unary op operand, span⟩)
    (recorded : unit.exprTypes.get? index = some type)
    (evaluated : Literal.evalUnary? op a = some value)
    (ofOperand : ∀ operandType,
      Arena.SlotTyped declared.Owns unit.exprTypes index operand operandType →
        type = .any ∨ type = operandType →
          ∃ last, unit.Reaches declared program index last type a.type) :
    ∃ last, unit.Reaches declared program index last type value.type := by
  obtain ⟨slotTypes, slots, typed⟩ := coherent index _ type found not_false recorded
  match slotTypes, slots with
  | [operandType], .cons isOperand .nil =>
    have yields : op.Yields operandType type := typed
    have valueType := Literal.type_of_evalUnary evaluated
    unfold UnaryOp.Yields at yields
    split at yields
    · rename_i truth
      rw [if_pos truth] at valueType
      rw [valueType, ← yields]
      exact ⟨index, .self recorded⟩
    · rename_i other
      rw [if_neg other] at valueType
      exact valueType ▸ ofOperand operandType isOperand yields

/-- An `if` leads to what the branch leads to that it keeps. -/
theorem Leads.of_branch (sound : program.Sound) (keeps : declared.arena.Keeps index child)
    (passable : unit.Passable declared index) (recorded : unit.exprTypes.get? index = some type)
    (below : ∀ {branchType}, unit.Passable declared child →
      unit.exprTypes.get? child = some branchType →
        unit.Leads declared program child branchType substitute) :
    unit.Leads declared program index type substitute := by
  have passes : declared.arena.Passes index child := .branch keeps
  obtain ⟨branchType, there, atLeast⟩ := keeps_atLeast coherent keeps
    (passable.owned index child .refl passes) (passable.yields index child .refl keeps) recorded
  obtain ⟨place, value⟩ := below (passable.descend passes) there
  constructor
  case place =>
    intro other same
    obtain ⟨narrowed, reaches⟩ := place other same
    exact ⟨narrowed, reaches.step sound passes recorded there atLeast⟩
  case value =>
    intro literal isLiteral
    obtain ⟨last, reaches⟩ := value literal isLiteral
    exact ⟨last, reaches.step sound passes recorded there atLeast⟩

omit coherent in
/-- A node whose own type the substitute has. -/
theorem Leads.of_place (place : substitute.place? = some index)
    (recorded : unit.exprTypes.get? index = some type)
    (value : ∀ literal, declared.arena.constant? substitute = some literal →
      ∃ last, unit.Reaches declared program index last type literal.type) :
    unit.Leads declared program index type substitute := by
  refine ⟨fun other same => ?_, value⟩
  cases place.symm.trans same
  exact ⟨type, .self recorded⟩

/-- The type of a node leads to that of what takes its place. -/
theorem reduces_leads (sound : program.Sound)
    (held : ∀ index type, unit.exprTypes.get? index = some type → program.pool.Has type)
    (reduces : declared.arena.Reduces ref substitute) (same : ref = .node index)
    (passable : unit.Passable declared index) (recorded : unit.exprTypes.get? index = some type) :
    unit.Leads declared program index type substitute := by
  induction reduces generalizing index type with
  | itself ref =>
    subst same
    refine .of_place rfl recorded fun literal isLiteral => ?_
    obtain ⟨span, found⟩ := Arena.exists_of_constant? isLiteral
    obtain ⟨_, _, typed⟩ := coherent index _ type found not_false recorded
    cases (typed : type = literal.type)
    exact ⟨index, .self recorded⟩
  | @binary node op left right span first second a b value found earlier later isFirst
      isSecond evaluated ofLeft ofRight =>
    cases same
    refine .of_place rfl recorded fun literal isLiteral => ?_
    cases isLiteral
    refine binary_reaches coherent found recorded evaluated (fun leftType typed => ?_)
      fun rightType typed => ?_
    · exact Reaches.of_operand sound held ofLeft passable found rfl List.mem_cons_self typed earlier
        isFirst recorded
    · exact Reaches.of_operand sound held ofRight passable found rfl
        (List.mem_cons_of_mem _ List.mem_cons_self) typed later isSecond recorded
  | @unary node op operand span substitute a value found earlier isFirst evaluated ofOperand =>
    cases same
    refine .of_place rfl recorded fun literal isLiteral => ?_
    cases isLiteral
    refine unary_reaches coherent found recorded evaluated fun operandType typed => ?_
    exact Reaches.of_operand sound held ofOperand passable found rfl List.mem_cons_self typed
      earlier isFirst recorded
  | @branch node cond thenBranch elseBranch span test kept answer found earlier decided
      present later _ ofBranch =>
    cases same
    cases taken : (if answer then thenBranch else elseBranch) with
    | missing =>
      rw [taken] at later
      cases later.of_missing
      exact ⟨nofun, nofun⟩
    | node child =>
      have keeps : declared.arena.Keeps node child :=
        ⟨cond, thenBranch, elseBranch, span, test, answer, found, earlier, decided, taken⟩
      exact .of_branch coherent sound keeps passable recorded (ofBranch taken)

end

/-- Another node takes the place of a declared one: in a slot of a node, or as the body of a
member. -/
inductive Replaces (unit declared : CompilationUnit) (index result : Nat) : Prop where
  | slot {parent place : Nat} {before after : Expr}
      (found : declared.arena.exprs[parent]? = some before)
      (now : unit.arena.exprs[parent]? = some after)
      (held : before.kind.slots[place]? = some (.node index))
      (holds : after.kind.slots[place]? = some (.node result)) (apart : result ≠ index)
  | body {id : Nat} {before after : Member} (found : declared.members.members[id]? = some before)
      (now : unit.members.members[id]? = some after) (held : before.body = some (.node index))
      (holds : after.body = some (.node result)) (apart : result ≠ index)

/-- The body of the member is the node. -/
def HasBody (unit : CompilationUnit) (id index : Nat) : Prop :=
  ∃ member, unit.members.members[id]? = some member ∧ member.body = some (.node index)

instance (unit : CompilationUnit) (id index : Nat) : Decidable (unit.HasBody id index) :=
  inferInstanceAs
    (Decidable (∃ member, unit.members.members[id]? = some member ∧
      member.body = some (.node index)))

/-- A way down leads from a node to what takes its place, or to the node whose type a new literal
has, and one leads to the type of the literal. A branch that is kept as it is has a type that is
admitted without more ado, and the literal for an operation has its type. -/
structure Narrows (unit declared : CompilationUnit) (program : Program) (index result : Nat)
    (type narrowed : TypeRef) : Prop where
  descends : ∃ nodes last, (result < declared.arena.size → last = result) ∧
    unit.Descends declared program program.Admits index nodes last type narrowed
  literal : declared.arena.size ≤ result → ∃ value span,
    unit.arena.exprs[result]? = some ⟨.literal value, span⟩ ∧ ∃ nodes last,
      unit.Descends declared program program.Admits index nodes last type value.type
  kept : declared.arena.Keeps index result → program.Admits type narrowed
  operation : ∀ expr, declared.arena.exprs[index]? = some expr → expr.kind.isOperation = true →
    narrowed = type

variable {result : Nat}

theorem Replaces.apart (replaces : unit.Replaces declared index result) : result ≠ index := by
  cases replaces <;> assumption

theorem Replaces.of_hasBody {id : Nat} (before : declared.HasBody id index)
    (after : unit.HasBody id result) (apart : result ≠ index) :
    unit.Replaces declared index result := by
  obtain ⟨_, found, held⟩ := before
  obtain ⟨_, now, holds⟩ := after
  exact .body found now held holds apart

theorem HasBody.inBody {id : Nat} (has : unit.HasBody id index) : unit.InBody index := by
  obtain ⟨member, found, written⟩ := has
  exact ⟨id, member, .node index, found, written, index, rfl, .refl⟩

/-- Nothing is replaced before constants are folded. -/
theorem Written.not_replaces (written : unit.Written declared) :
    ¬ unit.Replaces declared index result := by
  rintro (⟨found, now, held, holds, apart⟩ | ⟨found, now, held, holds, apart⟩)
  · rw [written.arena] at now
    cases found.symm.trans now
    cases held.symm.trans holds
    exact apart rfl
  · obtain ⟨member, present, same⟩ := written.exists_member found
    cases now.symm.trans present
    cases held.symm.trans (same.trans holds)
    exact apart rfl

/-- What takes the place of a node stands for it. -/
theorem Replaces.stands {types : IdMap TypeRef} (replaces : unit.Replaces declared index result)
    (closed : declared.arena.Closed) (refolds : unit.Refolds declared types) :
    unit.folding.Stands declared.arena (.node index) (.node result) := by
  cases replaces with
  | @slot parent place before after found now held holds apart =>
    obtain ⟨refs, span, present, stands⟩ := refolds.nodes.nodes closed parent before found
    cases now.symm.trans present
    rw [ExprKind.slots_withSlots stands.length_eq.symm] at holds
    obtain ⟨inside, held⟩ := List.getElem?_eq_some_iff.mp held
    obtain ⟨also, holds⟩ := List.getElem?_eq_some_iff.mp holds
    have standing := (List.forall₂_iff_get.mp stands).2 place inside also
    rwa [List.get_eq_getElem, List.get_eq_getElem, held, holds] at standing
  | body found now held holds apart => exact refolds.bodies closed _ _ _ _ _ found now held holds

theorem Derives.narrows (derives : unit.Derives program declared) (sound : program.Sound)
    (mentions : unit.progress ≠ .unresolved → ∀ type, unit.Mentions type → program.pool.Has type)
    (closed : declared.arena.Closed) (below : declared.InBody index)
    (replaces : unit.Replaces declared index result) (passable : unit.Passable declared index) :
    ∃ type narrowed, unit.exprTypes.get? index = some type ∧
      unit.exprTypes.get? result = some narrowed ∧
        unit.Narrows declared program index result type narrowed := by
  have folded : unit.progress = .constantsFolded := by
    by_contra open_
    exact (derives.open_ open_).1.not_replaces replaces
  obtain ⟨id, member, body, found, hasBody, contained⟩ := below
  obtain ⟨type, recorded⟩ := Option.isSome_iff_exists.mp
    (derives.recorded (by rw [folded]; decide) id member found body hasBody index contained)
  obtain ⟨substitute, reduces, holds⟩ := replaces.stands closed (derives.folded folded)
  have coherent := derives.coherent program (.refl sound.pool)
  have held (node : Nat) (type : TypeRef) (stored : unit.exprTypes.get? node = some type) :
      program.pool.Has type := mentions (by rw [folded]; nofun) type (.expr stored)
  obtain ⟨place, value⟩ := reduces_leads coherent sound held reduces rfl passable recorded
  have kept {narrowed : TypeRef} (stored : unit.exprTypes.get? result = some narrowed)
      (keeps : declared.arena.Keeps index result) : program.Admits type narrowed := by
    obtain ⟨branchType, there, atLeast⟩ := keeps_atLeast coherent keeps
      (passable.owned index result .refl (.branch keeps)) (passable.yields index result .refl keeps)
      recorded
    cases stored.symm.trans there
    exact atLeast.admits sound
  have admits {nodes : List Nat} {last : Nat} {narrowed : TypeRef}
      (descends : unit.Descends declared program program.AtLeast index nodes last type narrowed) :
      unit.Descends declared program program.Admits index nodes last type narrowed :=
    descends.mono fun _ _ atLeast => atLeast.admits sound
  cases substitute with
  | slot ref =>
    cases holds
    have apart : Substitute.slot (.node result) ≠ .slot (.node index) := fun same => by
      cases same
      exact replaces.apart rfl
    have inside := reduces.slot_lt closed fun _ same =>
      ExprRef.node.inj same ▸ reduces.lt_of_apart apart
    obtain ⟨narrowed, nodes, descends⟩ := place result rfl
    refine ⟨type, narrowed, recorded, descends.recorded,
      ⟨nodes, result, fun _ => rfl, admits descends⟩,
      fun outside => absurd outside (Nat.not_le_of_lt inside), kept descends.recorded,
      fun expr there operation => ?_⟩
    cases reduces with
    | itself => exact absurd rfl apart
    | branch found =>
      cases there.symm.trans found
      cases operation
  | value source literal =>
    obtain ⟨new, span, same, outside, present, types⟩ := holds
    cases same
    obtain ⟨narrowed, nodes, descends⟩ := place source rfl
    obtain ⟨last, way, below⟩ := value literal rfl
    have stored : unit.exprTypes.get? result = some narrowed := types.trans descends.recorded
    refine ⟨type, narrowed, recorded, stored,
      ⟨nodes, source, fun inside => absurd inside (Nat.not_lt_of_le outside), admits descends⟩,
      fun _ => ⟨literal, span, present, way, last, admits below⟩, kept stored,
      fun expr there operation => ?_⟩
    cases reduces with
    | binary | unary => exact Option.some.inj (descends.recorded.symm.trans recorded)
    | branch found =>
      cases there.symm.trans found
      cases operation

end CompilationUnit

namespace Session
variable {config : SessionConfig} {sources : List SourceUnit} {done : Session}

/-- Folding goes down the subtype relation, in every unit whose slots are filled. -/
theorem replacements_narrow (ran : compile { config, sources } = .ok (.ok done)) :
    List.Forall₂ (fun declared unit => declared.arena.WellFormed → ∀ index result,
      declared.InBody index →
        unit.Replaces declared index result → unit.Passable declared index → ∃ type narrowed,
          unit.exprTypes.get? index = some type ∧ unit.exprTypes.get? result = some narrowed ∧
            unit.Narrows declared done.program index result type narrowed)
      (declareUnits { config, sources }).1 done.units := by
  obtain ⟨sound, _, derive⟩ := run_derives ran
  obtain ⟨_, _, _, _, holds, _⟩ :=
    (@run_holds False sources config nofun).ensures done (Except.ok.inj ran)
  have mentions : ∀ unit ∈ done.units, unit.progress ≠ .unresolved → ∀ type, unit.Mentions type →
      done.program.pool.Has type := by
    intro unit member
    obtain ⟨_, _, stands, _⟩ := holds.units.exists_source member
    exact stands.mentions
  refine (((List.forall₂_and_left _ _).mpr ⟨mentions, derive.flip⟩).imp ?_).flip
  rintro unit declared ⟨mentions, -, derives⟩ wellFormed index result
  exact derives.narrows sound mentions wellFormed.children

/-- Methods whose bodies are folded: a sum in a branch, an `if` without an else branch, one in a
branch of another, and one with a branch that is the body of the next method as well. -/
def foldingUnit : SourceUnit where
  name := "main"
  classes := [{ name := "Main", span := ⟨0, 4⟩, methods := [
    { name := "sum", span := ⟨33, 34⟩, returns := .named "int" [] ⟨31, 32⟩,
      body := some (.node 19) },
    { name := "lone", span := ⟨7, 8⟩, returns := .named "void" [] ⟨5, 6⟩, body := some (.node 2) },
    { name := "nested", span := ⟨11, 12⟩, returns := .named "int" [] ⟨9, 10⟩,
      body := some (.node 9) },
    { name := "first", span := ⟨19, 20⟩, returns := .named "int" [] ⟨17, 18⟩,
      body := some (.node 13)
      params := [{ name := "x", type := .named "int" [] ⟨13, 14⟩, span := ⟨15, 16⟩ }] },
    { name := "second", span := ⟨27, 28⟩, returns := .named "void" [] ⟨25, 26⟩,
      body := some (.node 11)
      params := [{ name := "x", type := .named "string" [] ⟨21, 22⟩, span := ⟨23, 24⟩ }] }] }]
  arena := {
    exprs := #[⟨.literal (.bool true), ⟨100, 101⟩⟩, ⟨.literal (.int 1), ⟨102, 103⟩⟩,
      ⟨.ifElse (.node 0) (.node 1) .missing, ⟨100, 103⟩⟩, ⟨.literal (.bool false), ⟨110, 111⟩⟩,
      ⟨.literal (.int 1), ⟨112, 113⟩⟩, ⟨.literal (.bool true), ⟨114, 115⟩⟩,
      ⟨.literal (.float 4609434218613702656), ⟨116, 117⟩⟩, ⟨.literal (.str "s"), ⟨118, 119⟩⟩,
      ⟨.ifElse (.node 5) (.node 6) (.node 7), ⟨114, 119⟩⟩,
      ⟨.ifElse (.node 3) (.node 4) (.node 8), ⟨110, 119⟩⟩, ⟨.literal (.bool true), ⟨120, 121⟩⟩,
      ⟨.ident "x", ⟨122, 123⟩⟩, ⟨.literal (.int 0), ⟨124, 125⟩⟩,
      ⟨.ifElse (.node 10) (.node 11) (.node 12), ⟨120, 125⟩⟩, ⟨.literal (.bool true), ⟨130, 131⟩⟩,
      ⟨.literal (.int 1), ⟨132, 133⟩⟩, ⟨.literal (.int 2), ⟨134, 135⟩⟩,
      ⟨.binary .add (.node 15) (.node 16), ⟨132, 135⟩⟩, ⟨.literal (.int 4), ⟨136, 137⟩⟩,
      ⟨.ifElse (.node 14) (.node 17) (.node 18), ⟨130, 137⟩⟩] }

theorem foldingUnit_wellFormed : foldingUnit.WellFormed where
  arena := Arena.Ordered.wellFormed (by constructor <;> decide)
  bodies body member := by
    have listed : body ∈ (List.range foldingUnit.arena.size).map ExprRef.node :=
      (by decide : ∀ body ∈ foldingUnit.bodies,
        body ∈ (List.range foldingUnit.arena.size).map ExprRef.node) body member
    obtain ⟨index, inside, rfl⟩ := List.mem_map.mp listed
    exact ⟨index, List.mem_range.mp inside, rfl⟩
  grounded decl member := by
    rw [List.mem_singleton.mp member]
    exact ClassDecl.grounded_of_free (by decide)

/-- The nodes of the body of `sum`. -/
def sumNodes : List Nat := [14, 15, 16, 17, 18, 19]

/-- The body of `sum` is replaced by its first branch, and that by the literal for the sum. -/
theorem replacements_narrow_sum : ∃ done, compile { sources := [foldingUnit] } = .ok (.ok done) ∧
    done.errorCount = 0 ∧
      List.Forall₂ (fun declared unit => declared.arena.WellFormed ∧ declared.InBody 19 ∧
        unit.Replaces declared 19 20 ∧ unit.Passable declared 19 ∧ ∃ type narrowed,
          unit.exprTypes.get? 19 = some type ∧ unit.exprTypes.get? 20 = some narrowed ∧
            unit.Narrows declared done.program 19 20 type narrowed)
      (declareUnits { sources := [foldingUnit] }).1 done.units := by
  let declareds := (declareUnits { sources := [foldingUnit] }).1
  obtain ⟨done, ran, clean, bodies⟩ :=
    exists_run { sources := [foldingUnit] } (fun done => done.errorCount = 0 ∧
    ∀ pair ∈ declareds.zip done.units, pair.1.HasBody 1 19 ∧ pair.2.HasBody 1 20 ∧
      ∀ node ∈ sumNodes, pair.2.exprTypes.get? node ≠ some .void) (by decide +kernel)
  have origins : ∀ declared ∈ declareds, declared.arena = foldingUnit.arena ∧ ∀ parent ∈ sumNodes,
      ∀ child ∈ sumNodes, declared.arena.HasChild parent child → declared.Owns parent child := by
    decide +kernel
  have ran : compile { sources := [foldingUnit] } = .ok (.ok done) := congrArg Except.ok ran
  obtain ⟨size, narrows⟩ := List.forall₂_iff_zip.mp (replacements_narrow ran)
  refine ⟨done, ran, clean, List.forall₂_iff_zip.mpr ⟨size, fun {declared unit} listed => ?_⟩⟩
  obtain ⟨before, after, yields⟩ := bodies (declared, unit) listed
  obtain ⟨arena, owned⟩ := origins declared (List.of_mem_zip listed).1
  have within {node : Nat} (path : ReflTransGen declared.arena.Passes 19 node) :
      node ∈ sumNodes := by
    have contained : foldingUnit.arena.Contains (.node 19) node :=
      ⟨19, rfl, ReflTransGen.mono (fun _ _ passes => arena ▸ passes.hasChild) _ _ path⟩
    exact contained.mem (by decide) (by decide)
  have passable : unit.Passable declared 19 :=
    ⟨fun parent child path passes =>
      owned parent (within path) child (within (path.tail passes)) passes.hasChild,
      fun parent child path keeps => iff_of_false (yields parent (within path))
        (yields child (within (path.tail (.branch keeps))))⟩
  have wellFormed : declared.arena.WellFormed := arena ▸ foldingUnit_wellFormed.arena
  have replaces : unit.Replaces declared 19 20 := .of_hasBody before after (by decide)
  exact ⟨wellFormed, before.inBody, replaces, passable,
    narrows listed wellFormed 19 20 before.inBody replaces passable⟩

/-- Two conditions that are constants: of the first two parameters the first one is kept, or the
second one. -/
def nestedNodes (start : Nat) (first : Bool) : List Expr :=
  [⟨.literal (.bool true), ⟨0, 1⟩⟩, ⟨.literal (.bool first), ⟨0, 1⟩⟩, ⟨.ident "a", ⟨0, 1⟩⟩,
    ⟨.ident "b", ⟨0, 1⟩⟩,
    ⟨.ifElse (.node (start + 1)) (.node (start + 2)) (.node (start + 3)), ⟨0, 1⟩⟩,
    ⟨.ident "c", ⟨0, 1⟩⟩, ⟨.ifElse (.node start) (.node (start + 4)) (.node (start + 5)), ⟨0, 1⟩⟩]

/-- Branches of branches, of which the types do not compose. -/
def nestedUnit : SourceUnit where
  name := "main"
  classes := overtakenClasses fun position => .node (7 * position + 6)
  arena := {
    exprs := ([true, false, true, true, true, false].mapIdx fun position first =>
      nestedNodes (7 * position) first).flatten.toArray
    patterns := #[] }

theorem nestedUnit_wellFormed : nestedUnit.WellFormed where
  arena := Arena.Ordered.wellFormed (by constructor <;> decide)
  bodies body member := by
    have listed : body ∈ (List.range nestedUnit.arena.size).map ExprRef.node :=
      (by decide : ∀ body ∈ nestedUnit.bodies,
        body ∈ (List.range nestedUnit.arena.size).map ExprRef.node) body member
    obtain ⟨index, inside, rfl⟩ := List.mem_map.mp listed
    exact ⟨index, List.mem_range.mp inside, rfl⟩
  grounded decl member := ClassDecl.grounded_of_measure (fun name => 33 - name.length)
    ((by decide +kernel : ∀ decl ∈ nestedUnit.classes,
      ∀ params ∈ decl.typeParams :: decl.methods.map (·.typeParams), ∀ param ∈ params,
        ∀ bound ∈ param.boundName?, bound ∈ params.map (·.name) →
          33 - bound.length < 33 - param.name.length) decl member)

/-- Without errors, the bodies of members are replaced by nodes with types that those of the bodies
do not admit. An entry names a member, and its body at first and in the end. -/
def Widens (source : SourceUnit) (entries : List (Nat × Nat × Nat)) : Prop :=
  ∃ done, compile { sources := [source] } = .ok (.ok done) ∧ done.errorCount = 0 ∧
    ∀ entry ∈ entries, List.Forall₂ (fun declared unit => declared.InBody entry.2.1 ∧
        unit.Replaces declared entry.2.1 entry.2.2 ∧ ∃ type narrowed,
          unit.exprTypes.get? entry.2.1 = some type ∧
          unit.exprTypes.get? entry.2.2 = some narrowed ∧
            ¬ done.program.Admits type narrowed)
      (declareUnits { sources := [source] }).1 done.units

/-- The entry of a member is another one in the end, of a type that is denied. -/
def WidensBody (done : Session) (entry : Nat × Nat × Nat)
    (declared unit : CompilationUnit) : Prop :=
  entry.2.2 ≠ entry.2.1 ∧ declared.HasBody entry.1 entry.2.1 ∧ unit.HasBody entry.1 entry.2.2 ∧
    ∃ type ∈ unit.exprTypes.get? entry.2.1, ∃ narrowed ∈ unit.exprTypes.get? entry.2.2,
      done.program.denies type narrowed = true

instance (done : Session) (entry : Nat × Nat × Nat) (declared unit : CompilationUnit) :
    Decidable (done.WidensBody entry declared unit) :=
  inferInstanceAs (Decidable (_ ∧ _))

theorem widens_of_denied {source : SourceUnit} {entries : List (Nat × Nat × Nat)}
    (denied : ∃ done, run { sources := [source] } = .ok done ∧ done.errorCount = 0 ∧
      (declareUnits { sources := [source] }).1.length = done.units.length ∧ ∀ entry ∈ entries,
        ∀ pair ∈ (declareUnits { sources := [source] }).1.zip done.units,
          done.WidensBody entry pair.1 pair.2) : Widens source entries := by
  obtain ⟨done, ran, clean, size, denied⟩ := denied
  refine ⟨done, congrArg Except.ok ran, clean, fun entry member =>
    List.forall₂_iff_zip.mpr ⟨size, fun {declared unit} listed => ?_⟩⟩
  obtain ⟨apart, before, after, type, recorded, narrowed, inside, denied⟩ :=
    denied entry member (declared, unit) listed
  exact ⟨before.inBody, .of_hasBody before after apart, type, narrowed, recorded, inside,
    Program.not_admits_of_denies denied⟩

/-- An `if` without an else branch, one whose type is that of a branch that is not kept, and one
whose branch is resolved again elsewhere; and branches of branches, of which the types do not
compose: the type of the node does not admit that of what takes its place. -/
theorem replacements_widen : foldingUnit.WellFormed ∧ nestedUnit.WellFormed ∧
    Widens foldingUnit [(2, 2, 1), (3, 9, 6), (4, 13, 11)] ∧
      Widens nestedUnit
        [(9, 6, 2), (10, 13, 10), (11, 20, 16), (12, 27, 23), (13, 34, 30), (14, 41, 38)] := by
  refine ⟨foldingUnit_wellFormed, nestedUnit_wellFormed, ?_, ?_⟩
  · exact widens_of_denied (exists_run _ _ (by decide +kernel))
  · exact widens_of_denied (exists_run _ _ (by decide +kernel))

end Session
end ClassLang
