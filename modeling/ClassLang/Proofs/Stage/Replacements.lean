import ClassLang.Proofs.Stage.Folding
import ClassLang.Proofs.Stage.VisitedMembers

/-! What folding puts in place of an expression, told from the arena before: the expression itself,
what the branch that its condition selects is folded to, or a new literal for an operation on
literals. The arena after folding has the nodes it had with such substitutes in their slots, and new
nodes are literals with the types of the operations they stand for. -/

namespace ClassLang

namespace ExprKind

theorem withSlots_withSlots {kind : ExprKind} {refs others : List ExprRef}
    (length : refs.length = kind.slots.length) (same : others.length = kind.slots.length) :
    (kind.withSlots refs).withSlots others = kind.withSlots others := by
  cases kind with
  | literal | ident | this | error => rfl
  | field | unary | letIn =>
    obtain ⟨_, rfl⟩ := List.length_eq_one_iff.mp length
    obtain ⟨_, rfl⟩ := List.length_eq_one_iff.mp same
    rfl
  | binary =>
    obtain ⟨_, _, rfl⟩ := List.length_eq_two.mp length
    obtain ⟨_, _, rfl⟩ := List.length_eq_two.mp same
    rfl
  | ifElse =>
    obtain ⟨_, _, _, rfl⟩ := List.length_eq_three.mp length
    obtain ⟨_, _, _, rfl⟩ := List.length_eq_three.mp same
    rfl
  | new | block => rfl
  | call receiver =>
    cases receiver with
    | none => rfl
    | some =>
      obtain ⟨_, _, rfl⟩ := List.exists_cons_of_length_eq_add_one length
      obtain ⟨_, _, rfl⟩ := List.exists_cons_of_length_eq_add_one same
      rfl
  | matchOn scrutinee arms =>
    obtain ⟨_, bodies, rfl⟩ := List.exists_cons_of_length_eq_add_one length
    obtain ⟨_, others, rfl⟩ := List.exists_cons_of_length_eq_add_one same
    have fits : bodies.length = arms.length := by simpa [slots, children] using length
    simp only [withSlots, matchOn.injEq, true_and]
    clear length same
    induction arms generalizing bodies others with
    | nil => rfl
    | cons arm arms ih =>
      obtain ⟨body, bodies, rfl⟩ := List.exists_cons_of_length_eq_add_one fits
      cases others with
      | nil => rfl
      | cons other others =>
        simp only [List.zipWith_cons_cons, List.cons.injEq, true_and]
        exact ih bodies others (by simpa using fits)

/-- The node before is the one with the slots of before, and the slots are those of the node. -/
theorem eq_of_withSlots {kind folded : ExprKind} {refs : List ExprRef}
    (same : kind.withSlots refs = folded) (length : refs.length = kind.slots.length) :
    kind = folded.withSlots kind.slots ∧ refs = folded.slots := by
  subst same
  exact ⟨(withSlots_slots kind).symm.trans (withSlots_withSlots length rfl).symm,
    (slots_withSlots length).symm⟩

end ExprKind

/-- All slots of nodes are filled from the arena. -/
def Arena.Closed (arena : Arena) : Prop := ∀ parent child, arena.HasChild parent child →
    child < arena.size

/-- What takes the place of an expression: one that was there, or a new literal for the node. -/
inductive Substitute where
  | slot (ref : ExprRef)
  | value (index : Nat) (literal : Literal)
deriving Repr, DecidableEq

namespace Arena

/-- The literal that the substitute is, if it is one. -/
def constant? (origin : Arena) : Substitute → Option Literal
  | .slot (.node index) =>
    match origin.exprs[index]? with
    | some ⟨.literal value, _⟩ => some value
    | _ => none
  | .slot .missing => none
  | .value _ literal => some literal

/-- What the expression in a slot is folded to, before and after its parts are. -/
inductive Reduces (origin : Arena) : ExprRef → Substitute → Prop where
  | itself (ref : ExprRef) : Reduces origin ref (.slot ref)
  | binary {index : Nat} {op : BinaryOp} {left right : ExprRef} {span : Span}
      {first second : Substitute} {a b value : Literal}
      (found : origin.exprs[index]? = some ⟨.binary op left right, span⟩)
      (one : Reduces origin left first) (two : Reduces origin right second)
      (isFirst : origin.constant? first = some a) (isSecond : origin.constant? second = some b)
      (evaluated : Literal.evalBinary? op a b = some value) :
      Reduces origin (.node index) (.value index value)
  | unary {index : Nat} {op : UnaryOp} {operand : ExprRef} {span : Span} {substitute : Substitute}
      {a value : Literal} (found : origin.exprs[index]? = some ⟨.unary op operand, span⟩)
      (one : Reduces origin operand substitute) (isFirst : origin.constant? substitute = some a)
      (evaluated : Literal.evalUnary? op a = some value) :
      Reduces origin (.node index) (.value index value)
  | branch {index : Nat} {cond thenBranch elseBranch : ExprRef} {span : Span}
      {test kept : Substitute} {answer : Bool}
      (found : origin.exprs[index]? = some ⟨.ifElse cond thenBranch elseBranch, span⟩)
      (one : Reduces origin cond test) (decided : origin.constant? test = some (.bool answer))
      (present : answer = false → elseBranch.isPresent = true)
      (two : Reduces origin (if answer then thenBranch else elseBranch) kept) :
      Reduces origin (.node index) kept

variable {origin : Arena} {ref middle : ExprRef} {substitute : Substitute}

theorem Reduces.trans (earlier : origin.Reduces ref (.slot middle))
    (later : origin.Reduces middle substitute) :
    origin.Reduces ref substitute := by
  generalize same : Substitute.slot middle = first at earlier
  induction earlier with
  | itself ref =>
    cases same
    exact later
  | binary | unary => cases same
  | branch found earlier decided present _ _ ih =>
    exact .branch found earlier decided present (ih same)

/-- Nothing takes the place of an empty slot. -/
theorem Reduces.of_missing (reduces : origin.Reduces .missing substitute) :
    substitute = .slot .missing := by
  cases reduces
  rfl

/-- A node in whose place another expression is put is in the arena. -/
theorem Reduces.lt_of_apart {index : Nat} (reduces : origin.Reduces (.node index) substitute)
    (apart : substitute ≠ .slot (.node index)) : index < origin.size := by
  cases reduces with
  | itself => exact absurd rfl apart
  | binary found | unary found | branch found => exact (Array.getElem?_eq_some_iff.mp found).1

/-- New literals stand for nodes of the arena. -/
theorem Reduces.value_lt {index : Nat} {literal : Literal}
    (reduces : origin.Reduces ref (.value index literal)) : index < origin.size := by
  generalize same : Substitute.value index literal = result at reduces
  induction reduces with
  | itself => cases same
  | binary found | unary found =>
    cases same
    exact (Array.getElem?_eq_some_iff.mp found).1
  | branch _ _ _ _ _ _ ih => exact ih same

/-- Where slots are filled, what is kept of a node is a node. -/
theorem Reduces.slot_lt {index : Nat} (closed : origin.Closed)
    (reduces : origin.Reduces ref (.slot (.node index)))
    (inside : ∀ place, ref = .node place → place < origin.size) :
    index < origin.size := by
  generalize same : Substitute.slot (.node index) = result at reduces
  induction reduces with
  | itself =>
    cases same
    exact inside index rfl
  | binary | unary => cases same
  | @branch place cond thenBranch elseBranch span test kept answer found _ _ _ _ _ ih =>
    refine ih (fun child slot => closed place child (hasChild_of_slot found ?_)) same
    cases answer with
    | true => exact slot ▸ List.mem_cons_of_mem _ List.mem_cons_self
    | false => exact slot ▸ List.mem_cons_of_mem _ (List.mem_cons_of_mem _ List.mem_cons_self)

end Arena

namespace FoldState

/-- The slot holds what takes the place of an expression; a new literal has the type of the node. -/
def Holds (state : FoldState) (origin : Arena) : Substitute → ExprRef → Prop
  | .slot ref, result => result = ref
  | .value index literal, result => ∃ new span, result = .node new ∧ origin.size ≤ new ∧
      state.arena.exprs[new]? = some ⟨.literal literal, span⟩ ∧
      state.types.get? new = state.types.get? index

/-- The slot `result` holds what takes the place of `ref`. -/
def Stands (state : FoldState) (origin : Arena) (ref result : ExprRef) : Prop :=
  ∃ substitute, origin.Reduces ref substitute ∧ state.Holds origin substitute result

/-- New literals stay, and types are recorded for new nodes only. -/
structure Grows (origin : Arena) (before after : FoldState) : Prop where
  size : before.arena.size ≤ after.arena.size
  exprs : ∀ (index : Nat) (expr : Expr), origin.size ≤ index →
    before.arena.exprs[index]? = some expr → after.arena.exprs[index]? = some expr
  types : ∀ index < before.arena.size, after.types.get? index = before.types.get? index

/-- The arena has grown from the origin, and if slots of the origin are filled, its nodes have
substitutes in their slots. -/
structure Refines (origin : Arena) (state : FoldState) : Prop where
  size : origin.size ≤ state.arena.size
  inside : ∀ index, (state.types.get? index).isSome → index < state.arena.size
  added : ∀ (index : Nat) (expr : Expr), origin.size ≤ index →
    state.arena.exprs[index]? = some expr → ∃ value, expr.kind = .literal value
  nodes : origin.Closed → ∀ (index : Nat) (expr : Expr), origin.exprs[index]? = some expr →
    ∃ refs span, state.arena.exprs[index]? = some ⟨expr.kind.withSlots refs, span⟩ ∧
      List.Forall₂ (state.Stands origin) expr.kind.slots refs

variable {origin : Arena} {before middle after state : FoldState} {ref between result : ExprRef}

namespace Grows

theorem refl (state : FoldState) : Grows origin state state :=
  ⟨Nat.le_refl _, fun _ _ _ found => found, fun _ _ => rfl⟩

theorem trans (earlier : Grows origin before middle) (later : Grows origin middle after) :
    Grows origin before after :=
  ⟨Nat.le_trans earlier.size later.size, fun index expr new found =>
    later.exprs index expr new (earlier.exprs index expr new found),
    fun index inside => (later.types index (Nat.lt_of_lt_of_le inside earlier.size)).trans
      (earlier.types index inside)⟩

theorem stands (grows : Grows origin before after) (size : origin.size ≤ before.arena.size)
    (stands : before.Stands origin ref result) : after.Stands origin ref result := by
  obtain ⟨substitute, reduces, holds⟩ := stands
  refine ⟨substitute, reduces, ?_⟩
  cases substitute with
  | slot => exact holds
  | value index literal =>
    obtain ⟨new, span, same, outside, found, typed⟩ := holds
    have newer := (Array.getElem?_eq_some_iff.mp found).1
    have older := Nat.lt_of_lt_of_le reduces.value_lt size
    exact ⟨new, span, same, outside, grows.exprs new _ outside found,
      (grows.types new newer).trans (typed.trans (grows.types index older).symm)⟩

theorem stands_all (grows : Grows origin before after) (size : origin.size ≤ before.arena.size)
    {refs results : List ExprRef} (stands : List.Forall₂ (before.Stands origin) refs results) :
    List.Forall₂ (after.Stands origin) refs results :=
  stands.imp fun _ _ => grows.stands size

end Grows

namespace Stands

theorem refl (ref : ExprRef) : state.Stands origin ref ref := ⟨.slot ref, .itself ref, rfl⟩

/-- What is folded again stands for what was folded at first. -/
theorem trans (earlier : state.Stands origin ref between)
    (later : state.Stands origin between result) :
    state.Stands origin ref result := by
  obtain ⟨first, reduces, holds⟩ := earlier
  cases first with
  | slot kept =>
    cases holds
    obtain ⟨second, more, held⟩ := later
    exact ⟨second, reduces.trans more, held⟩
  | value index literal =>
    obtain ⟨new, span, rfl, outside, found, typed⟩ := holds
    obtain ⟨second, more, held⟩ := later
    have none : origin.exprs[new]? = none := Array.getElem?_eq_none outside
    cases more with
    | itself =>
      cases held
      exact ⟨.value index literal, reduces, new, span, rfl, outside, found, typed⟩
    | binary other | unary other | branch other => cases none.symm.trans other

theorem trans_all {refs middles results : List ExprRef}
    (earlier : List.Forall₂ (state.Stands origin) refs middles)
    (later : List.Forall₂ (state.Stands origin) middles results) :
    List.Forall₂ (state.Stands origin) refs results := by
  induction earlier generalizing results with
  | nil => exact later
  | cons first _ ih =>
    cases later with
    | cons second others => exact .cons (first.trans second) (ih others)

end Stands

/-- A literal in the slot is the constant that takes the place of the expression. -/
theorem Refines.constant? (refines : state.Refines origin) (closed : origin.Closed)
    (inside : ∀ place, ref = .node place → place < origin.size) {value : Literal}
    (stands : state.Stands origin ref result)
    (literal : state.arena.literal? result = .ok (some value)) :
    ∃ substitute, origin.Reduces ref substitute ∧ origin.constant? substitute = some value := by
  obtain ⟨substitute, reduces, holds⟩ := stands
  refine ⟨substitute, reduces, ?_⟩
  have read {place : Nat} (same : result = .node place) :
      ∃ span, state.arena.exprs[place]? = some ⟨.literal value, span⟩ := by
    subst same
    obtain ⟨kind, asked, answer⟩ := Except.bind_eq_ok literal
    obtain ⟨⟨_, span⟩, found, rfl⟩ := Arena.lookup_of_map asked
    dsimp only at answer
    split at answer
    · cases answer
      exact ⟨span, found⟩
    · cases answer
  cases substitute with
  | slot kept =>
    cases holds
    cases result with
    | missing => cases literal
    | node place =>
      obtain ⟨span, there⟩ := read rfl
      obtain ⟨expr, found⟩ : ∃ expr, origin.exprs[place]? = some expr :=
        ⟨_, Array.getElem?_eq_getElem (reduces.slot_lt closed inside)⟩
      obtain ⟨refs, _, present, stands⟩ := refines.nodes closed place expr found
      have kind := congrArg Expr.kind (Option.some.inj (present.symm.trans there))
      have kind : expr.kind = .literal value :=
        (ExprKind.eq_of_withSlots kind stands.length_eq.symm).1
      obtain ⟨_, span⟩ := expr
      cases kind
      simp [Arena.constant?, found]
  | value index literal =>
    obtain ⟨new, span, same, _, found, _⟩ := holds
    obtain ⟨_, there⟩ := read same
    cases found.symm.trans there
    rfl

end FoldState

theorem Arena.exprs_of_setKind {arena after : Arena} {index : Nat} {kind : ExprKind}
    (changed : arena.setKind (.node index) kind = .ok after) :
    ∃ old, arena.exprs[index]? = some old ∧
      ∀ other : Nat, after.exprs[other]? = if index = other then some { old with kind } else
        arena.exprs[other]? := by
  unfold Arena.setKind at changed
  cases found : arena.exprs[index]? with
  | none => simp [found] at changed
  | some old =>
    simp only [found] at changed
    cases changed
    refine ⟨old, rfl, fun other => ?_⟩
    rw [Array.getElem?_setIfInBounds]
    split
    · rename_i same
      subst same
      rw [if_pos (Array.getElem?_eq_some_iff.mp found).1]
    · rfl

namespace Arena
variable {arena : Arena} {kind : ExprKind} {value : Literal}

/-- An operation on literals that has a value is replaced by it. -/
theorem exists_of_replacement_value (replaced : arena.replacement kind = .ok (.value value)) :
    (∃ op left right a b, kind = .binary op left right ∧ arena.literal? left = .ok (some a) ∧
      arena.literal? right = .ok (some b) ∧ Literal.evalBinary? op a b = some value) ∨
      ∃ op operand a, kind = .unary op operand ∧ arena.literal? operand = .ok (some a) ∧
        Literal.evalUnary? op a = some value := by
  cases kind with
  | ifElse cond thenBranch elseBranch =>
    obtain ⟨answer, _, chosen⟩ := Except.bind_eq_ok replaced
    split at chosen
    · cases chosen
    · split at chosen <;> cases chosen
    · cases chosen
  | binary op left right =>
    obtain ⟨first, readFirst, chosen⟩ := Except.bind_eq_ok replaced
    cases first with
    | none => cases chosen
    | some first =>
      obtain ⟨second, readSecond, chosen⟩ := Except.bind_eq_ok chosen
      cases second with
      | none => cases chosen
      | some second =>
        cases evaluated : Literal.evalBinary? op first second with
        | none => simp [evaluated] at chosen
        | some result =>
          simp only [evaluated, Option.map_some, Option.getD_some] at chosen
          cases chosen
          exact .inl ⟨op, left, right, first, second, rfl, readFirst, readSecond, evaluated⟩
  | unary op operand =>
    obtain ⟨answer, read, chosen⟩ := Except.bind_eq_ok replaced
    cases answer with
    | none => cases chosen
    | some answer =>
      cases evaluated : Literal.evalUnary? op answer with
      | none => simp [evaluated] at chosen
      | some result =>
        simp only [evaluated, Option.map_some, Option.getD_some] at chosen
        cases chosen
        exact .inr ⟨op, operand, answer, rfl, read, evaluated⟩
  | _ => cases replaced

end Arena

namespace FoldM
open FoldState

variable {origin : Arena} {state between after : FoldState} {index depth : Nat}
    {ref result : ExprRef}
  {kind : ExprKind} {refs results : List ExprRef}

/-- A new literal stands for the node that it replaces. -/
theorem replaceBy_refines {value : Literal} (refines : state.Refines origin)
    (inside : index < origin.size) (ran : (replaceBy index value).run state = .ok (result, after)) :
    after.Refines origin ∧ Grows origin state after ∧
    after.Holds origin (.value index value) result := by
  obtain ⟨span, allocated, recorded⟩ := replaceBy_run ran
  obtain rfl : .node state.arena.size = result := congrArg Prod.fst allocated
  have pushed : after.arena.exprs = state.arena.exprs.push ⟨.literal value, span⟩ :=
    congrArg (·.2.exprs) allocated.symm
  have exprs (place : Nat) : after.arena.exprs[place]? =
      if place = state.arena.size then some ⟨.literal value, span⟩ else
        state.arena.exprs[place]? := by
    rw [pushed]
    exact Array.getElem?_push
  have types (place : Nat) : after.types.get? place =
      if place = state.arena.size then state.types.get? index else state.types.get? place := by
    rw [recorded]
    cases state.types.get? index with
    | some type => simp only [IdMap.get?_insert, eq_comm]
    | none =>
      by_cases same : place = state.arena.size
      · subst same
        rw [if_pos rfl, Option.eq_none_iff_forall_ne_some]
        intro type there
        exact Nat.lt_irrefl _ (refines.inside state.arena.size (there ▸ rfl))
      · rw [if_neg same]
  have size : after.arena.size = state.arena.size + 1 := by
    rw [Arena.size, pushed, Array.size_push, Arena.size]
  have older {place : Nat} {expr : Expr} (found : state.arena.exprs[place]? = some expr) :
      after.arena.exprs[place]? = some expr := by
    have apart : place ≠ state.arena.size := Nat.ne_of_lt (Array.getElem?_eq_some_iff.mp found).1
    rw [exprs, if_neg apart, found]
  have grows : Grows origin state after :=
    ⟨Nat.le_of_lt (size ▸ Nat.lt_succ_self _), fun place expr _ => older, fun place below =>
      (types place).trans (if_neg (Nat.ne_of_lt below))⟩
  have apart : index ≠ state.arena.size := Nat.ne_of_lt (Nat.lt_of_lt_of_le inside refines.size)
  have newest : after.types.get? state.arena.size = after.types.get? index := by
    rw [types, types, if_pos rfl, if_neg apart]
  refine ⟨⟨Nat.le_trans refines.size grows.size, fun place recorded => ?_,
    fun place expr new found => ?_,
    fun closed place expr found => ?_⟩, grows, state.arena.size, span, rfl, refines.size,
    (exprs _).trans (if_pos rfl), newest⟩
  · rw [types] at recorded
    rw [size]
    split at recorded
    · omega
    · exact Nat.lt_succ_of_lt (refines.inside place recorded)
  · rw [exprs] at found
    split at found
    · cases found
      exact ⟨value, rfl⟩
    · exact refines.added place expr new found
  · obtain ⟨refs, span, there, stands⟩ := refines.nodes closed place expr found
    exact ⟨refs, span, older there, grows.stands_all refines.size stands⟩

/-- The node has substitutes in its slots. -/
abbrev Renewed (origin : Arena) (state : FoldState) (index : Nat) (kind : ExprKind) : Prop :=
  ∃ original, origin.exprs[index]? = some original ∧ ∃ refs, kind = original.kind.withSlots refs ∧
    List.Forall₂ (state.Stands origin) original.kind.slots refs

/-- The node before, with the slots for which those of the node stand. -/
theorem Renewed.exists_slots (renewed : Renewed origin state index kind) :
    ∃ span slots, origin.exprs[index]? = some ⟨kind.withSlots slots, span⟩ ∧
      List.Forall₂ (state.Stands origin) slots kind.slots := by
  obtain ⟨⟨original, span⟩, found, refs, same, stands⟩ := renewed
  obtain ⟨before, rfl⟩ := ExprKind.eq_of_withSlots same.symm stands.length_eq.symm
  exact ⟨span, original.slots, before ▸ found, stands⟩

/-- What a node is replaced by stands for it. -/
theorem simplify_refines (refines : state.Refines origin) (inside : index < origin.size)
    (renewed : origin.Closed → Renewed origin state index kind)
    (ran : (simplify index kind).run state = .ok (result, after)) :
    after.Refines origin ∧ Grows origin state after ∧
    (origin.Closed → after.Stands origin (.node index) result) := by
  rw [simplify_run] at ran
  cases replaced : state.arena.replacement kind with
  | error fault =>
    rw [replaced] at ran
    cases ran
  | ok replacement =>
    rw [replaced] at ran
    cases replacement with
    | itself =>
      cases ran
      exact ⟨refines, .refl _, fun _ => .refl _⟩
    | branch kept =>
      cases ran
      refine ⟨refines, .refl _, fun closed => ?_⟩
      obtain ⟨cond, thenBranch, elseBranch, answer, rfl, read, present, rfl⟩ :=
        Arena.exists_of_replacement_branch replaced
      obtain ⟨span, slots, found, stands⟩ := (renewed closed).exists_slots
      match slots, stands with
      | [condBefore, thenBefore, elseBefore], .cons ofCond (.cons ofThen (.cons ofElse .nil)) =>
        have inside : ∀ place, condBefore = .node place → place < origin.size := by
          rintro place rfl
          exact closed index place (Arena.hasChild_of_slot found List.mem_cons_self)
        obtain ⟨test, earlier, decided⟩ := refines.constant? closed inside ofCond read
        obtain ⟨substitute, later, holds⟩ :
            state.Stands origin (if answer then thenBefore else elseBefore)
            (if answer then thenBranch else elseBranch) := by cases answer <;> assumption
        refine ⟨substitute, .branch found earlier decided (fun rejected => ?_) later, holds⟩
        subst rejected
        cases elseBefore with
        | node => rfl
        | missing =>
          cases later.of_missing
          cases holds
          exact present rfl
    | value value =>
      obtain ⟨refinesAfter, grows, holds⟩ := replaceBy_refines refines inside ran
      refine ⟨refinesAfter, grows, fun closed => ⟨.value index value, ?_, holds⟩⟩
      obtain ⟨span, slots, found, stands⟩ := (renewed closed).exists_slots
      have inside {ref : ExprRef} (slot : ref ∈ (kind.withSlots slots).slots) :
          ∀ place, ref = .node place → place < origin.size := by
        rintro place rfl
        exact closed index place (Arena.hasChild_of_slot found slot)
      rcases Arena.exists_of_replacement_value replaced with
        ⟨op, left, right, a, b, rfl, readLeft, readRight, evaluated⟩ |
          ⟨op, operand, a, rfl, read, evaluated⟩
      · match slots, stands with
        | [leftBefore, rightBefore], .cons ofLeft (.cons ofRight .nil) =>
          obtain ⟨first, earlier, isFirst⟩ :=
            refines.constant? closed (inside List.mem_cons_self) ofLeft readLeft
          obtain ⟨second, later, isSecond⟩ :=
            refines.constant? closed (inside (List.mem_cons_of_mem _ List.mem_cons_self))
              ofRight readRight
          exact .binary found earlier later isFirst isSecond evaluated
      · match slots, stands with
        | [before], .cons ofOperand .nil =>
          obtain ⟨substitute, earlier, isFirst⟩ :=
            refines.constant? closed (inside List.mem_cons_self) ofOperand read
          exact .unary found earlier isFirst evaluated

/-- A node of before gets substitutes in its slots. -/
theorem setKind_refines {arena : Arena} (refines : state.Refines origin)
    (inside : index < origin.size) (renewed : origin.Closed → Renewed origin state index kind)
    (written : state.arena.setKind (.node index) kind = .ok arena) :
    Refines origin { state with arena } ∧ Grows origin state { state with arena } := by
  obtain ⟨old, found, exprs⟩ := Arena.exprs_of_setKind written
  obtain ⟨_, _, size, -, -⟩ := Arena.lookup_of_setKind written
  have newer {place : Nat} (new : origin.size ≤ place) :
      arena.exprs[place]? = state.arena.exprs[place]? := by
    rw [exprs, if_neg (by omega)]
  have grows : Grows origin state { state with arena } :=
    ⟨Nat.le_of_eq size.symm, fun place expr new there => (newer new).trans there, fun _ _ => rfl⟩
  refine ⟨⟨Nat.le_trans refines.size grows.size, fun place recorded => ?_,
    fun place expr new there => ?_,
    fun closed place expr there => ?_⟩, grows⟩
  · exact Nat.lt_of_lt_of_le (refines.inside place recorded) grows.size
  · exact refines.added place expr new ((newer new).symm.trans there)
  · by_cases same : index = place
    · subst same
      obtain ⟨original, stored, refs, rfl, stands⟩ := renewed closed
      cases there.symm.trans stored
      exact ⟨refs, old.span, (exprs index).trans (if_pos rfl), grows.stands_all refines.size stands⟩
    · obtain ⟨refs, span, present, stands⟩ := refines.nodes closed place expr there
      exact ⟨refs, span, (exprs place).trans ((if_neg same).trans present),
        grows.stands_all refines.size stands⟩

theorem mapM_refines
    (each : ∀ ref ∈ refs, ∀ (state after : FoldState) (result : ExprRef), state.Refines origin →
      (foldWithin depth ref).run state = .ok (result, after) →
      after.Refines origin ∧ Grows origin state after ∧
      (origin.Closed → after.Stands origin ref result))
    (refines : state.Refines origin)
    (ran : (refs.mapM (foldWithin depth)).run state = .ok (results, after)) :
    after.Refines origin ∧ Grows origin state after ∧ results.length = refs.length ∧
      (origin.Closed → List.Forall₂ (after.Stands origin) refs results) := by
  induction refs generalizing state results with
  | nil =>
    cases ran
    exact ⟨refines, .refl _, rfl, fun _ => .nil⟩
  | cons ref refs ih =>
    rw [List.mapM_cons] at ran
    obtain ⟨⟨result, between⟩, first, ran⟩ := Except.bind_eq_ok ran
    obtain ⟨⟨others, _⟩, rest, same⟩ := Except.bind_eq_ok ran
    cases same
    obtain ⟨refinesBetween, grows, stands⟩ :=
      each ref List.mem_cons_self state between result refines first
    obtain ⟨refinesAfter, more, length, others⟩ :=
      ih (fun other member => each other (List.mem_cons_of_mem _ member)) refinesBetween rest
    exact ⟨refinesAfter, grows.trans more, congrArg (· + 1) length, fun closed =>
      .cons (more.stands refinesBetween.size (stands closed)) (others closed)⟩

/-- Folding keeps the arena refined, and what it ends with stands for the slot. -/
theorem foldWithin_refines :
    ∀ (depth : Nat) (ref : ExprRef) (state after : FoldState) (result : ExprRef),
      state.Refines origin → (foldWithin depth ref).run state = .ok (result, after) →
      after.Refines origin ∧ Grows origin state after ∧
      (origin.Closed → after.Stands origin ref result)
  | 0, .missing, _, _, _, refines, ran | _ + 1, .missing, _, _, _, refines, ran => by
    cases ran
    exact ⟨refines, .refl _, fun _ => .refl _⟩
  | 0, .node _, _, _, _, _, ran => nomatch ran
  | depth + 1, .node index, state, after, result, refines, ran => by
    cases found : state.arena.exprs[index]? with
    | none =>
      unfold foldWithin at ran
      rw [StateT.run_bind, StateT.run_get, pure_bind] at ran
      have unknown : state.arena.kind (.node index) = .error .outOfRange := by
        simp [Arena.kind, Arena.expr, found, Except.map]
      rw [unknown] at ran
      cases ran
    | some expr =>
      obtain ⟨refs, between, arena, mapped, written, simplified⟩ := foldWithin_run found ran
      obtain ⟨refinesBetween, grows, length, stands⟩ := mapM_refines
        (fun ref _ state after result => foldWithin_refines depth ref state after result)
        refines mapped
      by_cases inside : index < origin.size
      · have renewed (closed : origin.Closed) :
            Renewed origin between index (expr.kind.withSlots refs) := by
          obtain ⟨original, stored⟩ : ∃ original, origin.exprs[index]? = some original :=
            ⟨_, Array.getElem?_eq_getElem inside⟩
          obtain ⟨first, span, present, ofSlots⟩ := refines.nodes closed index original stored
          cases found.symm.trans present
          have fits : first.length = original.kind.slots.length := ofSlots.length_eq.symm
          have more := stands closed
          rw [ExprKind.slots_withSlots fits] at length more
          exact ⟨original, stored, refs, ExprKind.withSlots_withSlots fits (length.trans fits),
            FoldState.Stands.trans_all (grows.stands_all refines.size ofSlots) more⟩
        rcases written with ⟨-, rfl⟩ | ⟨-, written⟩
        · obtain ⟨refinesAfter, more, result⟩ :=
            simplify_refines refinesBetween inside renewed simplified
          exact ⟨refinesAfter, grows.trans more, result⟩
        · obtain ⟨refinesWritten, change⟩ := setKind_refines refinesBetween inside renewed written
          have renewed (closed : origin.Closed) :
              Renewed origin { between with arena } index (expr.kind.withSlots refs) := by
            obtain ⟨original, stored, refs, same, ofSlots⟩ := renewed closed
            exact ⟨original, stored, refs, same, change.stands_all refinesBetween.size ofSlots⟩
          obtain ⟨refinesAfter, more, result⟩ :=
            simplify_refines refinesWritten inside renewed simplified
          exact ⟨refinesAfter, (grows.trans change).trans more, result⟩
      -- A literal that is new is left as it is.
      · obtain ⟨value, literal⟩ := refines.added index expr (Nat.le_of_not_lt inside) found
        rw [literal] at mapped written simplified
        cases mapped
        rcases written with ⟨-, rfl⟩ | ⟨differs, -⟩
        · cases simplified
          exact ⟨refines, .refl _, fun _ => .refl _⟩
        · exact absurd rfl differs

theorem fold_refines (refines : state.Refines origin)
    (ran : (fold ref).run state = .ok (result, after)) : after.Refines origin ∧
    Grows origin state after ∧ (origin.Closed → after.Stands origin ref result) :=
  foldWithin_refines _ ref state after result refines ran

end FoldM

namespace CompilationUnit

/-- The unit and its types, as constants are folded. -/
abbrev folding (unit : CompilationUnit) : FoldState :=
  { arena := unit.arena, types := unit.exprTypes }

/-- Nodes and bodies of the declared unit were replaced by what stands for them, and the types of
its nodes were left alone. -/
structure Refolds (unit declared : CompilationUnit) (types : IdMap TypeRef) : Prop where
  nodes : unit.folding.Refines declared.arena
  types : ∀ index < declared.arena.size, unit.exprTypes.get? index = types.get? index
  bodies : declared.arena.Closed → ∀ (id : Nat) (original member : Member) (body result : ExprRef),
    declared.members.members[id]? = some original → unit.members.members[id]? = some member →
    original.body = some body → member.body = some result →
    unit.folding.Stands declared.arena body result

variable {unit declared : CompilationUnit} {program : Program} {types : IdMap TypeRef}

/-- Before constants are folded. -/
theorem Written.refolds (written : unit.Written declared)
    (coheres : unit.Coheres program declared) : unit.Refolds declared unit.exprTypes := by
  have size : declared.arena.size = unit.arena.size := by rw [written.arena]
  refine ⟨⟨Nat.le_of_eq size, fun index isSome => size ▸ coheres.inside index isSome,
    fun index expr outside found => ?_,
    fun _ index expr found =>
      ⟨expr.kind.slots, expr.span, ?_, List.forall₂_same.mpr fun ref _ => .refl ref⟩⟩,
    fun _ _ => rfl, fun _ id original member body result there found hasBody hasResult => ?_⟩
  · have inside : index < unit.arena.size := (Array.getElem?_eq_some_iff.mp found).1
    omega
  · rw [ExprKind.withSlots_slots, ← found]
    exact congrArg (·.exprs[index]?) written.arena
  · obtain ⟨member, present, same⟩ := written.exists_member there
    cases found.symm.trans present
    cases hasBody.symm.trans (same.trans hasResult)
    exact .refl body

/-- A member takes the place of one, whose body stands for the same. -/
theorem Refolds.set {id : Nat} {member later : Member} (refolds : unit.Refolds declared types)
    (found : unit.members.members[id]? = some member)
    (stands : declared.arena.Closed → ∀ (original : Member) (body result : ExprRef),
      declared.members.members[id]? = some original → original.body = some body →
      later.body = some result → unit.folding.Stands declared.arena body result) :
    { unit with members := unit.members.set id later }.Refolds declared types := by
  refine ⟨refolds.nodes, refolds.types,
    fun closed place original other body result there present hasBody hasResult => ?_⟩
  rw [MemberArena.lookup_set found] at present
  split at present
  · subst place
    cases present
    exact stands closed original body result there hasBody hasResult
  · exact refolds.bodies closed place original other body result there present hasBody hasResult

/-- Folding leaves coherent types coherent. -/
theorem Refolds.coheres {before : CompilationUnit}
    (refolds : unit.Refolds declared before.exprTypes) (coheres : before.Coheres program declared) :
    ∀ later, program.Enters later → declared.arena.Coherent later.typeRule declared.Owns
      (fun _ => False) unit.exprTypes := by
  intro later enters index expr type found notLam recorded
  have inside : index < declared.arena.size := (Array.getElem?_eq_some_iff.mp found).1
  obtain ⟨slotTypes, slots, typed⟩ := coheres.coherent later enters index expr type found notLam
    ((refolds.types index inside).symm.trans recorded)
  refine ⟨slotTypes, slots.imp fun ref slotType typed => ?_, typed⟩
  cases ref with
  | missing => exact typed
  | node child =>
    intro own
    have there := typed own
    exact (refolds.types child (coheres.inside child (there ▸ rfl))).trans there

end CompilationUnit

namespace StageM
variable {declared : CompilationUnit} {types : IdMap TypeRef}

/-- What folding keeps of the declared unit. -/
abbrev refolding (declared : CompilationUnit) (types : IdMap TypeRef) : Promise StageM :=
  Keeping fun work => work.unit.Refolds declared types

theorem foldConstants_refolds (id : Nat) : (refolding declared types).holds
    (foldConstants id) fun _ => True := by
  refine foldConstants_keeps (·.Refolds declared types)
    fun unit member body root final refolds found written ran => ?_
  obtain ⟨nodes, grows, stands⟩ := FoldM.fold_refines refolds.nodes ran
  have kept : { unit with arena := final.arena, exprTypes := final.types }.Refolds declared types :=
    ⟨nodes, fun index inside =>
      (grows.types index (Nat.lt_of_lt_of_le inside refolds.nodes.size)).trans
        (refolds.types index inside),
      fun closed place original other body result there present hasBody hasResult =>
        grows.stands refolds.nodes.size
          (refolds.bodies closed place original other body result there present hasBody hasResult)⟩
  refine ⟨kept, kept.set found fun closed original first last there hasBody hasResult => ?_⟩
  rw [Member.setBody_body written] at hasResult
  cases hasResult
  exact (kept.bodies closed id original member first body there found hasBody written).trans
    (stands closed)

/-- The last stage on a member. -/
theorem runMember_refolds (id : Nat) : (refolding declared types).holds
    (runMember .foldConstants id) fun _ => True :=
  runMember_keeps (·.Refolds declared types) (foldConstants_refolds id)
    fun _ member refolds found => refolds.set found fun closed original body result there =>
      refolds.bodies closed id original member body result there found

end StageM
end ClassLang
