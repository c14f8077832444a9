import ClassLang.Proofs.Completion
import ClassLang.Proofs.Source.WellFormed

/-! The lets of an expression that are open to whatever follows it. Every let is, unless it stands
in a block or in an arm of a match. -/

namespace ClassLang

/-- The children whose lets stay open behind the expression: a block and the arms of a match close
theirs. -/
def ExprKind.openSlots : ExprKind → List ExprRef
  | .block _ => []
  | .matchOn scrutinee _ => [scrutinee]
  | kind => kind.children

def ExprKind.isLet : ExprKind → Bool
  | .letIn .. => true
  | _ => false

namespace Arena

/-- `openLets` by recursion on the nesting depth. -/
def openLetsWithin (arena : Arena) : Nat → ExprRef → Except Abort (List Nat)
  | _, .missing => return []
  | 0, .node _ => throw .cyclic
  | depth + 1, .node index => do
    let kind ← arena.kind (.node index)
    let below ← kind.openSlots.mapM (openLetsWithin arena depth)
    return below.flatten ++ if kind.isLet then [index] else []

/-- The lets of an expression in evaluation order, but for those inside a block or the body of an
arm. -/
def openLets (arena : Arena) (ref : ExprRef) : Except Abort (List Nat) :=
  arena.openLetsWithin (arena.size + 1) ref

/-- The open lets of some slots, one after the other. -/
def openLetsOf (arena : Arena) (depth : Nat) (refs : List ExprRef) : Except Abort (List Nat) := do
  return (← refs.mapM (arena.openLetsWithin depth)).flatten

variable {arena : Arena} {depth index : Nat} {ref : ExprRef} {refs : List ExprRef} {expr : Expr}
  {lets first second : List Nat}

theorem openLetsWithin_missing (arena : Arena) (depth : Nat) :
    arena.openLetsWithin depth .missing = .ok [] := by
  unfold openLetsWithin
  rfl

theorem openLetsWithin_node (found : arena.exprs[index]? = some expr)
    (below : arena.openLetsOf depth expr.kind.openSlots = .ok lets) :
    arena.openLetsWithin (depth + 1) (.node index) =
      .ok (lets ++ if expr.kind.isLet then [index] else []) := by
  obtain ⟨each, read, same⟩ := Except.bind_eq_ok below
  cases same
  unfold openLetsWithin
  simp only [kind, expr_eq found, Except.map, ok_bind, read, pure_eq_ok]

theorem openLetsWithin_node_ok (read : arena.openLetsWithin depth (.node index) = .ok lets) :
    ∃ less expr below, depth = less + 1 ∧ arena.exprs[index]? = some expr ∧
      arena.openLetsOf less expr.kind.openSlots = .ok below ∧
      lets = below ++ if expr.kind.isLet then [index] else [] := by
  unfold openLetsWithin at read
  cases depth with
  | zero => cases read
  | succ less =>
    obtain ⟨kind, ran, rest⟩ := Except.bind_eq_ok read
    obtain ⟨each, below, made⟩ := Except.bind_eq_ok rest
    cases made
    cases found : arena.expr (.node index) with
    | error fault => simp [Arena.kind, found, Except.map] at ran
    | ok expr =>
      simp only [Arena.kind, found, Except.map, Except.ok.injEq] at ran
      subst ran
      exact ⟨less, expr, each.flatten, rfl, lookup_of_expr found, by
        rw [openLetsOf, below]; rfl, rfl⟩

theorem openLetsOf_singleton (read : arena.openLetsWithin depth ref = .ok lets) :
    arena.openLetsOf depth [ref] = .ok lets := by
  simp [openLetsOf, read]

theorem openLetsOf_cons (head : arena.openLetsWithin depth ref = .ok first)
    (tail : arena.openLetsOf depth refs = .ok second) :
    arena.openLetsOf depth (ref :: refs) = .ok (first ++ second) := by
  obtain ⟨each, read, same⟩ := Except.bind_eq_ok tail
  cases same
  simp [openLetsOf, head, read]

theorem openLetsOf_cons_ok (read : arena.openLetsOf depth (ref :: refs) = .ok lets) :
    ∃ first second, arena.openLetsWithin depth ref = .ok first ∧
    arena.openLetsOf depth refs = .ok second ∧
      lets = first ++ second := by
  obtain ⟨each, listed, same⟩ := Except.bind_eq_ok read
  cases same
  rw [List.mapM_cons] at listed
  obtain ⟨head, ran, rest⟩ := Except.bind_eq_ok listed
  obtain ⟨tail, later, made⟩ := Except.bind_eq_ok rest
  cases made
  exact ⟨head, tail.flatten, ran, by rw [openLetsOf, later]; rfl, rfl⟩

theorem openLetsOf_append : ∀ {refs others : List ExprRef} {first second : List Nat},
    arena.openLetsOf depth refs = .ok first → arena.openLetsOf depth others = .ok second →
      arena.openLetsOf depth (refs ++ others) = .ok (first ++ second)
  | [], _, _, _, none_, rest => by
    cases none_
    exact rest
  | _ :: _, _, _, _, some_, rest => by
    obtain ⟨head, tail, ran, later, rfl⟩ := openLetsOf_cons_ok some_
    rw [List.append_assoc]
    exact openLetsOf_cons ran (openLetsOf_append later rest)

/-- An empty slot has no lets. -/
theorem openLetsOf_filter_isPresent : ∀ {refs : List ExprRef} {lets : List Nat},
    arena.openLetsOf depth refs = .ok lets →
    arena.openLetsOf depth (refs.filter (·.isPresent)) = .ok lets
  | [], _, read => read
  | .missing :: _, _, read => by
    obtain ⟨head, tail, ran, later, rfl⟩ := openLetsOf_cons_ok read
    rw [openLetsWithin_missing] at ran
    cases ran
    have kept := openLetsOf_filter_isPresent later
    exact kept
  | .node _ :: _, _, read => by
    obtain ⟨head, tail, ran, later, rfl⟩ := openLetsOf_cons_ok read
    exact openLetsOf_cons ran (openLetsOf_filter_isPresent later)

/-- The lets do not depend on the depth, if it is enough. -/
theorem openLetsWithin_mono : ∀ {few many : Nat} {ref : ExprRef} {lets : List Nat}, few ≤ many →
    arena.openLetsWithin few ref = .ok lets → arena.openLetsWithin many ref = .ok lets
  | _, _, .missing, _, _, read => by
    rw [openLetsWithin_missing] at read ⊢
    exact read
  | 0, _, .node _, _, _, read => by
    obtain ⟨_, _, _, impossible, _⟩ := openLetsWithin_node_ok read
    cases impossible
  | few + 1, many + 1, .node index, _, le, read => by
    obtain ⟨less, expr, below, same, found, slots, rfl⟩ := openLetsWithin_node_ok read
    cases same
    have deeper : ∀ {refs : List ExprRef} {lets : List Nat},
        arena.openLetsOf few refs = .ok lets → arena.openLetsOf many refs = .ok lets := by
      intro refs
      induction refs with
      | nil => exact fun read => read
      | cons ref refs ih =>
        intro lets read
        obtain ⟨head, tail, ran, later, rfl⟩ := openLetsOf_cons_ok read
        exact openLetsOf_cons (openLetsWithin_mono (Nat.le_of_succ_le_succ le) ran) (ih later)
    exact openLetsWithin_node found (deeper slots)

theorem openLetsWithin_block {items : List ExprRef} {span : Span}
    (found : arena.exprs[index]? = some ⟨.block items, span⟩)
    (read : arena.openLetsWithin depth (.node index) = .ok lets) : lets = [] := by
  obtain ⟨less, expr, below, -, stored, slots, rfl⟩ := openLetsWithin_node_ok read
  rw [found] at stored
  cases stored
  cases slots
  rfl

/-- The open lets of a match are those of its scrutinee. -/
theorem openLetsWithin_matchOn {scrutinee : ExprRef} {arms : List MatchArm} {span : Span}
    (found : arena.exprs[index]? = some ⟨.matchOn scrutinee arms, span⟩)
    (read : arena.openLetsWithin depth (.node index) = .ok lets) :
    arena.openLetsWithin depth scrutinee = .ok lets := by
  obtain ⟨less, expr, below, rfl, stored, slots, rfl⟩ := openLetsWithin_node_ok read
  rw [found] at stored
  cases stored
  obtain ⟨head, tail, inner, last, rfl⟩ := openLetsOf_cons_ok slots
  cases last
  have deeper := openLetsWithin_mono (Nat.le_succ less) inner
  simpa [ExprKind.isLet] using deeper

end Arena
end ClassLang
