import ClassLang.Proofs.Completion
import ClassLang.Proofs.Source.WellFormed

/-! Walking through the tree of an expression: the walk ends in a well-formed arena, and it visits
every node of the tree. -/

namespace ClassLang.Arena
open Relation

variable {arena : Arena} {rank : Nat → Nat}

theorem children_eq {index : Nat} {expr : Expr} (found : arena.exprs[index]? = some expr) :
    arena.children (.node index) = .ok expr.kind.children := by
  simp [Arena.children, Arena.kind, expr_eq found, Except.map]

theorem lookup_of_children {index : Nat} {children : List ExprRef}
    (read : arena.children (.node index) = .ok children) :
    ∃ expr, arena.exprs[index]? = some expr ∧ children = expr.kind.children := by
  cases found : arena.exprs[index]? with
  | none => simp [Arena.children, Arena.kind, Arena.expr, found, Except.map] at read
  | some expr =>
    rw [children_eq found] at read
    cases read
    exact ⟨expr, rfl, rfl⟩

/-- The tree of a slot has a number of slots. -/
def Slots (arena : Arena) (ref : ExprRef) (count : Nat) : Prop :=
  ∃ depth, arena.slotsWithin depth ref = .ok count

section
variable {β : Type} {recurse : Nat → ExprRef → Except Abort β}
  (missing : ∀ depth, ∃ result, recurse depth .missing = .ok result)
  (node : ∀ depth index children results, arena.children (.node index) = .ok children →
    children.mapM (recurse depth) = .ok results → ∃ result,
      recurse (depth + 1) (.node index) = .ok result)
include missing node

/-- A recursion that answers for an empty slot, and for a node when it does for the children,
answers at every depth above the rank. -/
theorem recursion_ok (lowers : ∀ parent child, arena.HasChild parent child →
      child < arena.size ∧ rank child < rank parent) :
    ∀ (depth : Nat) (ref : ExprRef),
      (∀ index, ref = .node index → index < arena.size ∧ rank index < depth) →
      ∃ result, recurse depth ref = .ok result
  | depth, .missing, _ => missing depth
  | 0, .node index, deep => absurd (deep index rfl).2 (Nat.not_lt_zero _)
  | depth + 1, .node index, deep => by
    obtain ⟨inside, low⟩ := deep index rfl
    obtain ⟨expr, found⟩ : ∃ expr, arena.exprs[index]? = some expr :=
      ⟨_, Array.getElem?_eq_getElem inside⟩
    have each : ∀ child ∈ expr.kind.children, ∃ result,
        recurse depth child = .ok result ∧ True := by
      intro child member
      obtain ⟨result, ran⟩ := recursion_ok lowers depth child fun position same => by
        subst same
        obtain ⟨below, lower⟩ := lowers index position ⟨expr, found, member⟩
        exact ⟨below, by omega⟩
      exact ⟨result, ran, trivial⟩
    obtain ⟨results, read, _⟩ := Except.mapM_ok each
    exact node depth index _ results (children_eq found) read

/-- Where no node is below itself, one more level than there are nodes is enough. -/
theorem recursion_ok_of_acyclic
    (children : ∀ parent child, arena.HasChild parent child → child < arena.size)
    (acyclic : Acyclic arena.HasChild) (ref : ExprRef)
    (inside : ∀ index, ref = .node index → index < arena.size) :
    ∃ result, recurse (arena.size + 1) ref = .ok result := by
  obtain ⟨rank, bounded, lowers⟩ := acyclic.exists_rank_below children
  exact recursion_ok missing node
    (fun parent child step => ⟨children parent child step, lowers parent child step⟩)
    (arena.size + 1) ref fun index same =>
      ⟨inside index same, Nat.lt_succ_of_lt (bounded index (inside index same))⟩

end

theorem slots_children {children : List ExprRef} {counts : List Nat} {depth : Nat}
    (read : children.mapM (arena.slotsWithin depth) = .ok counts) :
    List.Forall₂ arena.Slots children counts :=
  (Except.mapM_eq_ok_iff.mp read).imp fun _ _ ran => ⟨depth, ran⟩

theorem Slots.missing_eq {count : Nat} (slots : arena.Slots .missing count) : count = 1 := by
  obtain ⟨depth, ran⟩ := slots
  unfold slotsWithin at ran
  cases ran
  rfl

theorem Slots.node {index count : Nat} (slots : arena.Slots (.node index) count) :
    ∃ expr counts, arena.exprs[index]? = some expr ∧
      List.Forall₂ arena.Slots expr.kind.children counts ∧ count = counts.sum + 1 := by
  obtain ⟨depth, ran⟩ := slots
  cases depth with
  | zero =>
    unfold slotsWithin at ran
    cases ran
  | succ depth =>
    unfold slotsWithin at ran
    obtain ⟨children, read, summed⟩ := Except.bind_eq_ok ran
    obtain ⟨counts, below, same⟩ := Except.bind_eq_ok summed
    cases same
    obtain ⟨expr, found, rfl⟩ := lookup_of_children read
    exact ⟨expr, counts, found, slots_children below, rfl⟩

theorem Slots.pos {ref : ExprRef} {count : Nat} (slots : arena.Slots ref count) : 0 < count := by
  cases ref with
  | missing =>
    rw [slots.missing_eq]
    exact Nat.one_pos
  | node index =>
    obtain ⟨_, _, _, _, rfl⟩ := slots.node
    exact Nat.succ_pos _

/-- The work list never has more slots than there is fuel. -/
theorem walkFrom_ok : ∀ (fuel : Nat) (pending : List ExprRef) (counts : List Nat),
    List.Forall₂ arena.Slots pending counts → counts.sum ≤ fuel →
    ∃ visited, arena.walkFrom fuel pending = .ok visited
  | _, [], _, _, _ => ⟨[], by unfold walkFrom; rfl⟩
  | 0, ref :: pending, _, .cons first _, enough => by
    have := first.pos
    rw [List.sum_cons] at enough
    omega
  | fuel + 1, .missing :: pending, _, .cons first rest, enough => by
    rw [List.sum_cons, first.missing_eq] at enough
    unfold walkFrom
    exact walkFrom_ok fuel pending _ rest (by omega)
  | fuel + 1, .node index :: pending, _, .cons first rest, enough => by
    obtain ⟨expr, counts, found, below, same⟩ := first.node
    rw [List.sum_cons, same] at enough
    obtain ⟨visited, walked⟩ := walkFrom_ok fuel (expr.kind.children ++ pending) _
      (List.rel_append below rest) (by rw [List.sum_append]; omega)
    unfold walkFrom
    rw [children_eq found, ok_bind, walked]
    exact ⟨index :: visited, rfl⟩

/-- Where no node is below itself, the tree of a slot can be walked through. -/
theorem walk_ok_of_acyclic
    (children : ∀ parent child, arena.HasChild parent child → child < arena.size)
    (acyclic : Acyclic arena.HasChild) (root : ExprRef)
    (inside : ∀ index, root = .node index → index < arena.size) :
    ∃ visited, arena.walk root = .ok visited := by
  obtain ⟨count, ran⟩ : ∃ count, arena.slotsWithin (arena.size + 1) root = .ok count := by
    refine recursion_ok_of_acyclic (fun depth => ⟨1, by unfold slotsWithin; rfl⟩) ?_ children
      acyclic root inside
    intro depth index children counts read below
    exact ⟨counts.sum + 1, by rw [slotsWithin, read, ok_bind, below]; rfl⟩
  obtain ⟨visited, walked⟩ := walkFrom_ok count [root] [count] (.cons ⟨_, ran⟩ .nil) (by simp)
  exact ⟨visited, by rw [Arena.walk, ran, ok_bind, walked]⟩

/-- The tree of an expression of a well-formed arena can be walked through. -/
theorem WellFormed.walk_ok (wellFormed : arena.WellFormed) {index : Nat}
    (inside : index < arena.size) : ∃ visited, arena.walk (.node index) = .ok visited :=
  walk_ok_of_acyclic wellFormed.children wellFormed.acyclic (.node index) fun position same => by
    cases same
    exact inside

theorem mem_walkFrom : ∀ (fuel : Nat) (pending : List ExprRef) (visited : List Nat),
    arena.walkFrom fuel pending = .ok visited → ∀ ref ∈ pending, ∀ index,
    arena.Contains ref index → index ∈ visited
  | _, [], _, _, _, member, _, _ => by cases member
  | 0, _ :: _, _, walked, _, _, _, _ => by
    unfold walkFrom at walked
    cases walked
  | fuel + 1, .missing :: pending, visited, walked, ref, member, index, contained => by
    unfold walkFrom at walked
    rcases List.mem_cons.mp member with rfl | later
    · obtain ⟨_, impossible, _⟩ := contained
      cases impossible
    · exact mem_walkFrom fuel pending visited walked ref later index contained
  | fuel + 1, .node start :: pending, visited, walked, ref, member, index, contained => by
    unfold walkFrom at walked
    obtain ⟨children, read, walked⟩ := Except.bind_eq_ok walked
    obtain ⟨rest, continued, walked⟩ := Except.bind_eq_ok walked
    cases walked
    obtain ⟨expr, found, rfl⟩ := lookup_of_children read
    have later := mem_walkFrom fuel _ rest continued
    rcases List.mem_cons.mp member with rfl | inPending
    · obtain ⟨_, same, path⟩ := contained
      cases same
      rcases path.cases_head with rfl | ⟨child, ⟨parent, seen, listed⟩, below⟩
      · exact List.mem_cons_self
      · rw [found] at seen
        cases seen
        exact List.mem_cons_of_mem _
          (later _ (List.mem_append_left _ listed) index ⟨child, rfl, below⟩)
    · exact List.mem_cons_of_mem _ (later ref (List.mem_append_right _ inPending) index contained)

/-- Every node of the tree is visited. -/
theorem mem_walk {root : ExprRef} {visited : List Nat} (walked : arena.walk root = .ok visited)
    {index : Nat} (contained : arena.Contains root index) : index ∈ visited := by
  obtain ⟨count, _, walked⟩ := Except.bind_eq_ok walked
  exact mem_walkFrom count [root] visited walked root List.mem_cons_self index contained

theorem lookup_of_walkFrom : ∀ (fuel : Nat) (pending : List ExprRef) (visited : List Nat),
    arena.walkFrom fuel pending = .ok visited → ∀ index ∈ visited,
    ∃ expr, arena.exprs[index]? = some expr
  | _, [], _, walked, _, member => by
    unfold walkFrom at walked
    cases walked
    cases member
  | 0, _ :: _, _, walked, _, _ => by
    unfold walkFrom at walked
    cases walked
  | fuel + 1, .missing :: pending, visited, walked, index, member => by
    unfold walkFrom at walked
    exact lookup_of_walkFrom fuel pending visited walked index member
  | fuel + 1, .node start :: pending, visited, walked, index, member => by
    unfold walkFrom at walked
    obtain ⟨children, read, walked⟩ := Except.bind_eq_ok walked
    obtain ⟨rest, continued, walked⟩ := Except.bind_eq_ok walked
    cases walked
    obtain ⟨expr, found, _⟩ := lookup_of_children read
    rcases List.mem_cons.mp member with rfl | later
    · exact ⟨expr, found⟩
    · exact lookup_of_walkFrom fuel _ rest continued index later

/-- Only nodes of the arena are visited. -/
theorem lookup_of_walk {root : ExprRef} {visited : List Nat}
    (walked : arena.walk root = .ok visited) {index : Nat} (member : index ∈ visited) :
    ∃ expr, arena.exprs[index]? = some expr := by
  obtain ⟨count, _, walked⟩ := Except.bind_eq_ok walked
  exact lookup_of_walkFrom count [root] visited walked index member

end ClassLang.Arena
