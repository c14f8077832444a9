import ClassLang.Proofs.Source.Walk
import Mathlib.Logic.Relation

/-! The order of a walk. The walk keeps the slots still to be visited on a stack; what it visits is
the pre-order that recursion on the tree gives, and that is one entry for each way down from the
root, in lexicographic order. -/

namespace ClassLang

/-- A walk between two rounds of its loop. -/
structure WalkState where
  /-- The slots still to be visited, the next one last. -/
  stack : List ExprRef
  visited : List Nat := []
deriving Repr, DecidableEq

namespace Arena

/-- The round of the loop: the last slot is taken off the stack. Its node is visited, and the
children are pushed from the last to the first. There is no round once the stack is empty. -/
def walkRound (arena : Arena) (state : WalkState) : Option (Except Abort WalkState) :=
  state.stack.getLast?.map fun
    | .missing => .ok { state with stack := state.stack.dropLast }
    | .node index => do
      let children ← arena.children (.node index)
      return {
        stack := state.stack.dropLast ++ children.reverse
        visited := state.visited ++ [index] }

/-- The loop comes from one state to another. -/
def WalkLeads (arena : Arena) : WalkState → WalkState → Prop :=
  Relation.ReflTransGen fun state next => arena.walkRound state = some (.ok next)

/-- The loop that is entered in one state is left in another. -/
def WalkEnds (arena : Arena) (start final : WalkState) : Prop :=
  arena.WalkLeads start final ∧ arena.walkRound final = none

/-- The trees of some slots written out one after the other, each node before its children. A node
with several parents is written out for each of them. -/
inductive Unrolled (arena : Arena) : List ExprRef → List Nat → Prop where
  | nil : Unrolled arena [] []
  | missing {refs : List ExprRef} {order : List Nat} (rest : Unrolled arena refs order) :
    Unrolled arena (.missing :: refs) order
  | node {index : Nat} {expr : Expr} {refs : List ExprRef} {below order : List Nat}
      (found : arena.exprs[index]? = some expr) (children : Unrolled arena expr.kind.children below)
      (rest : Unrolled arena refs order) :
    Unrolled arena (.node index :: refs) (index :: (below ++ order))

/-- A node stands where a path leads: the position of a child in each node on the way from the
root. -/
inductive Occurs (arena : Arena) : ExprRef → List Nat → Nat → Prop where
  | here {index : Nat} : Occurs arena (.node index) [] index
  | step {index position target : Nat} {expr : Expr} {child : ExprRef} {path : List Nat}
      (found : arena.exprs[index]? = some expr) (slot : expr.kind.children[position]? = some child)
      (deeper : Occurs arena child path target) :
    Occurs arena (.node index) (position :: path) target

/-- The entries are what occurs at paths, in the order of the paths: a path before its extensions,
and these by the children that they lead through. -/
structure Enumerates (occurs : List Nat → Nat → Prop) (entries : List (List Nat × Nat)) : Prop where
  sorted : entries.Pairwise fun first second => first.1 < second.1
  mem_iff : ∀ path target, (path, target) ∈ entries ↔ occurs path target

variable {arena : Arena} {refs : List ExprRef} {order : List Nat}

/-! The loop. -/

theorem walkRound_missing (stack : List ExprRef) (visited : List Nat) :
    arena.walkRound ⟨stack ++ [.missing], visited⟩ = some (.ok ⟨stack, visited⟩) := by
  simp [walkRound]

theorem walkRound_node {index : Nat} {expr : Expr} (found : arena.exprs[index]? = some expr)
    (stack : List ExprRef) (visited : List Nat) :
    arena.walkRound ⟨stack ++ [.node index], visited⟩ =
      some (.ok ⟨stack ++ expr.kind.children.reverse, visited ++ [index]⟩) := by
  simp [walkRound, children_eq found]

/-- Slots on top of the stack are unrolled before anything below them is looked at. -/
theorem Unrolled.walkLeads (unrolled : arena.Unrolled refs order) :
    ∀ (stack : List ExprRef) (visited : List Nat),
      arena.WalkLeads ⟨stack ++ refs.reverse, visited⟩ ⟨stack, visited ++ order⟩ := by
  induction unrolled with
  | nil =>
    intro stack visited
    rw [List.reverse_nil, List.append_nil, List.append_nil]
    exact .refl
  | missing _ ih =>
    intro stack visited
    rw [List.reverse_cons, ← List.append_assoc]
    exact .head (walkRound_missing _ visited) (ih stack visited)
  | @node index expr refs below order found _ _ ihChildren ihRest =>
    intro stack visited
    rw [List.reverse_cons, ← List.append_assoc]
    -- The children stand on the slots that come after the node, and those on the old stack.
    have under := ihChildren (stack ++ refs.reverse) (visited ++ [index])
    have after := ihRest stack (visited ++ [index] ++ below)
    have whole : visited ++ [index] ++ below ++ order = visited ++ index :: (below ++ order) := by
      simp
    rw [whole] at after
    exact .head (walkRound_node found _ visited) (under.trans after)

theorem WalkEnds.unique {start first second : WalkState} (earlier : arena.WalkEnds start first)
    (later : arena.WalkEnds start second) : first = second := by
  have stays {final other : WalkState} (halted : arena.walkRound final = none)
      (path : arena.WalkLeads final other) : final = other := by
    rcases path.cases_head with same | ⟨next, round, _⟩
    · exact same
    · rw [halted] at round
      cases round
  have determined : Relator.RightUnique fun state next =>
    arena.walkRound state = some (.ok next) := by
    intro state next other round again
    cases round.symm.trans again
    rfl
  rcases Relation.ReflTransGen.total_of_right_unique determined earlier.1 later.1 with path | path
  · exact stays earlier.2 path
  · exact (stays later.2 path).symm

theorem Unrolled.walkEnds_iff {root : ExprRef} (unrolled : arena.Unrolled [root] order)
    (final : WalkState) : arena.WalkEnds { stack := [root] } final ↔ final = ⟨[], order⟩ := by
  have ends : arena.WalkEnds { stack := [root] } ⟨[], order⟩ := ⟨unrolled.walkLeads [] [], rfl⟩
  exact ⟨fun other => other.unique ends, fun same => same ▸ ends⟩

/-! The work list. -/

/-- The slots at the front of the work list are unrolled before the rest is looked at. -/
theorem Unrolled.walkFrom (unrolled : arena.Unrolled refs order) :
    ∀ (fuel : Nat) (pending : List ExprRef) (visited : List Nat),
      arena.walkFrom fuel (refs ++ pending) = .ok visited → ∃ left rest,
        arena.walkFrom left pending = .ok rest ∧ visited = order ++ rest := by
  induction unrolled with
  | nil => exact fun fuel pending visited walked => ⟨fuel, visited, walked, rfl⟩
  | missing _ ih =>
    intro fuel pending visited walked
    cases fuel with
    | zero => cases walked
    | succ fuel => exact ih fuel pending visited walked
  | node found _ _ ihChildren ihRest =>
    intro fuel pending visited walked
    cases fuel with
    | zero => cases walked
    | succ fuel =>
      rw [List.cons_append, Arena.walkFrom, children_eq found, ok_bind] at walked
      obtain ⟨later, continued, same⟩ := Except.bind_eq_ok walked
      cases same
      -- Behind the children stand the slots after the node, and behind those what was pending.
      obtain ⟨left, rest, under, rfl⟩ := ihChildren fuel _ later continued
      obtain ⟨left, rest, after, rfl⟩ := ihRest left pending rest under
      exact ⟨left, rest, after, by simp⟩

theorem Unrolled.eq_of_walk {root : ExprRef} {visited : List Nat}
    (unrolled : arena.Unrolled [root] order) (walked : arena.walk root = .ok visited) :
    visited = order := by
  obtain ⟨slots, _, walked⟩ := Except.bind_eq_ok walked
  obtain ⟨left, rest, ended, rfl⟩ := unrolled.walkFrom slots [] visited walked
  rw [Arena.walkFrom] at ended
  cases ended
  exact List.append_nil order

/-! The recursion. -/

/-- The tree of one slot in front of others. -/
theorem Unrolled.cons {ref : ExprRef} {first rest : List Nat} (head : arena.Unrolled [ref] first)
    (tail : arena.Unrolled refs rest) : arena.Unrolled (ref :: refs) (first ++ rest) := by
  cases head with
  | missing nothing =>
    cases nothing
    exact .missing tail
  | node found children nothing =>
    cases nothing
    rw [List.append_nil]
    exact .node found children tail

theorem Unrolled.append {others : List ExprRef} {more : List Nat}
    (earlier : arena.Unrolled refs order) (later : arena.Unrolled others more) :
    arena.Unrolled (refs ++ others) (order ++ more) := by
  induction earlier with
  | nil => exact later
  | missing _ ih => exact .missing ih
  | @node index expr refs below order found children _ _ ih =>
    rw [List.cons_append, List.cons_append, List.append_assoc]
    exact .node found children ih

theorem Unrolled.mem_self {index : Nat} (unrolled : arena.Unrolled [.node index] order) :
    index ∈ order := by
  cases unrolled
  exact List.mem_cons_self

/-- Empty slots add nothing. -/
theorem Unrolled.present (unrolled : arena.Unrolled refs order) :
    arena.Unrolled (refs.filter (·.isPresent)) order := by
  induction unrolled with
  | nil => exact .nil
  | missing _ ih => exact ih
  | node found children _ _ ih => exact .node found children ih

theorem unrolled_flatten {orders : List (List Nat)}
    (each : List.Forall₂ (fun ref order => arena.Unrolled [ref] order) refs orders) :
    arena.Unrolled refs orders.flatten := by
  induction each with
  | nil => exact .nil
  | cons first _ ih => exact first.cons ih

/-- Recursion to any depth that is enough unrolls the tree. -/
theorem unrolled_of_preorderWithin : ∀ (depth : Nat) (ref : ExprRef) (order : List Nat),
    arena.preorderWithin depth ref = .ok order → arena.Unrolled [ref] order
  | _, .missing, _, ran => by
    rw [preorderWithin] at ran
    cases ran
    exact .missing .nil
  | 0, .node _, _, ran => by cases ran
  | depth + 1, .node index, _, ran => by
    rw [preorderWithin] at ran
    obtain ⟨children, read, ran⟩ := Except.bind_eq_ok ran
    obtain ⟨orders, below, ran⟩ := Except.bind_eq_ok ran
    cases ran
    obtain ⟨expr, found, rfl⟩ := lookup_of_children read
    have parts := (Except.mapM_eq_ok_iff.mp below).imp (unrolled_of_preorderWithin depth)
    rw [← List.append_nil orders.flatten]
    exact .node found (unrolled_flatten parts) .nil

/-- The order does not depend on the depth, if it is enough. -/
theorem preorderWithin_mono : ∀ {few many : Nat}, few ≤ many → ∀ (ref : ExprRef) (order : List Nat),
    arena.preorderWithin few ref = .ok order → arena.preorderWithin many ref = .ok order
  | _, _, _, .missing, _, ran => by
    rw [preorderWithin] at ran ⊢
    exact ran
  | 0, _, _, .node _, _, ran => by cases ran
  | few + 1, many + 1, le, .node index, _, ran => by
    rw [preorderWithin] at ran ⊢
    obtain ⟨children, read, ran⟩ := Except.bind_eq_ok ran
    obtain ⟨orders, below, ran⟩ := Except.bind_eq_ok ran
    cases ran
    have deeper := (Except.mapM_eq_ok_iff.mp below).imp
      (preorderWithin_mono (Nat.le_of_succ_le_succ le))
    rw [read, ok_bind, Except.mapM_eq_ok_iff.mpr deeper]
    rfl

theorem preorder_missing : arena.preorder .missing = .ok [] := by
  rw [preorder, preorderWithin]
  rfl

theorem children_eq_error {index : Nat} (outside : arena.exprs[index]? = none) :
    arena.children (.node index) = .error .outOfRange := by
  simp [Arena.children, kind, expr, outside, Except.map]

section
variable (children : ∀ parent child, arena.HasChild parent child → child < arena.size)
    (acyclic : Acyclic arena.HasChild)
include children acyclic

theorem preorder_ok_of_acyclic (root : ExprRef)
    (inside : ∀ index, root = .node index → index < arena.size) :
    ∃ order, arena.preorder root = .ok order := by
  refine recursion_ok_of_acyclic (fun depth => ⟨[], by rw [preorderWithin]; rfl⟩) ?_ children
    acyclic root inside
  intro depth index children orders read below
  exact ⟨index :: orders.flatten, by rw [preorderWithin, read, ok_bind, below]; rfl⟩

/-- The recursion is not limited by the depth. -/
theorem preorder_node (index : Nat) : arena.preorder (.node index) = do
    let children ← arena.children (.node index)
    return index :: (← children.mapM arena.preorder).flatten := by
  cases found : arena.exprs[index]? with
  | none =>
    rw [preorder, preorderWithin, children_eq_error found]
    rfl
  | some expr =>
    obtain ⟨order, ran⟩ := preorder_ok_of_acyclic children acyclic (.node index)
      fun position same => by
      cases same
      exact (Array.getElem?_eq_some_iff.mp found).1
    rw [ran, children_eq found, ok_bind]
    rw [preorder, preorderWithin, children_eq found, ok_bind] at ran
    obtain ⟨orders, below, same⟩ := Except.bind_eq_ok ran
    cases same
    -- Below the node the children have one level less than each of them has alone.
    have deeper : expr.kind.children.mapM arena.preorder = .ok orders :=
      Except.mapM_eq_ok_iff.mpr
        ((Except.mapM_eq_ok_iff.mp below).imp (preorderWithin_mono (Nat.le_succ arena.size)))
    rw [deeper]
    rfl

theorem exists_unrolled (root : ExprRef)
    (inside : ∀ index, root = .node index → index < arena.size) :
    ∃ order, arena.Unrolled [root] order ∧ arena.walk root = .ok order ∧
    arena.preorder root = .ok order := by
  obtain ⟨order, ended⟩ := preorder_ok_of_acyclic children acyclic root inside
  obtain ⟨visited, walked⟩ := walk_ok_of_acyclic children acyclic root inside
  have unrolled := unrolled_of_preorderWithin _ root order ended
  exact ⟨order, unrolled, unrolled.eq_of_walk walked ▸ walked, ended⟩

theorem walk_eq_preorder (root : ExprRef) : arena.walk root = arena.preorder root := by
  by_cases inside : ∀ index, root = .node index → index < arena.size
  · obtain ⟨order, _, walked, ended⟩ := exists_unrolled children acyclic root inside
    exact walked.trans ended.symm
  · -- Neither gets past a node that is not in the arena.
    push Not at inside
    obtain ⟨index, rfl, outside⟩ := inside
    have none_ := children_eq_error (Array.getElem?_eq_none outside)
    rw [walk, slotsWithin, preorder, preorderWithin, none_]
    rfl

end

/-! The paths. -/

/-- A node stands where a path leads that starts in one of some slots, the first of them with a
given number. -/
def OccursFrom (arena : Arena) (refs : List ExprRef) (first : Nat) (path : List Nat)
    (target : Nat) : Prop :=
  ∃ position ref rest, refs[position]? = some ref ∧ path = (first + position) :: rest ∧
    arena.Occurs ref rest target

theorem occursFrom_cons_iff {ref : ExprRef} {first target : Nat} {path : List Nat} :
    arena.OccursFrom (ref :: refs) first path target ↔
      (∃ rest, path = first :: rest ∧ arena.Occurs ref rest target) ∨
      arena.OccursFrom refs (first + 1) path target := by
  constructor
  · rintro ⟨position, other, rest, slot, rfl, occurs⟩
    cases position with
    | zero =>
      cases slot
      exact .inl ⟨rest, rfl, occurs⟩
    | succ position =>
      exact .inr ⟨position, other, rest, slot, by rw [Nat.add_assoc, Nat.add_comm 1], occurs⟩
  · rintro (⟨rest, rfl, occurs⟩ | ⟨position, other, rest, slot, rfl, occurs⟩)
    · exact ⟨0, ref, rest, rfl, rfl, occurs⟩
    · exact ⟨position + 1, other, rest, slot, by rw [Nat.add_assoc, Nat.add_comm 1], occurs⟩

namespace Enumerates

theorem missing : Enumerates (arena.Occurs .missing) [] where
  sorted := .nil
  mem_iff _ _ := ⟨nofun, nofun⟩

/-- A node comes before everything below it. -/
theorem node {index : Nat} {expr : Expr} {entries : List (List Nat × Nat)}
    (found : arena.exprs[index]? = some expr)
    (below : Enumerates (arena.OccursFrom expr.kind.children 0) entries) :
    Enumerates (arena.Occurs (.node index)) (([], index) :: entries) where
  sorted := by
    refine List.pairwise_cons.mpr ⟨fun entry member => ?_, below.sorted⟩
    obtain ⟨position, _, rest, _, same, _⟩ := (below.mem_iff entry.1 entry.2).mp member
    rw [same]
    exact List.nil_lt_cons _ rest
  mem_iff path target := by
    rw [List.mem_cons, below.mem_iff]
    constructor
    · rintro (same | ⟨position, child, rest, slot, rfl, occurs⟩)
      · cases same
        exact .here
      · rw [Nat.zero_add]
        exact .step found slot occurs
    · rintro (_ | ⟨stored, slot, deeper⟩)
      · exact .inl rfl
      · cases found.symm.trans stored
        exact .inr ⟨_, _, _, slot, by rw [Nat.zero_add], deeper⟩

/-- What is below one slot comes before what is below the next. -/
theorem cons {ref : ExprRef} {first : Nat} {entries others : List (List Nat × Nat)}
    (head : Enumerates (arena.Occurs ref) entries)
    (tail : Enumerates (arena.OccursFrom refs (first + 1)) others) :
    Enumerates (arena.OccursFrom (ref :: refs) first)
      (entries.map (fun entry => (first :: entry.1, entry.2)) ++ others)
    where
  sorted := by
    refine List.pairwise_append.mpr ⟨?_, tail.sorted, fun one member other later => ?_⟩
    · refine List.pairwise_map.mpr (head.sorted.imp fun less => ?_)
      exact List.cons_lt_cons_iff.mpr (.inr ⟨rfl, less⟩)
    · obtain ⟨entry, _, rfl⟩ := List.mem_map.mp member
      obtain ⟨position, _, rest, _, same, _⟩ := (tail.mem_iff other.1 other.2).mp later
      rw [same]
      exact List.cons_lt_cons_iff.mpr (.inl (by omega))
  mem_iff path target := by
    rw [List.mem_append, tail.mem_iff, occursFrom_cons_iff]
    refine or_congr_left ?_
    rw [List.mem_map]
    constructor
    · rintro ⟨⟨rest, other⟩, member, same⟩
      cases same
      exact ⟨rest, rfl, (head.mem_iff rest _).mp member⟩
    · rintro ⟨rest, rfl, occurs⟩
      exact ⟨(rest, target), (head.mem_iff rest target).mpr occurs, rfl⟩

end Enumerates

theorem Unrolled.enumerated (unrolled : arena.Unrolled refs order) :
    ∀ first, ∃ entries, Enumerates (arena.OccursFrom refs first) entries ∧
    entries.map Prod.snd = order := by
  induction unrolled with
  | nil => exact fun first => ⟨[], ⟨.nil, fun _ _ => ⟨nofun, by rintro ⟨_, _, _, ⟨⟩, _⟩⟩⟩, rfl⟩
  | missing _ ih =>
    intro first
    obtain ⟨entries, listed, rfl⟩ := ih (first + 1)
    exact ⟨_, Enumerates.missing.cons listed, rfl⟩
  | node found _ _ ihChildren ihRest =>
    intro first
    obtain ⟨inner, below, rfl⟩ := ihChildren 0
    obtain ⟨outer, listed, rfl⟩ := ihRest (first + 1)
    exact ⟨_, (Enumerates.node found below).cons listed, by simp⟩

theorem Unrolled.enumerated_root {root : ExprRef} (unrolled : arena.Unrolled [root] order) :
    ∃ entries, Enumerates (arena.Occurs root) entries ∧ entries.map Prod.snd = order := by
  cases unrolled with
  | missing nothing =>
    cases nothing
    exact ⟨[], .missing, rfl⟩
  | node found children nothing =>
    cases nothing
    obtain ⟨entries, below, rfl⟩ := children.enumerated 0
    exact ⟨_, .node found below, by simp⟩

/-- The walk gives what recursion on the tree gives, which is not limited by any depth. From a slot
in range its loop ends, and only there, with an empty stack: it has visited the node of every path
down from the root once, and in the lexicographic order of the paths. -/
theorem walk_in_preorder
    (children : ∀ parent child, arena.HasChild parent child → child < arena.size)
    (acyclic : Acyclic arena.HasChild) (root : ExprRef) :
    (arena.preorder .missing = .ok [] ∧ ∀ index, arena.preorder (.node index) = do
      let children ← arena.children (.node index)
      return index :: (← children.mapM arena.preorder).flatten) ∧
    arena.walk root = arena.preorder root ∧
    ((∀ index, root = .node index → index < arena.size) → ∃ order entries,
      arena.walk root = .ok order ∧
      (∀ final, arena.WalkEnds { stack := [root] } final ↔
        final = { stack := [], visited := order }) ∧
      Enumerates (arena.Occurs root) entries ∧ entries.map Prod.snd = order) := by
  refine ⟨⟨preorder_missing, preorder_node children acyclic⟩,
    walk_eq_preorder children acyclic root, fun inside => ?_⟩
  obtain ⟨order, unrolled, walked, _⟩ := exists_unrolled children acyclic root inside
  obtain ⟨entries, listed, same⟩ := unrolled.enumerated_root
  exact ⟨order, entries, walked, unrolled.walkEnds_iff, listed, same⟩

/-- The block
`{ x.f(1, 1); <nothing>; match if x then <nothing> else x.f(1, 1) { _ => x.f(1, 1) } }`, with one
node for all equal expressions. Slots lead to earlier and to later nodes. -/
def sharedArena : Arena where
  exprs := #[
    ⟨.block [.node 3, .missing, .node 5], ⟨0, 9⟩⟩, ⟨.ifElse (.node 2) .missing (.node 3), ⟨4, 6⟩⟩,
    ⟨.ident "x", ⟨0, 1⟩⟩, ⟨.call (some (.node 2)) "f" [.node 4, .node 4], ⟨0, 2⟩⟩,
    ⟨.literal (.int 1), ⟨1, 2⟩⟩,
    ⟨.matchOn (.node 1) [⟨0, .node 3, ⟨7, 8⟩⟩], ⟨3, 9⟩⟩]
  patterns := #[⟨.wildcard, ⟨7, 7⟩⟩]

theorem sharedArena_children (parent child : Nat) (step : sharedArena.HasChild parent child) :
    child < sharedArena.size ∧
    [4, 2, 0, 1, 0, 3].getD child 0 < [4, 2, 0, 1, 0, 3].getD parent 0 := by
  have each : ∀ entry ∈ sharedArena.exprs.toList.zipIdx, ∀ ref ∈ entry.1.kind.children,
      ref = .missing ∨ ref.raw < sharedArena.size ∧
      [4, 2, 0, 1, 0, 3].getD ref.raw 0 < [4, 2, 0, 1, 0, 3].getD entry.2 0 := by decide
  obtain ⟨expr, found, member⟩ := step
  have listed : (expr, parent) ∈ sharedArena.exprs.toList.zipIdx := by
    rwa [List.mk_mem_zipIdx_iff_getElem?, Array.getElem?_toList]
  rcases each _ listed _ member with absent | low
  · cases absent
  · exact low

/-- The call is visited three times, with what is below it; once as the second child of the `if`. -/
theorem walk_in_preorder_shared :
    sharedArena.walk (.node 0) = sharedArena.preorder (.node 0) ∧
    sharedArena.walk (.node 0) = .ok [0, 3, 2, 4, 4, 5, 1, 2, 3, 2, 4, 4, 3, 2, 4, 4] ∧
    (∀ final, sharedArena.WalkEnds { stack := [.node 0] } final ↔
      final = { stack := [], visited := [0, 3, 2, 4, 4, 5, 1, 2, 3, 2, 4, 4, 3, 2, 4, 4] }) ∧
    ∃ entries, Enumerates (sharedArena.Occurs (.node 0)) entries ∧
      entries.map Prod.snd = [0, 3, 2, 4, 4, 5, 1, 2, 3, 2, 4, 4, 3, 2, 4, 4] ∧
      ([2, 0, 1], 3) ∈ entries := by
  have acyclic : Acyclic sharedArena.HasChild :=
    .of_measure _ fun parent child step => (sharedArena_children parent child step).2
  obtain ⟨-, same, ends⟩ :=
    walk_in_preorder (fun parent child step => (sharedArena_children parent child step).1) acyclic
    (.node 0)
  obtain ⟨order, entries, walked, only, listed, nodes⟩ := ends fun index same => by
    cases same
    decide
  have visits : sharedArena.walk (.node 0) =
      .ok [0, 3, 2, 4, 4, 5, 1, 2, 3, 2, 4, 4, 3, 2, 4, 4] := by decide
  cases walked.symm.trans visits
  exact ⟨same, visits, only, entries, listed, nodes,
    (listed.mem_iff _ _).mpr (.step rfl rfl (.step rfl rfl (.step rfl rfl .here)))⟩

end Arena
end ClassLang
