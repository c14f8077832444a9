import ClassLang.Pattern.Code
import ClassLang.Proofs.Completion

/-! Typed patterns as trees. What the store answers about a typed pattern depends only on the
tree that is stored there, and neither new patterns nor compilation change that tree. -/

namespace ClassLang

/-- A typed pattern. A deconstruction is marked when its class is the class of its subject. -/
inductive PatternTree where
  | wildcard
  | constant (value : Literal)
  | binding (name : Name)
  /-- A name for the whole value, beside a pattern for it. -/
  | named (name : Name) (inner : PatternTree)
  | deconstruct (class_ : Name) (own : Bool) (fields : List PatternTree)
deriving Repr, Inhabited

namespace PatternTree

/-- Induction on patterns, with the hypothesis for every field. -/
@[elab_as_elim, induction_eliminator]
theorem induction {motive : PatternTree → Prop} (wildcard : motive .wildcard)
    (constant : ∀ value, motive (.constant value)) (binding : ∀ name, motive (.binding name))
    (named : ∀ name inner, motive inner → motive (.named name inner))
    (deconstruct : ∀ class_ own fields, (∀ field ∈ fields, motive field) →
      motive (.deconstruct class_ own fields)) (tree : PatternTree) : motive tree :=
  PatternTree.rec wildcard constant binding named deconstruct
    (fun field member => by cases member)
    (fun head tail first rest field member => by
      rcases List.mem_cons.mp member with same | later
      · exact same ▸ first
      · exact rest field later) tree

def isWildcard : PatternTree → Bool
  | wildcard => true
  | _ => false

mutual

def isIrrefutable : PatternTree → Bool
  | wildcard | binding _ => true
  | constant _ => false
  | named _ inner => inner.isIrrefutable
  | deconstruct _ own fields => own && allIrrefutable fields

def allIrrefutable : List PatternTree → Bool
  | [] => true
  | field :: fields => field.isIrrefutable && allIrrefutable fields

end

def isSwitchable : PatternTree → Bool
  | wildcard | constant _ | binding _ => true
  | named _ .wildcard | named _ (.constant _) => true
  | named _ _ => false
  | deconstruct _ _ fields => allIrrefutable fields

mutual

/-- The names a pattern binds, in the order in which they are written. -/
def names : PatternTree → List Name
  | wildcard | constant _ => []
  | binding name => [name]
  | named name inner => name :: inner.names
  | deconstruct _ _ fields => fieldNames fields

def fieldNames : List PatternTree → List Name
  | [] => []
  | field :: fields => field.names ++ fieldNames fields

end
end PatternTree

namespace PatternStore

/-- The node at `id` has been typed or compiled, with this kind. -/
def HoldsTyped (store : PatternStore) (id : Nat) (kind : PatternKind) : Prop :=
  ∃ node, store.nodes[id]? = some node ∧ node.kind = kind ∧ node.state ≠ .unbound

/-- As `HoldsTyped`, with the class of the subject. -/
def HoldsOwn (store : PatternStore) (id : Nat) (kind : PatternKind) (own : Option Name) : Prop :=
  ∃ node, store.nodes[id]? = some node ∧ node.kind = kind ∧ node.ownClass = own ∧
    node.state ≠ .unbound

mutual

/-- The typed pattern at a position is the given tree. Subpatterns stand before it. -/
def Represents (store : PatternStore) : PatternTree → Nat → Prop
  | .wildcard, id => store.HoldsTyped id .wildcard
  | .constant value, id => store.HoldsTyped id (.constant value)
  | .binding name, id => store.HoldsTyped id (.binding name none)
  | .named name inner, id =>
    ∃ child < id, store.HoldsTyped id (.binding name (some child)) ∧ Represents store inner child
  | .deconstruct name own fields, id =>
    ∃ children subject, store.HoldsOwn id (.deconstruct name children) subject ∧
      own = decide (subject = some name) ∧ RepresentsAll store id fields children

/-- The typed patterns at some positions before `bound` are the given trees. -/
def RepresentsAll (store : PatternStore) (bound : Nat) : List PatternTree → List Nat → Prop
  | [], [] => True
  | tree :: trees, child :: children =>
    child < bound ∧ Represents store tree child ∧ RepresentsAll store bound trees children
  | _, _ => False

end

/-- `after` has the patterns of `before`; typed ones are typed or compiled there. -/
def Keeps (before after : PatternStore) : Prop :=
  ∀ (id : Nat) (node : PatternNode), before.nodes[id]? = some node →
    ∃ state, after.nodes[id]? = some { node with state } ∧
      (node.state ≠ .unbound → state ≠ .unbound)

namespace Keeps

theorem refl (store : PatternStore) : store.Keeps store :=
  fun _ node found => ⟨node.state, found, fun was => was⟩

theorem trans {first second third : PatternStore} (earlier : first.Keeps second)
    (later : second.Keeps third) : first.Keeps third := by
  intro id node found
  obtain ⟨state, kept, typed⟩ := earlier id node found
  obtain ⟨last, held, still⟩ := later id _ kept
  exact ⟨last, held, fun was => still (typed was)⟩

theorem push (store : PatternStore) (node : PatternNode) : store.Keeps (store.push node).2 := by
  intro id found present
  have inside : id < store.nodes.size := (Array.getElem?_eq_some_iff.mp present).1
  refine ⟨found.state, ?_, fun was => was⟩
  simpa [PatternStore.push, Array.getElem?_push, Nat.ne_of_lt inside] using present

theorem markCompiled (store : PatternStore) (id : Nat) : store.Keeps (store.markCompiled id) := by
  intro other node found
  unfold PatternStore.markCompiled
  split
  · rename_i marked present
    by_cases same : id = other
    · subst other
      have equal : marked = node := Option.some.inj (present.symm.trans found)
      subst equal
      have inside : id < store.nodes.size := (Array.getElem?_eq_some_iff.mp found).1
      exact ⟨.compiled, by simp [inside], by simp⟩
    · exact ⟨node.state, by simpa [Array.getElem?_setIfInBounds, same] using found, fun was => was⟩
  · exact ⟨node.state, found, fun was => was⟩

theorem holdsTyped {before after : PatternStore} (kept : before.Keeps after) {id : Nat}
    {kind : PatternKind} (holds : before.HoldsTyped id kind) : after.HoldsTyped id kind := by
  obtain ⟨node, found, same, typed⟩ := holds
  obtain ⟨state, held, still⟩ := kept id node found
  exact ⟨_, held, same, still typed⟩

theorem holdsOwn {before after : PatternStore} (kept : before.Keeps after) {id : Nat}
    {kind : PatternKind} {own : Option Name} (holds : before.HoldsOwn id kind own) :
    after.HoldsOwn id kind own := by
  obtain ⟨node, found, same, class_, typed⟩ := holds
  obtain ⟨state, held, still⟩ := kept id node found
  exact ⟨_, held, same, class_, still typed⟩

end Keeps

mutual

theorem Represents.keep {before after : PatternStore} (kept : before.Keeps after) :
    ∀ (tree : PatternTree) (id : Nat), before.Represents tree id → after.Represents tree id
  | .wildcard, _, holds => kept.holdsTyped holds
  | .constant _, _, holds => kept.holdsTyped holds
  | .binding _, _, holds => kept.holdsTyped holds
  | .named _ inner, _, ⟨child, before_, holds, below⟩ =>
    ⟨child, before_, kept.holdsTyped holds, Represents.keep kept inner child below⟩
  | .deconstruct _ _ fields, _, ⟨children, subject, holds, own, below⟩ =>
    ⟨children, subject, kept.holdsOwn holds, own, RepresentsAll.keep kept fields children below⟩

theorem RepresentsAll.keep {before after : PatternStore} (kept : before.Keeps after) {bound : Nat} :
    ∀ (trees : List PatternTree) (ids : List Nat),
      before.RepresentsAll bound trees ids → after.RepresentsAll bound trees ids
  | [], [], _ => trivial
  | tree :: trees, id :: ids, ⟨below, first, rest⟩ =>
    ⟨below, Represents.keep kept tree id first, RepresentsAll.keep kept trees ids rest⟩

end

variable {store : PatternStore} {tree : PatternTree} {id : Nat} {kind : PatternKind}
  {own : Option Name}

theorem HoldsTyped.lookup (holds : store.HoldsTyped id kind) :
    ∃ node, store.node id = .ok node ∧ node.kind = kind ∧ node.state ≠ .unbound := by
  obtain ⟨node, found, same, typed⟩ := holds
  exact ⟨node, by simp [PatternStore.node, found], same, typed⟩

theorem HoldsOwn.lookup (holds : store.HoldsOwn id kind own) :
    ∃ node, store.node id = .ok node ∧ node.kind = kind ∧ node.ownClass = own ∧
      node.state ≠ .unbound := by
  obtain ⟨node, found, same, class_, typed⟩ := holds
  exact ⟨node, by simp [PatternStore.node, found], same, class_, typed⟩

theorem HoldsOwn.typed (holds : store.HoldsOwn id kind own) :
    store.HoldsTyped id kind := by
  obtain ⟨node, found, same, _, typed⟩ := holds
  exact ⟨node, found, same, typed⟩

theorem HoldsTyped.kind_eq (holds : store.HoldsTyped id kind) :
    store.kind id = .ok kind := by
  obtain ⟨node, found, same, _⟩ := holds.lookup
  simp [PatternStore.kind, found, same, Except.map]

theorem HoldsTyped.inside (holds : store.HoldsTyped id kind) :
    id < store.size := by
  obtain ⟨node, found, _⟩ := holds
  exact (Array.getElem?_eq_some_iff.mp found).1

/-- The root of a represented tree. -/
theorem Represents.root :
    ∀ {tree : PatternTree} {id : Nat}, store.Represents tree id →
      ∃ kind, store.HoldsTyped id kind ∧ (kind = .wildcard ↔ tree.isWildcard = true)
  | .wildcard, _, holds => ⟨_, holds, by simp [PatternTree.isWildcard]⟩
  | .constant _, _, holds => ⟨_, holds, by simp [PatternTree.isWildcard]⟩
  | .binding _, _, holds => ⟨_, holds, by simp [PatternTree.isWildcard]⟩
  | .named _ _, _, ⟨_, _, holds, _⟩ => ⟨_, holds, by simp [PatternTree.isWildcard]⟩
  | .deconstruct _ _ _, _, ⟨_, _, holds, _⟩ => ⟨_, holds.typed, by simp [PatternTree.isWildcard]⟩

theorem Represents.inside (holds : store.Represents tree id) :
    id < store.size := by
  obtain ⟨_, typed, _⟩ := holds.root
  exact typed.inside

theorem Represents.isWildcard_eq (holds : store.Represents tree id) :
    store.isWildcard id = .ok tree.isWildcard := by
  obtain ⟨kind, typed, same⟩ := holds.root
  have answer : (kind == PatternKind.wildcard) = tree.isWildcard := by
    rw [Bool.eq_iff_iff, beq_iff_eq, same]
  simp [PatternStore.isWildcard, typed.kind_eq, Except.map, answer]

mutual

theorem Represents.isIrrefutableWithin_eq :
    ∀ (tree : PatternTree) (id depth : Nat), store.Represents tree id → id < depth →
      store.isIrrefutableWithin depth id = .ok tree.isIrrefutable
  | tree, id, 0, _, deep => absurd deep (Nat.not_lt_zero id)
  | .wildcard, id, depth + 1, holds, _ => by
    obtain ⟨node, found, kind, _⟩ := HoldsTyped.lookup holds
    simp [isIrrefutableWithin, found, kind, PatternTree.isIrrefutable]
  | .constant value, id, depth + 1, holds, _ => by
    obtain ⟨node, found, kind, _⟩ := HoldsTyped.lookup holds
    simp [isIrrefutableWithin, found, kind, PatternTree.isIrrefutable]
  | .binding name, id, depth + 1, holds, _ => by
    obtain ⟨node, found, kind, _⟩ := HoldsTyped.lookup holds
    simp [isIrrefutableWithin, found, kind, PatternTree.isIrrefutable]
  | .named name inner, id, depth + 1, holds, deep => by
    obtain ⟨child, before, typed, below⟩ := holds
    obtain ⟨node, found, kind, _⟩ := typed.lookup
    have answer := Represents.isIrrefutableWithin_eq inner child depth below (by omega)
    simp [isIrrefutableWithin, found, kind, PatternTree.isIrrefutable, answer]
  | .deconstruct name own fields, id, depth + 1, holds, deep => by
    obtain ⟨children, subject, typed, rfl, below⟩ := holds
    obtain ⟨node, found, kind, rfl, _⟩ := typed.lookup
    have answer := RepresentsAll.isIrrefutableWithin_eq fields children depth below (by omega)
    by_cases own : node.ownClass = some name <;>
      simp [isIrrefutableWithin, found, kind, PatternTree.isIrrefutable, answer, own]

theorem RepresentsAll.isIrrefutableWithin_eq {bound : Nat} :
    ∀ (trees : List PatternTree) (ids : List Nat) (depth : Nat),
      store.RepresentsAll bound trees ids → bound ≤ depth →
      ids.allM (store.isIrrefutableWithin depth) = .ok (PatternTree.allIrrefutable trees)
  | [], [], _, _, _ => rfl
  | tree :: trees, id :: ids, depth, ⟨below, first, rest⟩, deep => by
    have head := Represents.isIrrefutableWithin_eq tree id depth first (by omega)
    have tail := RepresentsAll.isIrrefutableWithin_eq trees ids depth rest deep
    cases answer : tree.isIrrefutable <;>
      simp [List.allM, head, tail, answer, PatternTree.allIrrefutable]

end

theorem Represents.isIrrefutable_eq (holds : store.Represents tree id) :
    store.isIrrefutable id = .ok tree.isIrrefutable :=
  Represents.isIrrefutableWithin_eq tree id _ holds (Nat.lt_succ_of_lt holds.inside)

theorem RepresentsAll.isIrrefutable_eq {bound : Nat} :
    ∀ (trees : List PatternTree) (ids : List Nat), store.RepresentsAll bound trees ids →
      ids.allM store.isIrrefutable = .ok (PatternTree.allIrrefutable trees)
  | [], [], _ => rfl
  | tree :: trees, id :: ids, ⟨_, first, rest⟩ => by
    have tail := RepresentsAll.isIrrefutable_eq trees ids rest
    cases answer : tree.isIrrefutable <;>
      simp [List.allM, first.isIrrefutable_eq, tail, answer, PatternTree.allIrrefutable]

theorem Represents.isSwitchable_eq :
    ∀ {tree : PatternTree} {id : Nat}, store.Represents tree id →
      store.isSwitchable id = .ok tree.isSwitchable
  | .wildcard, _, holds | .constant _, _, holds | .binding _, _, holds => by
    simp [isSwitchable, HoldsTyped.kind_eq holds, PatternTree.isSwitchable]
  | .named _ inner, _, ⟨child, _, typed, below⟩ => by
    cases inner with
    | wildcard | constant | binding =>
      simp [isSwitchable, typed.kind_eq, HoldsTyped.kind_eq below, PatternTree.isSwitchable]
    | named =>
      obtain ⟨_, _, innerTyped, _⟩ := below
      simp [isSwitchable, typed.kind_eq, innerTyped.kind_eq, PatternTree.isSwitchable]
    | deconstruct =>
      obtain ⟨_, _, innerTyped, _⟩ := below
      simp [isSwitchable, typed.kind_eq, innerTyped.typed.kind_eq, PatternTree.isSwitchable]
  | .deconstruct _ _ fields, _, ⟨children, _, typed, _, below⟩ => by
    simp [isSwitchable, typed.typed.kind_eq, PatternTree.isSwitchable,
      RepresentsAll.isIrrefutable_eq fields children below]

mutual

theorem Represents.bindingsWithin_names :
    ∀ (tree : PatternTree) (id depth : Nat), store.Represents tree id → id < depth →
      ∃ bound, store.bindingsWithin depth id = .ok bound ∧ bound.map Prod.fst = tree.names
  | tree, id, 0, _, deep => absurd deep (Nat.not_lt_zero id)
  | .wildcard, id, depth + 1, holds, _ => by
    obtain ⟨node, found, kind, _⟩ := HoldsTyped.lookup holds
    exact ⟨[], by simp [bindingsWithin, found, kind], rfl⟩
  | .constant value, id, depth + 1, holds, _ => by
    obtain ⟨node, found, kind, _⟩ := HoldsTyped.lookup holds
    exact ⟨[], by simp [bindingsWithin, found, kind], rfl⟩
  | .binding name, id, depth + 1, holds, _ => by
    obtain ⟨node, found, kind, _⟩ := HoldsTyped.lookup holds
    simp only [bindingsWithin, found, kind, ok_bind, pure_eq_ok]
    exact ⟨_, rfl, rfl⟩
  | .named name inner, id, depth + 1, holds, deep => by
    obtain ⟨child, before, typed, below⟩ := holds
    obtain ⟨node, found, kind, _⟩ := typed.lookup
    obtain ⟨bound, listed, names⟩ :=
      Represents.bindingsWithin_names inner child depth below (by omega)
    simp only [bindingsWithin, found, kind, ok_bind, pure_eq_ok, listed]
    exact ⟨_, rfl, by simp [PatternTree.names, names]⟩
  | .deconstruct name own fields, id, depth + 1, holds, deep => by
    obtain ⟨children, subject, typed, _, below⟩ := holds
    obtain ⟨node, found, kind, _, _⟩ := typed.lookup
    obtain ⟨bound, listed, names⟩ :=
      RepresentsAll.bindingsWithin_names fields children depth below (by omega)
    simp only [bindingsWithin, found, kind, ok_bind, pure_eq_ok, listed]
    exact ⟨_, rfl, by simp [PatternTree.names, names]⟩

theorem RepresentsAll.bindingsWithin_names {bound : Nat} :
    ∀ (trees : List PatternTree) (ids : List Nat) (depth : Nat),
      store.RepresentsAll bound trees ids → bound ≤ depth →
      ∃ lists, ids.mapM (store.bindingsWithin depth) = .ok lists ∧
        lists.flatten.map Prod.fst = PatternTree.fieldNames trees
  | [], [], _, _, _ => ⟨[], rfl, rfl⟩
  | tree :: trees, id :: ids, depth, ⟨below, first, rest⟩, deep => by
    obtain ⟨head, listed, names⟩ :=
      Represents.bindingsWithin_names tree id depth first (by omega)
    obtain ⟨tail, others, more⟩ := RepresentsAll.bindingsWithin_names trees ids depth rest deep
    refine ⟨head :: tail, by simp [List.mapM_cons, listed, others], ?_⟩
    simp [PatternTree.fieldNames, names, more]

end

theorem Represents.bindings_names (holds : store.Represents tree id) :
    ∃ bound, store.bindings id = .ok bound ∧ bound.map Prod.fst = tree.names :=
  Represents.bindingsWithin_names tree id _ holds (Nat.lt_succ_of_lt holds.inside)

end PatternStore
end ClassLang
