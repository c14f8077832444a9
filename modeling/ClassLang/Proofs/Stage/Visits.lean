import ClassLang.Proofs.Stage.Confinement
import ClassLang.Proofs.Stage.Refolding

/-! The types that visiting a tree records. A visit of a node visits its slots one after the other
and records the type of the node last, by a rule that relates it to the types of the slots. A node
with several parents is visited several times, and its last type stays; a node in a single slot
keeps the type by which the type of its parent was found. -/

namespace ClassLang
open Relation

theorem ExprKind.node_mem_slots {kind : ExprKind} {index : Nat} :
    .node index ∈ kind.slots ↔ .node index ∈ kind.children := by
  cases kind <;> simp [slots, children, ExprRef.isPresent]

namespace Arena

/-- Relates a node and the types of its slots to the type of the node. -/
abbrev TypeRule := ExprKind → List TypeRef → TypeRef → Prop

/-- Slots are visited one after the other, with these types. -/
inductive Visits (visit : ExprRef → TypeRef → IdMap TypeRef → IdMap TypeRef → Prop) :
    List ExprRef → List TypeRef → IdMap TypeRef → IdMap TypeRef → Prop where
  | nil (types : IdMap TypeRef) : Visits visit [] [] types types
  | cons {ref : ExprRef} {type : TypeRef} {refs : List ExprRef} {types : List TypeRef}
      {before between after : IdMap TypeRef} (first : visit ref type before between)
      (rest : Visits visit refs types between after) :
      Visits visit (ref :: refs) (type :: types) before after

/-- The slot is visited and has the type; an empty slot yields nothing. -/
def Visit (arena : Arena) (rule : TypeRule) : Nat → ExprRef → TypeRef → IdMap TypeRef →
    IdMap TypeRef → Prop
  | _, .missing, type, before, after => type = .void ∧ after = before
  | 0, .node _, _, _, _ => False
  | depth + 1, .node index, type, before, after =>
    ∃ expr types between, arena.exprs[index]? = some expr ∧
      Visits (arena.Visit rule depth) expr.kind.slots types before between ∧
      rule expr.kind types type ∧
        after = between.insert index type

namespace Visits
variable {visit : ExprRef → TypeRef → IdMap TypeRef → IdMap TypeRef → Prop}
    {refs others : List ExprRef}
  {types more : List TypeRef} {before between after : IdMap TypeRef}

theorem single {ref : ExprRef} {type : TypeRef} (first : visit ref type before after) :
    Visits visit [ref] [type] before after :=
  .cons first (.nil after)

theorem append (earlier : Visits visit refs types before between)
    (later : Visits visit others more between after) :
    Visits visit (refs ++ others) (types ++ more) before after := by
  induction earlier with
  | nil => exact later
  | cons first _ ih => exact .cons first (ih later)

theorem exists_visit (visits : Visits visit refs types before after) {ref : ExprRef}
    (listed : ref ∈ refs) : ∃ type first last, visit ref type first last := by
  induction visits with
  | nil => cases listed
  | cons first _ ih =>
    rcases List.mem_cons.mp listed with rfl | later
    · exact ⟨_, _, _, first⟩
    · exact ih later

/-- What every visit leaves alone, all of them do. -/
theorem get?_eq {index : Nat} (visits : Visits visit refs types before after)
    (each : ∀ ref ∈ refs, ∀ type first last, visit ref type first last →
      last.get? index = first.get? index) :
    after.get? index = before.get? index := by
  induction visits with
  | nil => rfl
  | cons first _ ih =>
    exact (ih fun ref listed => each ref (List.mem_cons_of_mem _ listed)).trans
      (each _ List.mem_cons_self _ _ _ first)

/-- What every visit keeps, all of them do. -/
theorem keep (holds : IdMap TypeRef → Prop) (visits : Visits visit refs types before after)
    (each : ∀ ref ∈ refs, ∀ type first last, visit ref type first last → holds first → holds last)
    (start : holds before) : holds after := by
  induction visits with
  | nil => exact start
  | cons first _ ih =>
    exact ih (fun ref listed => each ref (List.mem_cons_of_mem _ listed))
      (each _ List.mem_cons_self _ _ _ first start)

/-- What one visit brings about and every visit keeps holds at the end. -/
theorem reach (holds : IdMap TypeRef → Prop) {ref : ExprRef}
    (visits : Visits visit refs types before after) (listed : ref ∈ refs)
    (own : ∀ type first last, visit ref type first last → holds last)
    (each : ∀ ref ∈ refs, ∀ type first last, visit ref type first last → holds first → holds last) :
    holds after := by
  induction visits with
  | nil => cases listed
  | cons first rest ih =>
    have later := fun ref listed => each ref (List.mem_cons_of_mem _ listed)
    rcases List.mem_cons.mp listed with rfl | listed
    · exact rest.keep holds later (own _ _ _ first)
    · exact ih listed later

end Visits

/-- One slot of the node holds the child, and no other slot in the arena does. -/
structure Owns (arena : Arena) (index child : Nat) : Prop where
  parent : ∀ other, arena.HasChild other child → other = index
  once : ∀ expr, arena.exprs[index]? = some expr → expr.kind.slots.count (.node child) = 1

instance (arena : Arena) (parent child : Nat) : Decidable (arena.HasChild parent child) :=
  inferInstanceAs
    (Decidable (∃ expr, arena.exprs[parent]? = some expr ∧ .node child ∈ expr.kind.children))

instance (arena : Arena) (index child : Nat) : Decidable (arena.Owns index child) :=
  decidable_of_iff ((∀ other < arena.size, arena.HasChild other child → other = index) ∧
      ∀ expr ∈ arena.exprs[index]?, expr.kind.slots.count (.node child) = 1) {
    mp := fun ⟨parent, once⟩ => ⟨fun other has =>
      parent other (Array.getElem?_eq_some_iff.mp has.choose_spec.1).1 has, once⟩
    mpr := fun owns => ⟨fun other _ => owns.parent other, owns.once⟩ }

/-- What is known of the type of a slot: an empty one yields nothing, and a child that is owned is
recorded with the type. -/
def SlotTyped (owns : Nat → Nat → Prop) (types : IdMap TypeRef) (index : Nat) :
    ExprRef → TypeRef → Prop
  | .missing, type => type = .void
  | .node child, type => owns index child → types.get? child = some type

/-- Recorded types follow from those of the slots, except for some nodes. -/
def Coherent (arena : Arena) (rule : TypeRule) (owns : Nat → Nat → Prop) (exempt : Nat → Prop)
    (types : IdMap TypeRef) :
    Prop :=
  ∀ (index : Nat) (expr : Expr) (type : TypeRef), arena.exprs[index]? = some expr → ¬ exempt index →
    types.get? index = some type → ∃ slotTypes,
      List.Forall₂ (SlotTyped owns types index) expr.kind.slots slotTypes ∧
      rule expr.kind slotTypes type

variable {arena : Arena} {rule : TypeRule} {depth index : Nat} {ref : ExprRef} {type : TypeRef}
    {expr : Expr}
  {before after : IdMap TypeRef} {owns : Nat → Nat → Prop} {exempt : Nat → Prop}

theorem hasChild_of_slot {child : Nat} (found : arena.exprs[index]? = some expr)
    (slot : .node child ∈ expr.kind.slots) : arena.HasChild index child :=
  ⟨expr, found, ExprKind.node_mem_slots.mp slot⟩

theorem Coherent.weaken {fewer : Nat → Prop} {types : IdMap TypeRef}
    (coherent : arena.Coherent rule owns fewer types)
    (weaken : ∀ index, fewer index → exempt index) : arena.Coherent rule owns exempt types :=
  fun index expr type found fails => coherent index expr type found fun less =>
    fails (weaken index less)

/-- Nothing is wrong with types when there are none. -/
theorem coherent_empty : arena.Coherent rule owns exempt {} := by
  rintro index expr type found fails recorded
  simp [IdMap.get?] at recorded

namespace Visit

theorem get?_self (visit : arena.Visit rule depth (.node index) type before after) :
    after.get? index = some type := by
  cases depth with
  | zero => exact visit.elim
  | succ depth =>
    obtain ⟨expr, types, between, found, below, typed, rfl⟩ := visit
    rw [IdMap.get?_insert, if_pos rfl]

/-- Below a node that is visited, nodes are visited with less depth. -/
theorem descend {child : Nat} (path : TransGen arena.HasChild index child) :
    ∀ {depth : Nat} {type : TypeRef} {before after : IdMap TypeRef},
      arena.Visit rule depth (.node index) type before after → ∃ less < depth, ∃ type first last,
        arena.Visit rule less (.node child) type first last := by
  have step {parent child : Nat} (has : arena.HasChild parent child) {depth : Nat} {type : TypeRef}
      {before after : IdMap TypeRef}
      (visit : arena.Visit rule depth (.node parent) type before after) :
      ∃ less < depth, ∃ type first last, arena.Visit rule less (.node child) type first last := by
    cases depth with
    | zero => exact visit.elim
    | succ depth =>
      obtain ⟨expr, types, between, found, below, typed, rfl⟩ := visit
      obtain ⟨_, stored, listed⟩ := has
      cases found.symm.trans stored
      exact ⟨depth, Nat.lt_succ_self depth, below.exists_visit (ExprKind.node_mem_slots.mpr listed)⟩
  induction path with
  | single has => exact step has
  | tail _ has ih =>
    intro depth type before after visit
    obtain ⟨less, lower, _, _, _, inner⟩ := ih visit
    obtain ⟨least, lowest, answers⟩ := step has inner
    exact ⟨least, Nat.lt_trans lowest lower, answers⟩

/-- A node that is visited is not below itself. -/
theorem acyclic : ∀ {depth : Nat} {type : TypeRef} {before after : IdMap TypeRef},
    arena.Visit rule depth (.node index) type before after →
    ¬ TransGen arena.HasChild index index := by
  intro depth
  induction depth using Nat.strong_induction_on with
  | _ depth ih =>
    intro type before after visit cycle
    obtain ⟨less, lower, _, _, _, inner⟩ := descend cycle visit
    exact ih less lower inner cycle

/-- A visit records types for nodes of the tree only. -/
theorem get?_eq {other : Nat} :
    ∀ {depth : Nat} {ref : ExprRef} {type : TypeRef} {before after : IdMap TypeRef},
    arena.Visit rule depth ref type before after → ¬ arena.Contains ref other →
    after.get? other = before.get? other
  | 0, .missing, _, _, _, visit, _ | _ + 1, .missing, _, _, _, visit, _ => by rw [visit.2]
  | 0, .node _, _, _, _, visit, _ => visit.elim
  | depth + 1, .node index, _, _, _, visit, outside => by
    obtain ⟨expr, types, between, found, below, typed, rfl⟩ := visit
    have differ : index ≠ other := by
      rintro rfl
      exact outside ⟨index, rfl, .refl⟩
    rw [IdMap.get?_insert, if_neg differ]
    refine below.get?_eq fun ref slot type first last inner => get?_eq inner ?_
    rintro ⟨start, rfl, path⟩
    exact outside ⟨index, rfl, .head (hasChild_of_slot found slot) path⟩

/-- Types are recorded for nodes of the arena only. -/
theorem inside : ∀ {depth : Nat} {ref : ExprRef} {type : TypeRef} {before after : IdMap TypeRef},
    arena.Visit rule depth ref type before after →
    (∀ index, (before.get? index).isSome → index < arena.size) →
      ∀ index, (after.get? index).isSome → index < arena.size
  | 0, .missing, _, _, _, visit, bound | _ + 1, .missing, _, _, _, visit, bound => visit.2 ▸ bound
  | 0, .node _, _, _, _, visit, _ => visit.elim
  | depth + 1, .node index, _, _, _, visit, bound => by
    obtain ⟨expr, types, between, found, below, typed, rfl⟩ := visit
    intro other recorded
    rw [IdMap.get?_insert] at recorded
    split at recorded
    · rename_i same
      exact same ▸ (Array.getElem?_eq_some_iff.mp found).1
    · exact below.keep (fun types => ∀ index, (types.get? index).isSome → index < arena.size)
        (fun _ _ _ _ _ inner => inside inner) bound other recorded

/-- What has a type keeps one. -/
theorem isSome {other : Nat} :
    ∀ {depth : Nat} {ref : ExprRef} {type : TypeRef} {before after : IdMap TypeRef},
    arena.Visit rule depth ref type before after → (before.get? other).isSome →
    (after.get? other).isSome
  | 0, .missing, _, _, _, visit, accepted | _ + 1, .missing, _, _, _, visit, accepted =>
    visit.2 ▸ accepted
  | 0, .node _, _, _, _, visit, _ => visit.elim
  | depth + 1, .node index, _, _, _, visit, accepted => by
    obtain ⟨expr, types, between, found, below, typed, rfl⟩ := visit
    exact IdMap.isSome_insert
      (below.keep (fun types => (types.get? other).isSome)
        (fun _ _ _ _ _ inner => isSome inner) accepted)

/-- All nodes of the tree have types afterwards. -/
theorem records {other : Nat} :
    ∀ {depth : Nat} {ref : ExprRef} {type : TypeRef} {before after : IdMap TypeRef},
    arena.Visit rule depth ref type before after → arena.Contains ref other →
    (after.get? other).isSome
  | 0, .missing, _, _, _, _, ⟨_, same, _⟩ | _ + 1, .missing, _, _, _, _, ⟨_, same, _⟩ =>
    nomatch same
  | 0, .node _, _, _, _, visit, _ => visit.elim
  | depth + 1, .node index, type, _, _, visit, ⟨start, same, path⟩ => by
    cases same
    rcases path.cases_head with rfl | ⟨child, has, path⟩
    · rw [visit.get?_self]
      rfl
    · obtain ⟨expr, types, between, found, below, typed, rfl⟩ := visit
      obtain ⟨_, stored, listed⟩ := has
      cases found.symm.trans stored
      exact IdMap.isSome_insert
        (below.reach (fun types => (types.get? other).isSome) (ExprKind.node_mem_slots.mpr listed)
        (fun _ _ _ inner => records inner ⟨child, rfl, path⟩) fun _ _ _ _ _ inner => isSome inner)

end Visit

section
variable (owned : ∀ index child, owns index child → arena.Owns index child)
include owned

/-- The types of the slots of a node, once all of them are visited. -/
theorem Visits.slotTyped {refs : List ExprRef} {types : List TypeRef}
    (visits : Visits (arena.Visit rule depth) refs types before after)
    (found : arena.exprs[index]? = some expr) (slots : ∀ ref ∈ refs, ref ∈ expr.kind.slots)
    (once : ∀ child, owns index child → refs.count (.node child) ≤ 1)
    (acyclic : ¬ TransGen arena.HasChild index index) :
    List.Forall₂ (SlotTyped owns after index) refs types := by
  induction visits with
  | nil => exact .nil
  | @cons ref type refs types before between after first rest ih =>
    refine .cons ?_ (ih (fun other listed => slots other (List.mem_cons_of_mem _ listed))
      fun child own => Nat.le_trans List.count_le_count_cons (once child own))
    cases ref with
    | missing =>
      cases depth <;> exact first.1
    | node child =>
      intro own
      have single : .node child ∉ refs := by
        have count := once child own
        rw [List.count_cons_self] at count
        exact List.count_eq_zero.mp (by omega)
      rw [← first.get?_self]
      -- Another slot that reached the child would reach the node.
      refine rest.get?_eq fun ref listed type first last visit => visit.get?_eq ?_
      rintro ⟨start, rfl, path⟩
      have top := hasChild_of_slot found (slots _ (List.mem_cons_of_mem _ listed))
      rcases path.cases_tail with rfl | ⟨parent, above, has⟩
      · exact single listed
      · rw [(owned index child own).parent parent has] at above
        exact acyclic (.head' top above)

/-- A visit leaves the types of all nodes coherent, but for the one that owns the slot. -/
theorem Visit.coherent :
    ∀ {depth : Nat} {ref : ExprRef} {type : TypeRef} {before after : IdMap TypeRef}
    {exempt : Nat → Prop}, arena.Visit rule depth ref type before after →
    arena.Coherent rule owns exempt before →
      arena.Coherent rule owns (fun index => exempt index ∨ ∃ child, ref = .node child ∧
        owns index child) after
  | 0, .missing, _, _, _, _, visit, coherent | _ + 1, .missing, _, _, _, _, visit, coherent => by
    rw [visit.2]
    exact coherent.weaken fun _ => .inl
  | 0, .node _, _, _, _, _, visit, _ => visit.elim
  | depth + 1, .node index, type, before, _, exempt, visit, coherent => by
    have acyclic : ¬ TransGen arena.HasChild index index := Visit.acyclic visit
    obtain ⟨expr, types, between, found, below, typed, rfl⟩ := visit
    have slotTyped := below.slotTyped owned found (fun _ => id)
      (fun child own => Nat.le_of_eq ((owned index child own).once expr found)) acyclic
    -- The node is exempt while its slots are visited.
    have visited : arena.Coherent rule owns (fun other => exempt other ∨ other = index)
        between := by
      refine below.keep (arena.Coherent rule owns fun other => exempt other ∨ other = index)
        (fun ref slot type first last inner before => ?_) (coherent.weaken fun _ => .inl)
      refine (Visit.coherent inner before).weaken ?_
      rintro other (choice | ⟨child, rfl, own⟩)
      · exact choice
      · exact .inr ((owned other child own).parent index (hasChild_of_slot found slot)).symm
    have moved {parent : Nat} (apart : ¬ owns parent index) {ref : ExprRef} {type' : TypeRef}
        (typedSlot : SlotTyped owns between parent ref type') :
        SlotTyped owns (between.insert index type) parent ref type' := by
      cases ref with
      | missing => exact typedSlot
      | node child =>
        intro own
        have differ : index ≠ child := by
          rintro rfl
          exact apart own
        rw [IdMap.get?_insert, if_neg differ]
        exact typedSlot own
    intro other expr' type' there notLam recorded
    have apart : ¬ owns other index := fun own => notLam (.inr ⟨index, rfl, own⟩)
    rw [IdMap.get?_insert] at recorded
    split at recorded
    · rename_i same
      subst same
      cases recorded
      cases found.symm.trans there
      exact ⟨types, slotTyped.imp fun _ _ => moved apart, typed⟩
    · rename_i differ
      obtain ⟨slotTypes, typedSlots, holds⟩ := visited other expr' type' there
        (fun either => notLam (.inl (either.resolve_right (Ne.symm differ)))) recorded
      exact ⟨slotTypes, typedSlots.imp fun _ _ => moved apart, holds⟩

end
end Arena
end ClassLang
