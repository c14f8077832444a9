import ClassLang.Proofs.Pattern.Entries
import ClassLang.Proofs.Source.WellFormed
import ClassLang.Proofs.Type.Scope

/-! The names that a typed pattern binds have types over the scope of the subject. -/

namespace ClassLang
open PoolM

/-- The patterns from some position on are typed against subjects of the scope, if at all, and lead
to no pattern before that position. -/
structure PatternStore.Layered (scoping : Scoping) (scope : ParamSet) (floor : Nat)
    (store : PatternStore) : Prop where
  size : floor ≤ store.size
  nodes : ∀ (id : Nat) (node : PatternNode), floor ≤ id → store.nodes[id]? = some node →
    scoping.Over scope node.subject ∧ ∀ part ∈ node.kind.parts, floor ≤ part

namespace PatternStore
variable {scoping : Scoping} {scope : ParamSet} {floor : Nat} {store : PatternStore}

/-- Nothing stands behind the last pattern. -/
theorem layered_size (store : PatternStore) : store.Layered scoping scope store.size := by
  refine ⟨Nat.le_refl _, fun id node beyond found => ?_⟩
  exact absurd (Array.getElem?_eq_some_iff.mp found).1 (Nat.not_lt.mpr beyond)

namespace Layered
variable (layered : store.Layered scoping scope floor)
include layered

theorem push {node : PatternNode} (ranges : scoping.Over scope node.subject)
    (parts : ∀ part ∈ node.kind.parts, floor ≤ part) :
    (store.push node).2.Layered scoping scope floor := by
  refine ⟨Nat.le_trans layered.size (by simp [PatternStore.push, PatternStore.size]),
    fun id other beyond found => ?_⟩
  simp only [PatternStore.push, Array.getElem?_push] at found
  split at found
  · cases found
    exact ⟨ranges, parts⟩
  · exact layered.nodes id other beyond found

/-- A pattern that is not typed yet has no subject. -/
theorem alloc {kind : PatternKind} (span : Span) (parts : ∀ part ∈ kind.parts, floor ≤ part) :
    (store.alloc kind span).2.Layered scoping scope floor := by
  unfold PatternStore.alloc
  split <;> exact layered.push (.absent rfl) parts

omit layered in
theorem alloc_fst (kind : PatternKind) (span : Span) : (store.alloc kind span).1 = store.size := by
  unfold PatternStore.alloc
  split <;> rfl

theorem bindingsWithin : ∀ {depth id : Nat} {bound : List (Name × TypeRef)},
    store.bindingsWithin depth id = .ok bound → floor ≤ id → ∀ entry ∈ bound,
      scoping.Over scope entry.2
  | 0, _, _, ran, _ => nomatch ran
  | depth + 1, id, bound, ran, beyond => by
    obtain ⟨node, read, ran⟩ := Except.bind_eq_ok ran
    have found : store.nodes[id]? = some node := by
      unfold PatternStore.node at read
      split at read
      · cases read
        assumption
      · cases read
    obtain ⟨ranges, parts⟩ := layered.nodes id node beyond found
    have own : scoping.Over scope (if node.subject.isAbsent then .any else node.subject) := by
      split
      · exact .any
      · exact ranges
    cases kind : node.kind with
    | wildcard | constant value =>
      rw [kind] at ran
      cases ran
      simp
    | binding name inner =>
      rw [kind] at ran
      cases inner with
      | none =>
        cases ran
        simpa using own
      | some inner =>
        obtain ⟨rest, below, ran⟩ := Except.bind_eq_ok ran
        cases ran
        have deeper := bindingsWithin below (parts inner (by simp [kind, PatternKind.parts]))
        exact List.forall_mem_cons.mpr ⟨own, deeper⟩
    | deconstruct name fields =>
      rw [kind] at ran
      obtain ⟨lists, below, ran⟩ := Except.bind_eq_ok ran
      cases ran
      intro entry member
      obtain ⟨list, listed, inside⟩ := List.mem_flatten.mp member
      obtain ⟨field, present, answered⟩ := Except.mem_of_mapM below list listed
      exact bindingsWithin answered (parts field (by simpa [kind, PatternKind.parts] using present))
        entry inside

end Layered

/-! Copying a written pattern. -/

theorem alloc_layered {kind : PatternKind} {span : Span}
    (parts : ∀ part ∈ kind.parts, floor ≤ part) :
    (Keeping (Layered scoping scope floor)).holds (modifyGet (·.alloc kind span) : StoreM Nat)
      (floor ≤ ·) := by
  intro start layered id final ran
  obtain ⟨rfl, rfl⟩ := Prod.mk.inj (Except.ok.inj ran)
  exact ⟨layered.alloc span parts, (Layered.alloc_fst kind span).symm ▸ layered.size⟩

theorem importWithin_layered (arena : Arena) : ∀ depth index : Nat,
    (Keeping (Layered scoping scope floor)).holds (importWithin arena depth index) (floor ≤ ·)
  | 0, _ => fun _ _ _ _ ran => nomatch ran
  | depth + 1, index => by
    have read : (Keeping (Layered scoping scope floor)).holds
        (liftM (arena.pattern index) : StoreM Pattern)
        fun _ => True := by
      intro start layered result final ran
      obtain ⟨_, _, same⟩ := Except.bind_eq_ok ran
      cases same
      exact ⟨layered, trivial⟩
    apply (Keeping _).andThen read
    intro pattern
    split
    · apply (Keeping _).bind (importWithin_layered arena depth _)
      exact fun inner beyond => alloc_layered (by simpa [PatternKind.parts] using beyond)
    · apply (Keeping _).bind ((Keeping _).mapM fun field _ =>
        importWithin_layered arena depth field)
      exact fun fields beyond => alloc_layered beyond.2
    · rename_i plain complex
      refine alloc_layered fun part member => ?_
      cases kind : pattern.kind with
      | binding name inner =>
        cases inner with
        | none => simp [kind, PatternKind.parts] at member
        | some inner => exact absurd kind (plain name inner)
      | deconstruct name fields => exact absurd kind (complex name fields)
      | _ => simp [kind, PatternKind.parts] at member

/-! Typing. -/

variable {params : Array TypeParam} {given : Prop} {hierarchy : ClassHierarchy} {α β : Type}

/-- Typing keeps the patterns layered, whatever comes of it. -/
abbrev typing (scoping : Scoping) (params : Array TypeParam) (scope : ParamSet) (floor : Nat) :
    Pledge TypingM :=
  ((judged scoping params).underState (Layered scoping scope floor)).underFault PatternFault

/-- The action keeps the patterns layered, and what it returns is as promised. -/
def Pledges (scoping : Scoping) (params : Array TypeParam) (scope : ParamSet) (floor : Nat)
    (given : Prop) (action : TypingM α) (post : α → Prop := fun _ => True) : Prop :=
  (typing scoping params scope floor).holds given action post

namespace Pledges
variable {post : β → Prop}

theorem pure {result : β} (holds : given → post result) :
    Pledges scoping params scope floor given (Pure.pure result) post :=
  (typing scoping params scope floor).pure holds

theorem bind {first : TypingM α} {next : α → TypingM β} {middle : α → Prop}
    (done : Pledges scoping params scope floor given first middle)
    (rest : ∀ result, Pledges scoping params scope floor (given ∧ middle result)
      (next result) post) :
    Pledges scoping params scope floor given (first >>= next) post :=
  (typing scoping params scope floor).bind done rest

theorem andThen {first : TypingM α} {next : α → TypingM β}
    (done : Pledges scoping params scope floor given first)
    (rest : ∀ result, Pledges scoping params scope floor given (next result) post) :
    Pledges scoping params scope floor given (first >>= next) post :=
  (typing scoping params scope floor).andThen done rest

theorem fails {fault : PatternFault} :
    Pledges scoping params scope floor given (throw fault : TypingM β) post := by
  intro own
  exact (judged scoping params).pure fun facts => ⟨facts.2, fun _ same => nomatch same⟩

theorem onPool {action : PoolM β} (done : PoolM.Pledges scoping params given action post) :
    Pledges scoping params scope floor given (PatternStore.onPool action) post := by
  intro store
  change (judged scoping params).holds _ ((action >>= fun result => Pure.pure (result, store)) >>=
    fun state => Pure.pure (Except.ok state.1, state.2)) _
  have paired : PoolM.Pledges scoping params (given ∧ store.Layered scoping scope floor)
      (action >>= fun result => Pure.pure (result, store)) fun state =>
        state.2 = store ∧ post state.1 :=
    .bind (done.assume And.left) fun result => .pure fun both => ⟨rfl, both.2⟩
  apply (judged scoping params).bind paired
  rintro ⟨result, state⟩
  refine (judged scoping params).pure fun facts => ?_
  obtain ⟨⟨_, layered⟩, rfl, holds⟩ := facts
  exact ⟨layered, fun _ same => Except.ok.inj same ▸ holds⟩

/-- The patterns that are read are layered. -/
theorem get {next : PatternStore → TypingM β} (rest : ∀ store, Pledges scoping params scope floor
    (given ∧ store.Layered scoping scope floor) (next store) post) :
    Pledges scoping params scope floor given (MonadState.get >>= next) post :=
  fun own => (judged scoping params).assume (fun facts => ⟨facts, facts.2⟩) (rest own own)

end Pledges

theorem pushTyped_scoped {kind : PatternKind} {span : Span} {type subject : TypeRef}
    (ranges : given → scoping.Over scope subject)
    (parts : given → ∀ part ∈ kind.parts, floor ≤ part) :
    Pledges scoping params scope floor given (pushTyped kind span type subject) (floor ≤ ·) := by
  apply Pledges.andThen (.onPool .ask)
  intro ownClass own
  refine (judged scoping params).pure fun facts => ?_
  exact ⟨facts.2.push (ranges facts.1) (parts facts.1), fun _ same =>
    Except.ok.inj same ▸ facts.2.size⟩

section
variable {typeField : Nat → TypeRef → TypingM Nat} {basis : Prop}
    (below : ∀ (given : Prop) field component,
  (given → basis) → (given → floor ≤ field) → (given → scoping.Over scope component) →
    Pledges scoping params scope floor given (typeField field component) (floor ≤ ·))
include below

theorem typeFields_scoped : ∀ {fields : List Nat} {components : List TypeRef} {given : Prop},
    (given → basis) → (given → ∀ field ∈ fields, floor ≤ field) →
    (given → ∀ component ∈ components, scoping.Over scope component) →
      Pledges scoping params scope floor given (typeFields typeField fields components)
        fun typed => ∀ id ∈ typed, floor ≤ id
  | [], _, _, _, _, _ => .pure fun _ => by simp
  | _ :: _, [], _, _, _, _ => .pure fun _ => by simp
  | field :: fields, component :: components, given, based, beyond, ranges => by
    apply Pledges.bind
      (below given field component based (fun holds => beyond holds field List.mem_cons_self)
      fun holds => ranges holds component List.mem_cons_self)
    intro typed
    apply Pledges.bind (typeFields_scoped (fun both => based both.1)
      (fun both other member => beyond both.1 other (List.mem_cons_of_mem _ member))
      fun both other member => ranges both.1 other (List.mem_cons_of_mem _ member))
    exact fun rest => .pure fun facts => List.forall_mem_cons.mpr ⟨facts.1.2, facts.2⟩

/-- The parts of a class are typed against its components, as the subject has them. -/
theorem typeParts_scoped (name : Name) (fields : List Nat) (span : Span) {subject : TypeRef}
    (based : given → basis) (describes : given → scoping.Describes hierarchy)
    (beyond : given → ∀ field ∈ fields, floor ≤ field)
    (ranges : given → scoping.Over scope subject) : Pledges scoping params scope floor given (do
      let type ← onPool (hierarchy.narrow name subject)
      let components ← onPool (hierarchy.componentsOf type)
      if components.length ≠ fields.length then
        throw (.arity name components.length fields.length span)
      let fields ← typeFields typeField fields components
      pushTyped (.deconstruct name fields) span type subject) (floor ≤ ·) := by
  apply Pledges.bind (.onPool (ClassHierarchy.narrow_scoped describes name ranges))
  intro type
  apply Pledges.bind
    (.onPool (ClassHierarchy.componentsOf_scoped (fun holding => describes holding.1) And.right))
  intro components
  have rest : Pledges scoping params scope floor ((given ∧ scoping.Over scope type) ∧
      ∀ component ∈ components, scoping.Over scope component) (do
        let fields ← typeFields typeField fields components
        pushTyped (.deconstruct name fields) span type subject) (floor ≤ ·) := by
    apply Pledges.bind
      (typeFields_scoped below (fun both => based both.1.1) (fun both => beyond both.1.1)
      And.right)
    exact fun typed => pushTyped_scoped (fun facts => ranges facts.1.1.1) And.right
  split
  · exact .andThen .fails fun _ => rest
  · exact rest

end

/-- A typed copy stands behind the floor, as the pattern does. -/
theorem typeWithin_scoped : ∀ (depth : Nat) {id : Nat} {subject : TypeRef} {given : Prop},
    (given → scoping.Describes hierarchy) → (given → floor ≤ id) →
    (given → scoping.Over scope subject) →
      Pledges scoping params scope floor given (typeWithin hierarchy depth id subject) (floor ≤ ·)
  | 0, _, _, _, _, _, _ => .onPool .fails
  | depth + 1, id, subject, given, describes, beyond, ranges => by
    apply Pledges.get
    intro store
    have read : PoolM.Pledges scoping params (given ∧ store.Layered scoping scope floor)
        (liftM (store.node id) : PoolM PatternNode) fun node => ∀ part ∈ node.kind.parts,
        floor ≤ part := by
      refine Hindsight.lift fun node answered holding =>
        (holding.2.nodes id node (beyond holding.1) ?_).2
      unfold PatternStore.node at answered
      split at answered
      · cases answered
        assumption
      · cases answered
    apply Pledges.bind (.onPool read)
    rintro ⟨kind, span⟩
    dsimp only
    cases kind with
    | wildcard => exact .pure fun both => beyond both.1.1
    | constant value =>
      apply Pledges.andThen (.onPool (.ofKeeps (couldMatch_keeps (inheritable_any hierarchy) _ _)))
      intro possible
      split
      · exact pushTyped_scoped (fun both => ranges both.1.1) fun _ => by simp [PatternKind.parts]
      · exact .fails
    | binding name inner =>
      cases inner with
      | none =>
        exact pushTyped_scoped (fun both => ranges both.1.1) fun _ => by simp [PatternKind.parts]
      | some inner =>
        apply Pledges.bind (typeWithin_scoped depth (fun both => describes both.1.1)
          (fun both => both.2 inner (by simp [PatternKind.parts])) fun both => ranges both.1.1)
        intro typed
        exact pushTyped_scoped (fun facts => ranges facts.1.1.1) fun facts => by
          simpa [PatternKind.parts] using facts.2
    | deconstruct name fields =>
      apply Pledges.andThen (.onPool (.ofKeeps (class_keeps (inheritable_any hierarchy) name)))
      intro classType
      apply Pledges.andThen (.onPool (.ofKeeps (couldMatch_keeps (inheritable_any hierarchy) _ _)))
      intro possible
      have typed : Pledges scoping params scope floor ((given ∧ store.Layered scoping scope floor) ∧
          ∀ field ∈ fields, floor ≤ field) _ (floor ≤ ·) :=
        typeParts_scoped (fun _ _ _ => typeWithin_scoped depth) name fields span
          (fun both => describes both.1.1) (fun both => describes both.1.1) And.right fun both =>
            ranges both.1.1
      split
      · exact typed
      · exact .andThen .fails fun _ => typed

/-- Typing a pattern, as a function on store and pool. -/
theorem runTyping_scoped {id : Nat} {subject : TypeRef} {after : PatternStore}
    {pool final : TypePool} {outcome : Except PatternFault Nat}
    (ran : runTyping hierarchy id subject store pool = .ok (outcome, after, final))
    (shown : final.Prefix scoping.pool) :
    pool.Prefix scoping.pool ∧ (scoping.Describes hierarchy → floor ≤ id →
      scoping.Over scope subject → store.Layered scoping scope floor → final.params = pool.params ∧
        after.Layered scoping scope floor ∧ ∀ typed, outcome = .ok typed → floor ≤ typed) := by
  obtain ⟨⟨⟨_, _⟩, _⟩, typed, same⟩ := Except.bind_eq_ok ran
  cases same
  have pledges : Pledges scoping pool.params scope floor (scoping.Describes hierarchy ∧ floor ≤ id ∧
      scoping.Over scope subject) (typeAgainst hierarchy id subject) (floor ≤ ·) := by
    apply Pledges.get
    exact fun store => typeWithin_scoped _ (fun facts => facts.1.1) (fun facts => facts.1.2.1)
      fun facts => facts.1.2.2
  obtain ⟨back, both⟩ := pledges store pool _ _ typed shown
  refine ⟨back, fun describes beyond ranges layered => ?_⟩
  obtain ⟨kept, still, holds⟩ := both ⟨⟨describes, beyond, ranges⟩, layered⟩ rfl
  exact ⟨kept, still, holds⟩

end PatternStore
end ClassLang
