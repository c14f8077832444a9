import ClassLang.Proofs.Pattern.Emission
import ClassLang.Proofs.Pattern.Entries
import ClassLang.Proofs.Pattern.Typing

/-! What the typed copy of a pattern is: the same pattern as it was written, every part typed
against what its place is handed down, beside all patterns that were there before. The copy can be
compiled. -/

namespace ClassLang

/-- A pattern as it is written. -/
inductive WrittenPattern where
  | wildcard (span : Span)
  | constant (value : Literal) (span : Span)
  | binding (name : Name) (span : Span)
  | named (name : Name) (inner : WrittenPattern) (span : Span)
  | deconstruct (class_ : Name) (fields : List WrittenPattern) (span : Span)
deriving Repr, Inhabited

namespace PatternStore

/-- Every pattern of `before` is where it was, and as it was. -/
def Extends (before after : PatternStore) : Prop :=
  ∀ (id : Nat) (node : PatternNode), before.nodes[id]? = some node → after.nodes[id]? = some node

namespace Extends
variable {before after first second third : PatternStore}

theorem refl (store : PatternStore) : store.Extends store := fun _ _ found => found

theorem trans (earlier : first.Extends second) (later : second.Extends third) :
    first.Extends third :=
  fun id node found => later id node (earlier id node found)

theorem push (store : PatternStore) (node : PatternNode) : store.Extends (store.push node).2 := by
  intro id found present
  have inside : id < store.nodes.size := (Array.getElem?_eq_some_iff.mp present).1
  simpa [PatternStore.push, Array.getElem?_push, Nat.ne_of_lt inside] using present

theorem lookup (extended : before.Extends after) {id : Nat} (inside : id < before.size) :
    after.nodes[id]? = before.nodes[id]? := by
  obtain ⟨node, found⟩ := lookup_of_lt inside
  rw [found, extended id node found]

theorem size_le (extended : before.Extends after) : before.size ≤ after.size := by
  refine Nat.not_lt.mp fun shorter => ?_
  exact Nat.lt_irrefl _
    (Array.getElem?_eq_some_iff.mp (extended after.size _ (Array.getElem?_eq_getElem shorter))).1

end Extends

/-- What building patterns through the store keeps: subpatterns are in the store, and wildcards are
typed from the start. -/
structure Closed (store : PatternStore) : Prop where
  parts : ∀ (id : Nat) (node : PatternNode), store.nodes[id]? = some node →
    ∀ part ∈ node.kind.parts, part < store.size
  wildcards : store.WildcardsTyped

theorem closed_empty : Closed {} := ⟨by simp, wildcardsTyped_empty⟩

theorem Closed.push {store : PatternStore} (closed : store.Closed) {node : PatternNode}
    (inside : ∀ part ∈ node.kind.parts, part < store.size)
    (typed : node.kind = .wildcard → node.state ≠ .unbound) : (store.push node).2.Closed := by
  have longer : store.size < (store.push node).2.size := by
    simp [PatternStore.push, PatternStore.size]
  refine ⟨fun id found present part member => Nat.lt_trans ?_ longer,
    (Grows.push store node typed).wildcards closed.wildcards⟩
  simp only [PatternStore.push, Array.getElem?_push] at present
  split at present
  · cases present
    exact inside part member
  · exact closed.parts id found present part member

theorem Closed.alloc {store : PatternStore} (closed : store.Closed) (kind : PatternKind)
    (span : Span) (inside : ∀ part ∈ kind.parts, part < store.size) :
    (store.alloc kind span).2.Closed := by
  unfold PatternStore.alloc
  split
  · exact closed.push inside (by simp)
  · rename_i other
    exact closed.push inside fun wild => absurd wild other

/-- The pattern at `id` is of a kind, and this is where it is written. -/
def Shows (store : PatternStore) (id : Nat) (kind : PatternKind) (span : Span) : Prop :=
  ∃ node, store.nodes[id]? = some node ∧ node.kind = kind ∧ node.span = span

mutual

/-- The pattern at a position unfolds to what was written. -/
def Unfolds (store : PatternStore) : WrittenPattern → Nat → Prop
  | .wildcard span, id => store.Shows id .wildcard span
  | .constant value span, id => store.Shows id (.constant value) span
  | .binding name span, id => store.Shows id (.binding name none) span
  | .named name inner span, id => ∃ child, store.Shows id (.binding name (some child)) span ∧
      Unfolds store inner child
  | .deconstruct class_ fields span, id =>
    ∃ children, store.Shows id (.deconstruct class_ children) span ∧
      UnfoldsAll store fields children

def UnfoldsAll (store : PatternStore) : List WrittenPattern → List Nat → Prop
  | [], [] => True
  | tree :: trees, child :: children => Unfolds store tree child ∧ UnfoldsAll store trees children
  | _, _ => False

end

/-- The pattern at `id` has been typed against the subject; these are its kind and its own type. -/
def TypedAt (store : PatternStore) (id : Nat) (kind : PatternKind)
    (type subject : TypeRef) : Prop :=
  ∃ node, store.nodes[id]? = some node ∧ node.kind = kind ∧ node.state = .typed ∧ node.type = type ∧
    node.subject = subject

section
variable (handsDown : Name → TypeRef → TypeRef → List TypeRef → Prop)

mutual

/-- Everything in a pattern but the wildcards is typed: the pattern against the subject, what a
binding names against the same, and the fields of a class against the components that the class has
there. -/
def TypedFor (store : PatternStore) : WrittenPattern → Nat → TypeRef → Prop
  | .wildcard _, _, _ => True
  | .constant value _, id, subject => store.TypedAt id (.constant value) value.type subject
  | .binding name _, id, subject => store.TypedAt id (.binding name none) subject subject
  | .named name inner _, id, subject =>
    ∃ child, store.TypedAt id (.binding name (some child)) subject subject ∧
      TypedFor store inner child subject
  | .deconstruct class_ fields _, id, subject => ∃ children type components,
    store.TypedAt id (.deconstruct class_ children) type subject ∧
    handsDown class_ subject type components ∧
      TypedForAll store fields children components

def TypedForAll (store : PatternStore) : List WrittenPattern → List Nat → List TypeRef → Prop
  | [], [], [] => True
  | tree :: trees, child :: children, component :: components =>
    TypedFor store tree child component ∧ TypedForAll store trees children components
  | _, _, _ => False

end
end

variable {before after : PatternStore}
    {handsDown wider : Name → TypeRef → TypeRef → List TypeRef → Prop}

theorem Shows.extend {id : Nat} {kind : PatternKind} {span : Span}
    (shows_ : before.Shows id kind span) (extended : before.Extends after) :
    after.Shows id kind span :=
  shows_.imp fun _ facts => facts.imp_left (extended id _)

theorem TypedAt.extend {id : Nat} {kind : PatternKind} {type subject : TypeRef}
    (typed : before.TypedAt id kind type subject) (extended : before.Extends after) :
    after.TypedAt id kind type subject :=
  typed.imp fun _ facts => facts.imp_left (extended id _)

mutual

theorem Unfolds.extend (extended : before.Extends after) : ∀ (tree : WrittenPattern) (id : Nat),
    before.Unfolds tree id → after.Unfolds tree id
  | .wildcard _, _, shows_ | .constant .., _, shows_ | .binding .., _, shows_ =>
    Shows.extend shows_ extended
  | .named _ inner _, _, ⟨child, shows_, below⟩ =>
    ⟨child, shows_.extend extended, below.extend extended inner child⟩
  | .deconstruct _ fields _, _, ⟨children, shows_, below⟩ =>
    ⟨children, shows_.extend extended, below.extend extended fields children⟩

theorem UnfoldsAll.extend (extended : before.Extends after) :
    ∀ (trees : List WrittenPattern) (ids : List Nat), before.UnfoldsAll trees ids →
    after.UnfoldsAll trees ids
  | [], [], _ => trivial
  | tree :: trees, id :: ids, ⟨first, rest⟩ =>
    ⟨first.extend extended tree id, rest.extend extended trees ids⟩

end

theorem Unfolds.inside {tree : WrittenPattern} {id : Nat} (unfolds : before.Unfolds tree id) :
    id < before.size := by
  have inside {kind : PatternKind} {span : Span} (shows_ : before.Shows id kind span) :
      id < before.size := by
    obtain ⟨node, found, _⟩ := shows_
    exact (Array.getElem?_eq_some_iff.mp found).1
  cases tree with
  | wildcard | constant | binding => exact inside unfolds
  | named | deconstruct =>
    obtain ⟨_, shows_, _⟩ := unfolds
    exact inside shows_

theorem UnfoldsAll.inside : ∀ {trees : List WrittenPattern} {ids : List Nat},
    before.UnfoldsAll trees ids → ∀ id ∈ ids, id < before.size
  | [], [], _ => by simp
  | _ :: _, _ :: _, ⟨first, rest⟩ => List.forall_mem_cons.mpr ⟨first.inside, rest.inside⟩

/-- What a pattern of the store shows later it shows already, and so do its parts. -/
theorem Shows.restrict {id : Nat} {kind : PatternKind} {span : Span}
    (shows_ : after.Shows id kind span) (extended : before.Extends after) (closed : before.Closed)
    (inside : id < before.size) : before.Shows id kind span ∧ ∀ part ∈ kind.parts,
    part < before.size := by
  obtain ⟨node, found, rfl, rfl⟩ := shows_
  rw [extended.lookup inside] at found
  exact ⟨⟨node, found, rfl, rfl⟩, closed.parts id node found⟩

mutual

theorem Unfolds.restrict (extended : before.Extends after) (closed : before.Closed) :
    ∀ (tree : WrittenPattern) (id : Nat), id < before.size → after.Unfolds tree id →
    before.Unfolds tree id
  | .wildcard _, _, inside, shows_ | .constant .., _, inside, shows_ | .binding .., _,
      inside, shows_ =>
    (Shows.restrict shows_ extended closed inside).1
  | .named _ inner _, _, inside, ⟨child, shows_, below⟩ => by
    obtain ⟨shown, parts⟩ := shows_.restrict extended closed inside
    exact ⟨child, shown, below.restrict extended closed inner child
      (parts child (by simp [PatternKind.parts]))⟩
  | .deconstruct _ fields _, _, inside, ⟨children, shows_, below⟩ => by
    obtain ⟨shown, parts⟩ := shows_.restrict extended closed inside
    exact ⟨children, shown, below.restrict extended closed fields children parts⟩

theorem UnfoldsAll.restrict (extended : before.Extends after) (closed : before.Closed) :
    ∀ (trees : List WrittenPattern) (ids : List Nat), (∀ id ∈ ids, id < before.size) →
    after.UnfoldsAll trees ids →
      before.UnfoldsAll trees ids
  | [], [], _, _ => trivial
  | tree :: trees, id :: ids, inside, ⟨first, rest⟩ => by
    obtain ⟨bound, others⟩ := List.forall_mem_cons.mp inside
    exact ⟨first.restrict extended closed tree id bound,
      rest.restrict extended closed trees ids others⟩

end

mutual

theorem TypedFor.extend (extended : before.Extends after)
    (widen : ∀ class_ subject type components, handsDown class_ subject type components →
      wider class_ subject type components) :
        ∀ (tree : WrittenPattern) (id : Nat) (subject : TypeRef),
    before.TypedFor handsDown tree id subject → after.TypedFor wider tree id subject
  | .wildcard _, _, _, _ => trivial
  | .constant .., _, _, typed | .binding .., _, _, typed => TypedAt.extend typed extended
  | .named _ inner _, _, subject, ⟨child, typed, below⟩ =>
    ⟨child, typed.extend extended, below.extend extended widen inner child subject⟩
  | .deconstruct _ fields _, _, _, ⟨children, type, components, typed, hands, below⟩ =>
    ⟨children, type, components, typed.extend extended, widen _ _ _ _ hands,
      below.extend extended widen fields children components⟩

theorem TypedForAll.extend (extended : before.Extends after)
    (widen : ∀ class_ subject type components, handsDown class_ subject type components →
      wider class_ subject type components) :
        ∀ (trees : List WrittenPattern) (ids : List Nat) (components : List TypeRef),
    before.TypedForAll handsDown trees ids components → after.TypedForAll wider trees ids components
  | [], [], [], _ => trivial
  | tree :: trees, id :: ids, component :: components, ⟨first, rest⟩ =>
    ⟨first.extend extended widen tree id component, rest.extend extended widen trees ids components⟩

end

end PatternStore

/-- The type of a class taken out of a subject and the components that it has there, found while the
pool grew from one state to the other. -/
def ClassHierarchy.HandsDown (hierarchy : ClassHierarchy) (pool final : TypePool) (class_ : Name)
    (subject type : TypeRef) (components : List TypeRef) : Prop :=
  ∃ start middle after, pool.Extends start ∧ (hierarchy.narrow class_ subject).run start = .ok
    (type, middle) ∧
    (hierarchy.componentsOf type).run middle = .ok (components, after) ∧ after.Extends final

theorem ClassHierarchy.HandsDown.widen {hierarchy : ClassHierarchy}
    {pool earlier final later : TypePool} (before : earlier.Extends pool)
    (after : final.Extends later) (class_ : Name) (subject type : TypeRef)
    (components : List TypeRef)
    (hands : hierarchy.HandsDown pool final class_ subject type components) :
    hierarchy.HandsDown earlier later class_ subject type components := by
  obtain ⟨start, middle, last, begun, narrowed, listed, ended⟩ := hands
  exact ⟨start, middle, last, before.trans begun, narrowed, listed, ended.trans after⟩

/-- Whenever the action ends, patterns and types were only added, and `post` holds of a result that
is not a fault. -/
def TypingM.Adds (action : TypingM α) (store : PatternStore) (pool : TypePool)
    (post : α → PatternStore → TypePool → Prop) : Prop :=
  Ensures (action.run.run store) pool fun result final =>
    store.Extends result.2 ∧ (store.Closed → result.2.Closed) ∧ pool.Extends final ∧
      ∀ value, result.1 = .ok value → post value result.2 final

namespace TypingM.Adds
variable {store : PatternStore} {pool : TypePool} {post : β → PatternStore → TypePool → Prop}

theorem pure {result : α} {post : α → PatternStore → TypePool → Prop}
    (holds : post result store pool) : TypingM.Adds (Pure.pure result) store pool post := by
  change Ensures (Pure.pure (Except.ok result, store) : PoolM _) pool _
  exact Ensures.pure ⟨.refl store, id, .refl pool, fun _ same => Except.ok.inj same ▸ holds⟩

theorem fault {fault : PatternFault} {post : α → PatternStore → TypePool → Prop} :
    TypingM.Adds (throw fault) store pool post := by
  change Ensures (Pure.pure (Except.error fault, store) : PoolM _) pool _
  exact Ensures.pure ⟨.refl store, id, .refl pool, fun _ same => nomatch same⟩

theorem bind {action : TypingM α} {next : α → TypingM β}
    {middle : α → PatternStore → TypePool → Prop} (first : TypingM.Adds action store pool middle)
    (rest : ∀ result between pool', store.Extends between → (store.Closed → between.Closed) →
      pool.Extends pool' → middle result between pool' →
      TypingM.Adds (next result) between pool' post) :
    TypingM.Adds (action >>= next) store pool post := by
  unfold TypingM.Adds
  rw [Works.run_bind]
  refine Ensures.bind (first.mono ?_)
  rintro ⟨outcome, between⟩ pool' ⟨added, closes, grown, holds⟩
  cases outcome with
  | error fault => exact Ensures.pure ⟨added, closes, grown, fun _ same => nomatch same⟩
  | ok value =>
    exact (rest value between pool' added closes grown (holds value rfl)).mono
      fun _ _ ⟨more, closed, wider, done⟩ =>
        ⟨added.trans more, closed ∘ closes, grown.trans wider, done⟩

theorem mono {action : TypingM α} {weak strong : α → PatternStore → TypePool → Prop}
    (adds : TypingM.Adds action store pool strong)
    (weaken : ∀ result after final, store.Extends after → pool.Extends final →
      strong result after final → weak result after final) : TypingM.Adds action store pool weak :=
  Ensures.mono adds fun _ _ ⟨added, closes, grown, holds⟩ =>
    ⟨added, closes, grown, fun value same => weaken value _ _ added grown (holds value same)⟩

/-- Work on the pool. -/
theorem onPool {action : PoolM α} {next : α → TypingM β}
    (grows : PoolM.Keeps (fun _ => True) action)
    (rest : ∀ result pool', action.run pool = .ok (result, pool') → pool.Extends pool' →
      TypingM.Adds (next result) store pool' post) :
    TypingM.Adds (PatternStore.onPool action >>= next) store pool post := by
  have lifted : TypingM.Adds (PatternStore.onPool action) store pool fun result after pool' =>
      after = store ∧ action.run pool = .ok (result, pool') := by
    unfold TypingM.Adds
    rw [Works.run_onPool]
    refine Ensures.bind fun value pool' ran => Ensures.pure ⟨.refl store, id, ?_, fun _ same => ?_⟩
    · exact (grows.run (fun _ _ _ => trivial) ran).1
    · cases same
      exact ⟨rfl, ran⟩
  refine bind lifted ?_
  rintro result _ pool' _ _ grown ⟨rfl, ran⟩
  exact rest result pool' ran grown

theorem get {next : PatternStore → TypingM β} (rest : TypingM.Adds (next store) store pool post) :
    TypingM.Adds (MonadState.get >>= next) store pool post :=
  rest

end TypingM.Adds

namespace PatternStore
open TypingM

variable {store : PatternStore} {pool : TypePool}

theorem pushTyped_adds {kind : PatternKind} (span : Span) (type subject : TypeRef)
    (inside : ∀ part ∈ kind.parts, part < store.size) :
    Adds (pushTyped kind span type subject) store pool fun copy after _ =>
      after.Shows copy kind span ∧ after.TypedAt copy kind type subject := by
  refine Adds.onPool (.inspect (by simp)) fun own pool' _ _ => ?_
  change Ensures (Pure.pure (Except.ok store.size, _) : PoolM _) pool' _
  refine Ensures.pure ⟨.push store _, fun closed => closed.push inside (by simp), .refl pool',
    fun copy same => ?_⟩
  cases same
  exact ⟨⟨_, Array.getElem?_push_size, rfl, rfl⟩, ⟨_, Array.getElem?_push_size, rfl, rfl, rfl, rfl⟩⟩

/-- What the copy of a pattern is. -/
def CopiedAt (hierarchy : ClassHierarchy) (store : PatternStore) (pool : TypePool) (id : Nat)
    (subject : TypeRef) (copy : Nat) (after : PatternStore) (final : TypePool) : Prop :=
  ∃ tree, store.Unfolds tree id ∧ after.Unfolds tree copy ∧
    after.TypedFor (hierarchy.HandsDown pool final) tree copy subject

variable {hierarchy : ClassHierarchy}

/-- Fields are copied one after the other. -/
theorem typeFields_copies {typeField : Nat → TypeRef → TypingM Nat}
    (each : ∀ field component store pool, store.Closed →
      Adds (typeField field component) store pool (CopiedAt hierarchy store pool field component)) :
    ∀ (fields : List Nat) (components : List TypeRef) (store : PatternStore) (pool : TypePool),
      components.length = fields.length → (∀ field ∈ fields, field < store.size) → store.Closed →
      Adds (typeFields typeField fields components) store pool fun copies after final => ∃ trees,
        store.UnfoldsAll trees fields ∧ after.UnfoldsAll trees copies ∧
          after.TypedForAll (hierarchy.HandsDown pool final) trees copies components
  | [], [], _, _, _, _, _ => Adds.pure ⟨[], trivial, trivial, trivial⟩
  | field :: fields, component :: components, store, pool, sameLength, inside, closed => by
    obtain ⟨-, others⟩ := List.forall_mem_cons.mp inside
    refine Adds.bind (each field component store pool closed) ?_
    rintro copy between pool' added closes grown ⟨tree, written, copied, typed⟩
    have still : ∀ other ∈ fields, other < between.size := fun other member =>
      Nat.lt_of_lt_of_le (others other member) added.size_le
    refine Adds.bind (typeFields_copies each fields components between pool'
      (Nat.succ.inj sameLength) still (closes closed)) ?_
    rintro copies after final more _ wider ⟨trees, othersWritten, othersCopied, othersTyped⟩
    refine Adds.pure ⟨tree :: trees, ⟨written, ?_⟩,
      ⟨copied.extend more tree copy, othersCopied⟩, ?_, ?_⟩
    · exact othersWritten.restrict added closed trees fields others
    · exact typed.extend more (fun _ _ _ _ => .widen (.refl pool) wider _ _ _ _) tree copy component
    · exact othersTyped.extend (.refl after) (fun _ _ _ _ => .widen grown (.refl final) _ _ _ _)
        trees copies components

/-- A pattern is copied with everything in it; a wildcard stands for itself. -/
theorem typeWithin_copies :
    ∀ (depth id : Nat) (subject : TypeRef) (store : PatternStore) (pool : TypePool),
    store.Closed → Adds (typeWithin hierarchy depth id subject) store pool
      (CopiedAt hierarchy store pool id subject)
  | 0, _, _, _, _, _ => fun _ _ ran => by cases ran
  | depth + 1, id, subject, store, pool, closed => by
    refine Adds.get (Adds.onPool (.lift (by simp)) fun node pool looked _ => ?_)
    obtain ⟨found, rfl⟩ := lookup_of_lifted looked
    have shows_ : store.Shows id node.kind node.span := ⟨node, found, rfl, rfl⟩
    have parts := closed.parts id node found
    have all := PoolM.inheritable_any hierarchy
    split
    · rename_i kind
      rw [kind] at shows_
      exact Adds.pure ⟨.wildcard node.span, shows_, shows_, trivial⟩
    · rename_i value kind
      rw [kind] at shows_
      refine Adds.onPool (couldMatch_keeps all _ _) fun possible pool' _ _ => ?_
      split
      · refine (pushTyped_adds node.span value.type subject (by simp [PatternKind.parts])).mono ?_
        rintro copy after final _ _ ⟨shown, typed⟩
        exact ⟨.constant value node.span, shows_, shown, typed⟩
      · exact Adds.fault
    · rename_i name kind
      rw [kind] at shows_
      refine (pushTyped_adds node.span subject subject (by simp [PatternKind.parts])).mono ?_
      rintro copy after final _ _ ⟨shown, typed⟩
      exact ⟨.binding name node.span, shows_, shown, typed⟩
    · rename_i name inner kind
      rw [kind] at shows_
      refine Adds.bind (typeWithin_copies depth inner subject store pool closed) ?_
      rintro child between pool' _ _ _ ⟨tree, written, copied, innerTyped⟩
      have childInside : ∀ part ∈ (PatternKind.binding name (some child)).parts,
          part < between.size := fun part member =>
        List.mem_singleton.mp member ▸ copied.inside
      refine (pushTyped_adds node.span subject subject childInside).mono ?_
      rintro copy after final more wider ⟨shown, typed⟩
      exact ⟨.named name tree node.span, ⟨inner, shows_, written⟩,
        ⟨child, shown, copied.extend more tree child⟩, child, typed, innerTyped.extend more
          (fun _ _ _ _ => .widen (.refl pool) wider _ _ _ _) tree child subject⟩
    · rename_i name fields kind
      rw [kind] at shows_ parts
      refine Adds.onPool (PoolM.class_keeps all name) fun classType first _ toFirst => ?_
      refine Adds.onPool (couldMatch_keeps all _ _) fun possible second _ toSecond => ?_
      split
      · refine Adds.onPool (ClassHierarchy.narrow_keeps all name subject)
          fun type third narrowed toThird => ?_
        refine Adds.onPool (ClassHierarchy.componentsOf_keeps all type)
          fun components last listed toLast => ?_
        dsimp only
        split
        · exact Adds.fault
        · rename_i sameLength
          have start := toFirst.trans toSecond
          refine Adds.bind (typeFields_copies (typeWithin_copies depth) fields components store last
            (not_not.mp sameLength) parts closed) ?_
          rintro copies between pool' _ _ grown ⟨trees, written, copied, fieldsTyped⟩
          have copiesInside : ∀ part ∈ (PatternKind.deconstruct name copies).parts,
              part < between.size := copied.inside
          refine (pushTyped_adds node.span type subject copiesInside).mono ?_
          rintro copy after final more wider ⟨shown, typed⟩
          have hands : hierarchy.HandsDown pool final name subject type components :=
            ⟨second, third, last, start, narrowed, listed, grown.trans wider⟩
          exact ⟨.deconstruct name trees node.span, ⟨fields, shows_, written⟩,
            ⟨copies, shown, copied.extend more trees copies⟩, copies, type, components,
              typed, hands,
            fieldsTyped.extend more (fun _ _ _ _ =>
              .widen ((start.trans toThird).trans toLast) wider _ _ _ _) trees copies components⟩
      · exact Adds.fault

end PatternStore

namespace CompileM
open PatternStore

variable {state : CompileState}

/-- Compiling what is on the stack starts by storing it, unless it is a wildcard. -/
theorem compileWithin_stored {depth id : Nat} {kind : PatternKind}
    (holds : state.store.HoldsTyped id kind) (other : kind ≠ .wildcard) (label : JumpLabel) :
    (compileWithin (depth + 1) id none label).run state = (do
      let slot ← ensureSlot none
      compileWithin (depth + 1) id (some slot) label).run state := by
  obtain ⟨node, found, rfl, typed⟩ := holds.lookup
  have asked {work : CompileState} (same : work.store = state.store) :
      (inspect (·.node id)).run work = .ok (node, work) := by
    rw [← same] at found
    change (work.store.node id >>= fun answer => Pure.pure (answer, work)) = _
    rw [found, ok_bind, pure_eq_ok]
  obtain ⟨stored, starts, same⟩ : ∃ stored,
      (ensureSlot none).run state = .ok (⟨state.buffer.nextSlot⟩, stored) ∧
      stored.store = state.store := ⟨_, rfl, rfl⟩
  rw [StateT.run_bind, starts, ok_bind]
  unfold compileWithin
  rw [StateT.run_bind, asked rfl, ok_bind, StateT.run_bind, asked same, ok_bind]
  simp only [typed, if_false]
  cases kind : node.kind with
  | wildcard => exact absurd kind other
  | constant | binding | deconstruct =>
    dsimp only
    rw [StateT.run_bind, starts, ok_bind]
    rfl

/-- A typed pattern is compiled without failure, wherever the subject is. -/
theorem compilePattern_completes {tree : PatternTree} {id : Nat}
    (holds : state.store.Represents tree id) (slot : Option Slot) (label : JumpLabel) :
    Completes (compilePattern id slot label) state fun _ _ => True := by
  have fromSlot {work : CompileState} (same : work.store = state.store) (slot : Slot) :
      Completes (compilePattern id (some slot) label) work fun _ _ => True :=
    (compilePattern_emits label slot (same ▸ holds) _ rfl).mono fun _ _ _ => trivial
  cases slot with
  | some slot => exact fromSlot rfl slot
  | none =>
    have fromStack {kind : PatternKind} (typed : state.store.HoldsTyped id kind)
        (other : kind ≠ .wildcard) :
        Completes (compilePattern id none label) state fun _ _ => True := by
      obtain ⟨stored, starts, same⟩ : ∃ stored,
          (ensureSlot none).run state = .ok (⟨state.buffer.nextSlot⟩, stored) ∧
          stored.store = state.store := ⟨_, rfl, rfl⟩
      obtain ⟨result, final, ran, _⟩ := fromSlot same ⟨state.buffer.nextSlot⟩
      refine Completes.bind (Completes.get ⟨result, final, ?_, trivial⟩)
      rw [compileWithin_stored typed other, StateT.run_bind, starts, ok_bind, ← same]
      exact ran
    cases tree with
    | wildcard =>
      obtain ⟨node, found, kind, typed⟩ := HoldsTyped.lookup holds
      refine Completes.bind (Completes.get (Completes.bind (inspect_completes found ?_)))
      simp only [typed, if_false, kind]
      exact Completes.bind (Completes.modify (Completes.modify trivial))
    | constant => exact fromStack holds nofun
    | binding => exact fromStack holds nofun
    | named =>
      obtain ⟨child, _, typed, _⟩ := holds
      exact fromStack typed nofun
    | deconstruct =>
      obtain ⟨children, own, typed, _⟩ := holds
      exact fromStack typed.typed nofun

end CompileM

namespace PatternStore

/-- Typing a pattern leaves what was there as it was, whether it succeeds or not. A copy is the
pattern as it was written, all of it typed against what its place is handed down, and compiling it
does not fail. -/
theorem typing_copies {hierarchy : ClassHierarchy} {id : Nat} {subject : TypeRef}
    {store after : PatternStore} {pool final : TypePool} {outcome : Except PatternFault Nat}
    (closed : store.Closed)
    (ran : runTyping hierarchy id subject store pool = .ok (outcome, after, final)) :
    (∀ index < store.size, after.nodes[index]? = store.nodes[index]?) ∧ after.Closed ∧
    ∀ copy, outcome = .ok copy →
      (∃ tree, store.Unfolds tree id ∧ after.Unfolds tree copy ∧
        after.TypedFor (hierarchy.HandsDown pool final) tree copy subject) ∧
      ∀ slot label buffer, Completes (CompileM.compilePattern copy slot label)
        { store := after, buffer } fun _ _ => True := by
  obtain ⟨-, represents⟩ := runTyping_sound closed.wildcards ran
  obtain ⟨⟨⟨found, between⟩, poolAfter⟩, typed, same⟩ := Except.bind_eq_ok ran
  cases same
  obtain ⟨added, closes, _, copies⟩ := typeWithin_copies _ id subject store pool closed _ _ typed
  refine ⟨fun index bound => added.lookup bound, closes closed, fun copy same =>
    ⟨copies copy same, fun slot label buffer => ?_⟩⟩
  obtain ⟨tree, holds⟩ := represents copy same
  exact CompileM.compilePattern_completes holds slot label

/-- `Pair<T>` has a component of type `T` and an integer. -/
def pairClasses : ClassHierarchy where
  superclass _ := none
  interfaces _ := []
  typeParams name := if name = "Pair" then [⟨0⟩] else []
  variants _ := none
  isAbstract _ := false
  components name := if name = "Pair" then [⟨7⟩, .int] else []
  classes := ["Pair"]

def pairPool : TypePool :=
  .ofEntries
    #[.any, .void, .int, .float, .bool, .char, .string, .var ⟨0⟩ .invariant,
      .applied "Pair" [.bool]]
    #[⟨"T", "Pair", .invariant, []⟩]

/-- `Pair(x @ _, last)`, where the last component is compared with a constant. -/
def pairStore (last : Literal) : PatternStore :=
  let wild := (({} : PatternStore).alloc .wildcard ⟨0, 1⟩).2
  let named := (wild.alloc (.binding "x" (some 0)) ⟨0, 3⟩).2
  let compared := (named.alloc (.constant last) ⟨4, 5⟩).2
  (compared.alloc (.deconstruct "Pair" [1, 2]) ⟨0, 6⟩).2

theorem closed_pairStore (last : Literal) : (pairStore last).Closed :=
  (((closed_empty.alloc _ _ (by simp [PatternKind.parts])).alloc _ _ (by decide)).alloc _ _
    (by simp [PatternKind.parts])).alloc _ _
    (by simp [PatternKind.parts, PatternStore.alloc, PatternStore.push,
      PatternStore.size])

/-- A pair with a number is copied and can be compiled. With a truth value typing fails after the
first component, and leaves a copy of that one behind. -/
theorem typing_copies_pair :
    (∃ after final, runTyping pairClasses 3 ⟨8⟩ (pairStore (.int 1)) pairPool =
      .ok (.ok 6, after, final) ∧
      (∀ index < 4, after.nodes[index]? = (pairStore (.int 1)).nodes[index]?) ∧
      (∃ tree, (pairStore (.int 1)).Unfolds tree 3 ∧ after.Unfolds tree 6 ∧
        after.TypedFor (pairClasses.HandsDown pairPool final) tree 6 ⟨8⟩) ∧
      ∀ slot label buffer, Completes (CompileM.compilePattern 6 slot label)
        { store := after, buffer } fun _ _ => True) ∧
    ∃ fault after final, runTyping pairClasses 3 ⟨8⟩ (pairStore (.bool true)) pairPool =
      .ok (.error fault, after, final) ∧
      after.size = 5 ∧ ∀ index < 4,
        after.nodes[index]? = (pairStore (.bool true)).nodes[index]? := by
  obtain ⟨kept, -, copied⟩ := typing_copies (closed_pairStore (.int 1))
    (rfl : runTyping pairClasses 3 ⟨8⟩ (pairStore (.int 1)) pairPool = .ok (.ok 6, _, _))
  obtain ⟨still, -⟩ := typing_copies (closed_pairStore (.bool true))
    (rfl : runTyping pairClasses 3 ⟨8⟩ (pairStore (.bool true)) pairPool = .ok (.error _, _, _))
  exact ⟨⟨_, _, rfl, kept, copied 6 rfl⟩, _, _, _, rfl, rfl, still⟩

end PatternStore
end ClassLang
