import ClassLang.Pattern.Typing
import ClassLang.Proofs.Pattern.Tree
import Mathlib.Logic.Relation

/-! Typing a pattern: whatever it is typed against, the typed copy is a tree, and what the store
held before stays. -/

namespace ClassLang

/-- Wildcards need no typing. -/
def PatternStore.WildcardsTyped (store : PatternStore) : Prop :=
  ∀ (id : Nat) (node : PatternNode), store.nodes[id]? = some node → node.kind = .wildcard →
    node.state ≠ .unbound

/-- `after` has the patterns of `before`, and its wildcards are typed if those were. -/
structure PatternStore.Grows (before after : PatternStore) : Prop where
  keeps : before.Keeps after
  wildcards : before.WildcardsTyped → after.WildcardsTyped

namespace PatternStore.Grows

theorem refl (store : PatternStore) : store.Grows store := ⟨.refl store, fun typed => typed⟩

theorem trans {first second third : PatternStore} (earlier : first.Grows second)
    (later : second.Grows third) : first.Grows third :=
  ⟨earlier.keeps.trans later.keeps, fun typed => later.wildcards (earlier.wildcards typed)⟩

theorem push (store : PatternStore) (node : PatternNode)
    (typed : node.kind = .wildcard → node.state ≠ .unbound) : store.Grows (store.push node).2 := by
  refine ⟨.push store node, fun before id found present wild => ?_⟩
  simp only [PatternStore.push, Array.getElem?_push] at present
  split at present
  · cases present
    exact typed wild
  · exact before id found present wild

theorem alloc (store : PatternStore) (kind : PatternKind) (span : Span) :
    store.Grows (store.alloc kind span).2 := by
  unfold PatternStore.alloc
  split
  · exact push store _ (by simp)
  · rename_i other
    exact push store _ fun wild => absurd wild other

theorem markCompiled (store : PatternStore) (id : Nat) : store.Grows (store.markCompiled id) := by
  refine ⟨.markCompiled store id, fun before other node present wild => ?_⟩
  unfold PatternStore.markCompiled at present
  split at present
  · rename_i marked found
    rw [Array.getElem?_setIfInBounds] at present
    split at present
    · split at present
      · cases present
        simp
      · cases present
    · exact before other node present wild
  · exact before other node present wild

end PatternStore.Grows

/-- Whenever the action ends, patterns are only added, and `post` holds of a result that is not a
fault. -/
def TypingM.Sound (action : TypingM α) (before : PatternStore) (post : α → PatternStore → Prop) :
    Prop :=
  ∀ pool outcome after pool', (action.run.run before).run pool = .ok ((outcome, after), pool') →
    before.Grows after ∧ ∀ result, outcome = .ok result → post result after

namespace TypingM.Sound

variable {before : PatternStore}

theorem pure {result : α} {post : α → PatternStore → Prop} (holds : post result before) :
    TypingM.Sound (Pure.pure result) before post := by
  intro pool outcome after pool' ran
  cases ran
  refine ⟨.refl before, fun value same => ?_⟩
  cases same
  exact holds

theorem mono {action : TypingM α} {weak strong : α → PatternStore → Prop}
    (sound : TypingM.Sound action before strong)
    (weaken : ∀ result after, strong result after → weak result after) :
    TypingM.Sound action before weak := by
  intro pool outcome after pool' ran
  obtain ⟨grown, holds⟩ := sound pool outcome after pool' ran
  exact ⟨grown, fun result same => weaken result after (holds result same)⟩

theorem fault {fault : PatternFault} {post : α → PatternStore → Prop} :
    TypingM.Sound (throw fault) before post := by
  intro pool outcome after pool' ran
  cases ran
  exact ⟨.refl before, fun value same => by cases same⟩

theorem bind {action : TypingM α} {next : α → TypingM β} {middle : α → PatternStore → Prop}
    {post : β → PatternStore → Prop} (first : TypingM.Sound action before middle)
    (rest : ∀ result after, before.Grows after → middle result after →
      TypingM.Sound (next result) after post) :
    TypingM.Sound (action >>= next) before post := by
  intro pool outcome after pool' ran
  obtain ⟨⟨⟨found, between⟩, poolBetween⟩, ranFirst, ranRest⟩ := Except.bind_eq_ok ran
  obtain ⟨grown, holds⟩ := first _ _ _ _ ranFirst
  cases found with
  | error fault =>
    cases ranRest
    exact ⟨grown, fun value same => by cases same⟩
  | ok result =>
    obtain ⟨more, final⟩ := rest result between grown (holds result rfl) _ _ _ _ ranRest
    exact ⟨grown.trans more, final⟩

/-- Asking the pool does not touch the patterns. -/
theorem bindPool {action : PoolM α} {next : α → TypingM β} {post : β → PatternStore → Prop}
    (rest : ∀ pool result pool', action.run pool = .ok (result, pool') →
      TypingM.Sound (next result) before post) :
    TypingM.Sound (PatternStore.onPool action >>= next) before post := by
  intro pool outcome after pool' ran
  obtain ⟨⟨⟨found, between⟩, poolBetween⟩, ranFirst, ranRest⟩ := Except.bind_eq_ok ran
  obtain ⟨⟨⟨inner, same⟩, poolAfter⟩, lifted, wrapped⟩ := Except.bind_eq_ok ranFirst
  obtain ⟨⟨result, poolAsked⟩, asked, kept⟩ := Except.bind_eq_ok lifted
  cases kept
  cases wrapped
  exact rest _ _ _ asked _ _ _ _ ranRest

theorem bindGet {next : PatternStore → TypingM β} {post : β → PatternStore → Prop}
    (rest : TypingM.Sound (next before) before post) :
    TypingM.Sound (MonadState.get >>= next) before post :=
  rest

theorem modifyGet {change : PatternStore → α × PatternStore} {post : α → PatternStore → Prop}
    (grown : before.Grows (change before).2) (holds : post (change before).1 (change before).2) :
    TypingM.Sound (MonadState.modifyGet change : TypingM α) before post := by
  intro pool outcome after pool' ran
  cases ran
  refine ⟨grown, fun value same => ?_⟩
  cases same
  exact holds

end TypingM.Sound

namespace PatternStore
open TypingM

variable {before : PatternStore}

theorem lookup_of_lifted {store : PatternStore} {id : Nat} {node : PatternNode}
    {pool pool' : TypePool}
    (looked : (liftM (store.node id) : PoolM PatternNode).run pool = .ok (node, pool')) :
    store.nodes[id]? = some node ∧ pool' = pool := by
  obtain ⟨found, looked, same⟩ := Except.bind_eq_ok looked
  cases same
  unfold PatternStore.node at looked
  split at looked
  · cases looked
    exact ⟨‹_›, rfl⟩
  · cases looked

/-- The node entered last. -/
theorem holdsOwn_push (store : PatternStore) (node : PatternNode) (typed : node.state ≠ .unbound) :
    (store.push node).2.HoldsOwn (store.push node).1 node.kind node.ownClass :=
  ⟨node, by simp [PatternStore.push, PatternStore.size], rfl, rfl, typed⟩

theorem pushTyped_sound {kind : PatternKind} (span : Span) (type subject : TypeRef) :
    Sound (pushTyped kind span type subject) before fun id after =>
      before.Keeps after ∧ id = before.size ∧ ∃ own, after.HoldsOwn id kind own := by
  refine Sound.bindPool fun _ ownClass _ _ => ?_
  refine Sound.modifyGet (.push _ _ (by simp)) ⟨.push _ _, rfl, ownClass, ?_⟩
  exact holdsOwn_push before _ (by simp)

/-- Fields are typed one after the other; what has been typed stays. -/
theorem typeFields_sound {typeField : Nat → TypeRef → TypingM Nat}
    (sound : ∀ (field : Nat) (component : TypeRef) (before : PatternStore), before.WildcardsTyped →
      Sound (typeField field component) before fun id after => ∃ tree, after.Represents tree id) :
    ∀ (fields : List Nat) (components : List TypeRef) (before : PatternStore),
      before.WildcardsTyped →
      Sound (typeFields typeField fields components) before fun ids after =>
        ∃ trees, after.RepresentsAll after.size trees ids
  | [], _, _, _ => Sound.pure ⟨[], trivial⟩
  | _ :: _, [], _, _ => Sound.pure ⟨[], trivial⟩
  | field :: fields, component :: components, before, typed => by
    refine Sound.bind (sound field component before typed) fun id between grown first => ?_
    obtain ⟨tree, holds⟩ := first
    refine Sound.bind (typeFields_sound sound fields components between (grown.wildcards typed)) ?_
    rintro ids after more ⟨trees, rest⟩
    have kept := Represents.keep more.keeps tree id holds
    exact Sound.pure ⟨tree :: trees, kept.inside, kept, rest⟩

/-- A typed copy is a tree. -/
theorem typeWithin_sound (hierarchy : ClassHierarchy) :
    ∀ (depth id : Nat) (subject : TypeRef) (before : PatternStore), before.WildcardsTyped →
      Sound (typeWithin hierarchy depth id subject) before fun id after =>
        ∃ tree, after.Represents tree id
  | 0, _, _, _, _ => fun pool outcome after pool' ran => by cases ran
  | depth + 1, id, subject, before, typed => by
    refine Sound.bindGet (Sound.bindPool fun _ node _ looked => ?_)
    obtain ⟨found, -⟩ := lookup_of_lifted looked
    split
    · rename_i kind
      exact Sound.pure ⟨.wildcard, node, found, kind, typed id node found kind⟩
    · rename_i value kind
      refine Sound.bindPool fun _ possible _ _ => ?_
      split
      · refine Sound.mono (pushTyped_sound node.span value.type subject) ?_
        rintro id after ⟨_, _, own, holds⟩
        exact ⟨.constant value, holds.typed⟩
      · exact Sound.fault
    · rename_i name kind
      refine Sound.mono (pushTyped_sound node.span subject subject) ?_
      rintro id after ⟨_, _, own, holds⟩
      exact ⟨.binding name, holds.typed⟩
    · rename_i name inner kind
      refine Sound.bind (typeWithin_sound hierarchy depth inner subject before typed) ?_
      rintro child between grown ⟨tree, below⟩
      refine Sound.mono (pushTyped_sound node.span subject subject) ?_
      rintro id after ⟨kept, rfl, own, holds⟩
      exact ⟨.named name tree, child, below.inside, holds.typed,
        Represents.keep kept tree child below⟩
    · rename_i name fields kind
      refine Sound.bindPool fun _ classType _ _ => Sound.bindPool fun _ possible _ _ => ?_
      split
      · refine Sound.bindPool fun _ type _ _ => Sound.bindPool fun _ components _ _ => ?_
        split
        · exact Sound.fault
        · refine Sound.bind (typeFields_sound (typeWithin_sound hierarchy depth) fields components
            before typed) ?_
          rintro children between grown ⟨trees, below⟩
          refine Sound.mono (pushTyped_sound node.span type subject) ?_
          rintro id after ⟨kept, rfl, own, holds⟩
          exact ⟨.deconstruct name (decide (own = some name)) trees, children, own, holds, rfl,
            RepresentsAll.keep kept trees children below⟩
      · exact Sound.fault

/-- What typing a whole pattern does to the store. -/
theorem runTyping_sound {hierarchy : ClassHierarchy} {id : Nat} {subject : TypeRef}
    {before after : PatternStore} {pool pool' : TypePool} {outcome : Except PatternFault Nat}
    (typed : before.WildcardsTyped)
    (ran : runTyping hierarchy id subject before pool = .ok (outcome, after, pool')) :
    before.Grows after ∧ ∀ result, outcome = .ok result → ∃ tree, after.Represents tree result := by
  obtain ⟨⟨⟨found, between⟩, poolAfter⟩, ranTyping, same⟩ := Except.bind_eq_ok ran
  cases same
  exact Sound.bindGet (typeWithin_sound hierarchy _ id subject before typed) _ _ _ _ ranTyping

/-- One change of a store: a pattern is entered, typed or compiled. -/
inductive Change : PatternStore → PatternStore → Prop where
  | alloc (store : PatternStore) (kind : PatternKind) (span : Span) :
    Change store (store.alloc kind span).2
  | typing {hierarchy : ClassHierarchy} {id : Nat} {subject : TypeRef} {before after : PatternStore}
    {pool pool' : TypePool} {outcome : Except PatternFault Nat}
    (ran : runTyping hierarchy id subject before pool = .ok (outcome, after, pool')) :
    Change before after
  | compiled (store : PatternStore) (id : Nat) : Change store (store.markCompiled id)

theorem Change.grows {before after : PatternStore} (change : Change before after)
    (typed : before.WildcardsTyped) : before.Grows after := by
  cases change with
  | alloc => exact .alloc _ _ _
  | typing ran => exact (runTyping_sound typed ran).1
  | compiled => exact .markCompiled _ _

/-- `after` comes from `before` by changes. -/
def Reaches : PatternStore → PatternStore → Prop := Relation.ReflTransGen Change

/-- Along changes the wildcards stay typed and patterns stay what they are. -/
theorem Reaches.keeps {before after : PatternStore} (reached : Reaches before after)
    (typed : before.WildcardsTyped) : before.Keeps after ∧ after.WildcardsTyped := by
  induction reached with
  | refl => exact ⟨.refl before, typed⟩
  | tail _ change ih =>
    obtain ⟨kept, still⟩ := ih
    have grown := change.grows still
    exact ⟨kept.trans grown.keeps, grown.wildcards still⟩

theorem wildcardsTyped_empty : WildcardsTyped {} := by
  intro id node found
  simp at found

/-- The pattern at `id` came out of typing against a subject, some changes ago. -/
def TypedAgainst (hierarchy : ClassHierarchy) (subject : TypeRef) (store : PatternStore)
    (id : Nat) :
    Prop :=
  ∃ before raw pool after pool', Reaches {} before ∧
    runTyping hierarchy raw subject before pool = .ok (.ok id, after, pool') ∧ Reaches after store

/-- A pattern that came out of typing is a tree. -/
theorem TypedAgainst.represents {hierarchy : ClassHierarchy} {subject : TypeRef}
    {store : PatternStore} {id : Nat} (typed : TypedAgainst hierarchy subject store id) :
    ∃ tree, store.Represents tree id := by
  obtain ⟨before, raw, pool, after, pool', started, ran, reached⟩ := typed
  obtain ⟨_, wildcards⟩ := started.keeps wildcardsTyped_empty
  obtain ⟨grown, holds⟩ := runTyping_sound wildcards ran
  obtain ⟨tree, represents⟩ := holds id rfl
  obtain ⟨kept, _⟩ := reached.keeps (grown.wildcards wildcards)
  exact ⟨tree, Represents.keep kept tree id represents⟩

end PatternStore
end ClassLang
