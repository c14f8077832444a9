import ClassLang.Pattern.Coverage
import ClassLang.Proofs.Pattern.TypedCopy
import ClassLang.Proofs.Source.WellFormed
import ClassLang.Proofs.Type.Building

/-! The invariant of a pattern store, the walks through its patterns, and the copying of written
patterns into it. -/

namespace ClassLang

namespace PatternStore

/-- Subpatterns stand before the pattern that has them, wildcards are typed, and the types of
subjects are in the pool. -/
structure Sound (store : PatternStore) (pool : TypePool) : Prop where
  descends : ∀ (id : Nat) (node : PatternNode), store.nodes[id]? = some node →
    ∀ part ∈ node.kind.parts, part < id
  wildcards : store.WildcardsTyped
  subjects : ∀ (id : Nat) (node : PatternNode), store.nodes[id]? = some node →
    node.subject.isAbsent = true ∨ pool.Has node.subject

/-- The pattern at a position is a wildcard. -/
def IsWild (store : PatternStore) (id : Nat) : Prop :=
  ∃ node, store.nodes[id]? = some node ∧ node.kind = .wildcard

/-- The pattern at a position takes a class apart and looks at none of its components. -/
def TakesClass (store : PatternStore) (id : Nat) (class_ : Name) : Prop :=
  ∃ node fields, store.nodes[id]? = some node ∧ node.kind = .deconstruct class_ fields ∧
    ∀ field ∈ fields, store.IsWild field

variable {store before after : PatternStore} {pool : TypePool} {id : Nat} {class_ : Name}

theorem sound_empty (pool : TypePool) : Sound {} pool :=
  ⟨by simp, wildcardsTyped_empty, by simp⟩

theorem Sound.grow {larger : TypePool} (sound : store.Sound pool) (growth : pool.Prefix larger) :
    store.Sound larger :=
  ⟨sound.descends, sound.wildcards, fun id node found =>
    (sound.subjects id node found).imp_right growth.has⟩

theorem Sound.push (sound : store.Sound pool) {node : PatternNode}
    (parts : ∀ part ∈ node.kind.parts, part < store.size)
    (typed : node.kind = .wildcard → node.state ≠ .unbound)
    (subject : node.subject.isAbsent = true ∨ pool.Has node.subject) :
    (store.push node).2.Sound pool := by
  refine ⟨fun id found present part member => ?_, (Grows.push store node typed).wildcards
    sound.wildcards, fun id found present => ?_⟩
  · rcases lookup_push present with old | ⟨rfl, rfl⟩
    · exact sound.descends id found old part member
    · exact parts part member
  · rcases lookup_push present with old | ⟨rfl, rfl⟩
    · exact sound.subjects id found old
    · exact subject

theorem Keeps.size_le (kept : before.Keeps after) : before.size ≤ after.size := by
  refine Nat.not_lt.mp fun shorter => ?_
  obtain ⟨_, found, _⟩ := kept after.size _ (Array.getElem?_eq_getElem shorter)
  exact Nat.lt_irrefl _ (Array.getElem?_eq_some_iff.mp found).1

theorem IsWild.keep (wild : before.IsWild id) (kept : before.Keeps after) : after.IsWild id := by
  obtain ⟨node, found, kind⟩ := wild
  obtain ⟨state, held, _⟩ := kept id node found
  exact ⟨_, held, kind⟩

theorem TakesClass.keep (takes : before.TakesClass id class_) (kept : before.Keeps after) :
    after.TakesClass id class_ := by
  obtain ⟨node, fields, found, kind, wild⟩ := takes
  obtain ⟨state, held, _⟩ := kept id node found
  exact ⟨_, fields, held, kind, fun field member => (wild field member).keep kept⟩

theorem TakesClass.unique {other : Name} (earlier : store.TakesClass id class_)
    (later : store.TakesClass id other) : class_ = other := by
  obtain ⟨node, fields, found, kind, _⟩ := earlier
  obtain ⟨again, others, stored, same, _⟩ := later
  rw [found] at stored
  cases stored
  rw [kind] at same
  cases same
  rfl

theorem node_eq {node : PatternNode} (found : store.nodes[id]? = some node) :
    store.node id = .ok node := by
  simp [PatternStore.node, found]

theorem lookup_of_lt (inside : id < store.size) : ∃ node, store.nodes[id]? = some node :=
  ⟨_, Array.getElem?_eq_getElem inside⟩

/-! Walks through a pattern. -/

namespace Sound
variable (sound : store.Sound pool)
include sound

/-- A subpattern can be walked through with less depth. -/
theorem part_below {node : PatternNode} {depth part : Nat} (found : store.nodes[id]? = some node)
    (deep : id < depth + 1) (member : part ∈ node.kind.parts) :
    part < store.size ∧ part < depth := by
  have earlier := sound.descends id node found part member
  have inside : id < store.size := (Array.getElem?_eq_some_iff.mp found).1
  exact ⟨Nat.lt_trans earlier inside, by omega⟩

theorem ofStoreWithin_ok : ∀ (depth id : Nat), id < store.size → id < depth →
    ∃ shape, Shape.ofStoreWithin store depth id = .ok shape
  | 0, _, _, deep => absurd deep (Nat.not_lt_zero _)
  | depth + 1, id, inside, deep => by
    obtain ⟨node, found⟩ := lookup_of_lt inside
    have below : ∀ part ∈ node.kind.parts,
        ∃ shape, Shape.ofStoreWithin store depth part = .ok shape ∧ True := by
      intro part member
      obtain ⟨partInside, partDeep⟩ := sound.part_below found deep member
      exact (ofStoreWithin_ok depth part partInside partDeep).imp fun _ ran => ⟨ran, trivial⟩
    unfold Shape.ofStoreWithin
    simp only [PatternStore.kind, node_eq found, Except.map, ok_bind]
    cases same : node.kind with
    | wildcard | constant => exact ⟨_, rfl⟩
    | binding name inner =>
      cases inner with
      | none => exact ⟨_, rfl⟩
      | some inner =>
        obtain ⟨shape, read, _⟩ := below inner (by simp [same, PatternKind.parts])
        exact ⟨shape, read⟩
    | deconstruct name fields =>
      rw [same] at below
      obtain ⟨shapes, read, _⟩ := Except.mapM_ok below
      exact ⟨.node (.class_ name) shapes, by
        simp only [PatternKind.parts] at read
        simp [read]⟩

theorem ofStore_ok (inside : id < store.size) : ∃ shape, Shape.ofStore store id = .ok shape :=
  sound.ofStoreWithin_ok _ id inside (Nat.lt_succ_of_lt inside)

theorem deconstructedWithin_ok : ∀ (depth id : Nat), id < store.size → id < depth →
    ∃ classes, store.deconstructedWithin depth id = .ok classes
  | 0, _, _, deep => absurd deep (Nat.not_lt_zero _)
  | depth + 1, id, inside, deep => by
    obtain ⟨node, found⟩ := lookup_of_lt inside
    have below : ∀ part ∈ node.kind.parts,
        ∃ classes, store.deconstructedWithin depth part = .ok classes ∧ True := by
      intro part member
      obtain ⟨partInside, partDeep⟩ := sound.part_below found deep member
      exact (deconstructedWithin_ok depth part partInside partDeep).imp
        fun _ ran => ⟨ran, trivial⟩
    unfold deconstructedWithin
    simp only [node_eq found, ok_bind]
    cases same : node.kind with
    | wildcard | constant => exact ⟨_, rfl⟩
    | binding name inner =>
      cases inner with
      | none => exact ⟨_, rfl⟩
      | some inner =>
        obtain ⟨classes, read, _⟩ := below inner (by simp [same, PatternKind.parts])
        exact ⟨classes, read⟩
    | deconstruct name fields =>
      rw [same] at below
      have reversed : ∀ part ∈ fields.reverse,
          ∃ classes, store.deconstructedWithin depth part = .ok classes ∧ True :=
        fun part member => below part (List.mem_reverse.mp member)
      obtain ⟨lists, read, _⟩ := Except.mapM_ok reversed
      exact ⟨(name, node.span) :: lists.flatten, by simp [read]⟩

theorem deconstructed_ok (inside : id < store.size) :
    ∃ classes, store.deconstructed id = .ok classes :=
  sound.deconstructedWithin_ok _ id inside (Nat.lt_succ_of_lt inside)

/-- The type of a name is in the pool. -/
theorem bound_here (valid : pool.Valid) {node : PatternNode}
    (found : store.nodes[id]? = some node) :
    pool.Has (if node.subject.isAbsent then .any else node.subject) := by
  rcases sound.subjects id node found with absent | inside
  · rw [if_pos absent]
    exact valid.has_any
  · split
    · exact valid.has_any
    · exact inside

theorem bindingsWithin_ok (valid : pool.Valid) : ∀ (depth id : Nat), id < store.size → id < depth →
    ∃ bound, store.bindingsWithin depth id = .ok bound ∧ ∀ entry ∈ bound, pool.Has entry.2
  | 0, _, _, deep => absurd deep (Nat.not_lt_zero _)
  | depth + 1, id, inside, deep => by
    obtain ⟨node, found⟩ := lookup_of_lt inside
    have held := sound.bound_here valid found
    have below : ∀ part ∈ node.kind.parts, ∃ bound, store.bindingsWithin depth part = .ok bound ∧
        ∀ entry ∈ bound, pool.Has entry.2 := by
      intro part member
      obtain ⟨partInside, partDeep⟩ := sound.part_below found deep member
      exact bindingsWithin_ok valid depth part partInside partDeep
    unfold bindingsWithin
    simp only [node_eq found, ok_bind]
    cases same : node.kind with
    | wildcard | constant => exact ⟨[], rfl, by simp⟩
    | binding name inner =>
      cases inner with
      | none =>
        refine ⟨_, rfl, fun entry member => ?_⟩
        rw [List.mem_singleton.mp member]
        exact held
      | some inner =>
        obtain ⟨bound, read, types⟩ := below inner (by simp [same, PatternKind.parts])
        simp only [read, ok_bind]
        refine ⟨_, rfl, fun entry member => ?_⟩
        rcases List.mem_cons.mp member with rfl | later
        · exact held
        · exact types entry later
    | deconstruct name fields =>
      rw [same] at below
      obtain ⟨lists, read, types⟩ := Except.mapM_ok below
      simp only [PatternKind.parts] at read
      simp only [read, ok_bind]
      refine ⟨_, rfl, fun entry member => ?_⟩
      obtain ⟨list, present, inList⟩ := List.mem_flatten.mp member
      exact types list present entry inList

/-- The names of a pattern have types of the pool. -/
theorem bindings_ok (valid : pool.Valid) (inside : id < store.size) :
    ∃ bound, store.bindings id = .ok bound ∧ ∀ entry ∈ bound, pool.Has entry.2 :=
  sound.bindingsWithin_ok valid _ id inside (Nat.lt_succ_of_lt inside)

end Sound

/-- The shape of a pattern that only takes a class apart. -/
theorem TakesClass.ofStore_eq {shape : Shape} (takes : store.TakesClass id class_)
    (read : Shape.ofStore store id = .ok shape) : ∃ args, shape = .node (.class_ class_) args ∧
      ∀ arg ∈ args, arg = .wild := by
  obtain ⟨node, fields, found, kind, wild⟩ := takes
  unfold Shape.ofStore Shape.ofStoreWithin at read
  simp only [PatternStore.kind, node_eq found, Except.map, ok_bind, kind] at read
  obtain ⟨args, each, same⟩ := Except.bind_eq_ok read
  cases same
  refine ⟨args, rfl, fun arg member => ?_⟩
  obtain ⟨field, present, ran⟩ := Except.mem_of_mapM each arg member
  obtain ⟨inner, seen, wildcard⟩ := wild field present
  cases size : store.size with
  | zero =>
    rw [size] at ran
    cases ran
  | succ depth =>
    rw [size] at ran
    simp [Shape.ofStoreWithin, PatternStore.kind, node_eq seen, Except.map, wildcard] at ran
    exact ran.symm

/-! Copying written patterns. -/

/-- What the copy of a written pattern is. -/
structure Copied (arena : Arena) (index : Nat) (after : PatternStore) (id : Nat) : Prop where
  inside : id < after.size
  wild : ∀ span, arena.patterns[index]? = some ⟨.wildcard, span⟩ → after.IsWild id
  takes : ∀ class_, arena.TakesClass index class_ → after.TakesClass id class_

theorem Copied.keep {arena : Arena} {index : Nat} (copied : Copied arena index before id)
    (kept : before.Keeps after) : Copied arena index after id :=
  ⟨Nat.lt_of_lt_of_le copied.inside kept.size_le, fun span read =>
    (copied.wild span read).keep kept,
    fun class_ takes => (copied.takes class_ takes).keep kept⟩

/-- What entering a pattern that has no type leaves behind. -/
theorem alloc_spec (sound : store.Sound pool) (kind : PatternKind) (span : Span)
    (parts : ∀ part ∈ kind.parts, part < store.size) :
    store.Grows (store.alloc kind span).2 ∧ (store.alloc kind span).2.Sound pool ∧
      ∃ node, (store.alloc kind span).2.nodes[(store.alloc kind span).1]? = some node ∧
        node.kind = kind := by
  refine ⟨.alloc store kind span, ?_, ?_⟩
  · unfold PatternStore.alloc
    split
    · exact sound.push parts (by simp) (.inl rfl)
    · rename_i other
      exact sound.push parts (fun wild => absurd wild other) (.inl rfl)
  · unfold PatternStore.alloc
    split <;> exact ⟨_, Array.getElem?_push_size, rfl⟩

section
variable {arena : Arena} {total : Prop}

/-- Fields are copied one after the other. -/
theorem importFields_runs {copy : Nat → StoreM Nat} :
    ∀ {fields : List Nat} {store : PatternStore}, store.Sound pool →
      (∀ field ∈ fields, ∀ between, between.Sound pool → Runs total (copy field) between
        fun id after => between.Grows after ∧ after.Sound pool ∧ Copied arena field after id) →
      Runs total (fields.mapM copy) store fun ids after => store.Grows after ∧ after.Sound pool ∧
        ∀ id ∈ ids, ∃ field ∈ fields, Copied arena field after id
  | [], store, sound, _ => Runs.pure ⟨.refl store, sound, by simp⟩
  | field :: fields, store, sound, each => by
    rw [List.mapM_cons]
    refine Runs.bind ((each field List.mem_cons_self store sound).mono ?_)
    rintro id between ⟨grows, soundBetween, copied⟩
    have rest := importFields_runs soundBetween fun other member =>
      each other (List.mem_cons_of_mem _ member)
    refine Runs.bind (rest.mono ?_)
    rintro ids after ⟨more, soundAfter, others⟩
    refine Runs.pure ⟨grows.trans more, soundAfter, fun other member => ?_⟩
    rcases List.mem_cons.mp member with rfl | later
    · exact ⟨field, List.mem_cons_self, copied.keep more.keeps⟩
    · obtain ⟨source, present, copies⟩ := others other later
      exact ⟨source, List.mem_cons_of_mem _ present, copies⟩

/-- A pattern is entered after its subpatterns. -/
theorem enter_runs (sound : store.Sound pool) {index : Nat} {pattern : Pattern} {kind : PatternKind}
    (read : arena.patterns[index]? = some pattern)
    (parts : ∀ part ∈ kind.parts, part < store.size)
    (wild : pattern.kind = .wildcard → kind = .wildcard)
    (takes : ∀ class_ fields, pattern.kind = .deconstruct class_ fields →
      (∀ field ∈ fields, ∃ span, arena.patterns[field]? = some ⟨.wildcard, span⟩) →
      ∃ copies, kind = .deconstruct class_ copies ∧ ∀ copy ∈ copies, store.IsWild copy) :
    Runs total (modifyGet (·.alloc kind pattern.span) : StoreM Nat) store fun id after =>
      store.Grows after ∧ after.Sound pool ∧ Copied arena index after id := by
  obtain ⟨grows, soundAfter, node, found, same⟩ := alloc_spec sound kind pattern.span parts
  refine (Completes.modifyGet ⟨grows, soundAfter, ?_⟩).runs total
  refine ⟨(Array.getElem?_eq_some_iff.mp found).1, fun span stored => ?_, fun class_ stored => ?_⟩
  · rw [read] at stored
    cases stored
    exact ⟨node, found, same.trans (wild rfl)⟩
  · obtain ⟨fields, span, stored, flat⟩ := stored
    rw [read] at stored
    cases stored
    obtain ⟨copies, rfl, allWild⟩ := takes class_ fields rfl flat
    exact ⟨node, copies, found, same, fun copy member => (allWild copy member).keep grows.keeps⟩

/-- Copying ends when there is depth for the rank of the pattern, and the copy is what was
written. -/
theorem importWithin_runs {rank : Nat → Nat}
    (parts : total → ∀ index part, arena.HasPart index part →
      part < arena.patterns.size ∧ rank part < rank index) :
    ∀ (depth index : Nat) (store : PatternStore), store.Sound pool →
      (total → index < arena.patterns.size ∧ rank index < depth) →
      Runs total (importWithin arena depth index) store fun id after =>
        store.Grows after ∧ after.Sound pool ∧ Copied arena index after id
  | 0, _, _, _, deep =>
    Runs.never (fun sure => absurd (deep sure).2 (Nat.not_lt_zero _)) fun _ _ ran => nomatch ran
  | depth + 1, index, store, sound, deep => by
    have readable : total → ∃ pattern, arena.pattern index = .ok pattern := by
      intro sure
      obtain ⟨pattern, found⟩ : ∃ pattern, arena.patterns[index]? = some pattern :=
        ⟨_, Array.getElem?_eq_getElem (deep sure).1⟩
      exact ⟨pattern, by simp [Arena.pattern, found]⟩
    refine Runs.bind (Runs.lift readable fun pattern answered => ?_)
    have read : arena.patterns[index]? = some pattern := by
      unfold Arena.pattern at answered
      split at answered
      · cases answered
        assumption
      · cases answered
    have below : ∀ part ∈ pattern.kind.parts, ∀ between, between.Sound pool →
        Runs total (importWithin arena depth part) between fun id after =>
          between.Grows after ∧ after.Sound pool ∧ Copied arena part after id := by
      intro part member between soundBetween
      refine importWithin_runs parts depth part between soundBetween fun sure => ?_
      obtain ⟨inRange, lower⟩ := parts sure index part ⟨pattern, read, member⟩
      have := (deep sure).2
      exact ⟨inRange, by omega⟩
    have leaf : pattern.kind.parts = [] → (∀ name, pattern.kind ≠ .deconstruct name []) →
        Runs total (modifyGet (·.alloc pattern.kind pattern.span) : StoreM Nat) store
          fun id after => store.Grows after ∧ after.Sound pool ∧ Copied arena index after id := by
      intro none other
      refine enter_runs sound read (by simp [none]) (fun wild => wild)
        fun class_ fields same _ => ?_
      rw [same] at none
      exact absurd (none ▸ same) (other class_)
    cases kind : pattern.kind with
    | wildcard | constant =>
      rw [kind] at leaf
      exact leaf rfl (by simp)
    | binding name inner =>
      cases inner with
      | none =>
        rw [kind] at leaf
        exact leaf rfl (by simp)
      | some inner =>
        refine Runs.bind ((below inner (by simp [kind, PatternKind.parts]) store sound).mono ?_)
        rintro child between ⟨grows, soundBetween, copied⟩
        refine (enter_runs soundBetween read ?_ (by simp [kind]) (by simp [kind])).mono ?_
        · intro part member
          rw [List.mem_singleton.mp member]
          exact copied.inside
        · rintro id after ⟨more, soundAfter, entered⟩
          exact ⟨grows.trans more, soundAfter, entered⟩
    | deconstruct name fields =>
      rw [kind] at below
      refine Runs.bind ((importFields_runs sound below).mono ?_)
      rintro ids between ⟨grows, soundBetween, copied⟩
      refine (enter_runs soundBetween read ?_ (by simp [kind]) ?_).mono ?_
      · intro part member
        obtain ⟨_, _, copies⟩ := copied part member
        exact copies.inside
      · intro class_ others same flat
        rw [kind] at same
        cases same
        refine ⟨ids, rfl, fun copy member => ?_⟩
        obtain ⟨field, present, copies⟩ := copied copy member
        obtain ⟨span, wildcard⟩ := flat field present
        exact copies.wild span wildcard
      · rintro id after ⟨more, soundAfter, entered⟩
        exact ⟨grows.trans more, soundAfter, entered⟩

/-- Copying a written pattern of a well-formed arena ends. -/
theorem importFrom_runs (wellFormed : total → arena.WellFormed) {index : Nat}
    (inRange : total → index < arena.patterns.size) (sound : store.Sound pool) :
    Runs total (importFrom arena index) store fun id after =>
      store.Grows after ∧ after.Sound pool ∧ Copied arena index after id := by
  by_cases sure : total
  · obtain ⟨rank, bounded, lowers⟩ :=
      (wellFormed sure).acyclicParts.exists_rank_below (wellFormed sure).parts
    exact importWithin_runs
      (fun _ index part step => ⟨(wellFormed sure).parts index part step, lowers index part step⟩)
      _ index store sound
      fun holds => ⟨inRange holds, Nat.lt_succ_of_lt (bounded index (inRange holds))⟩
  · have never : total → ∀ index part, arena.HasPart index part →
        part < arena.patterns.size ∧ 0 < 0 := fun holds => absurd holds sure
    exact importWithin_runs never _ index store sound fun holds => absurd holds sure

end
end PatternStore
end ClassLang
