import ClassLang.Proofs.Pattern.BranchCode

/-! Compiling a stored pattern emits exactly the instructions of its tree. -/

namespace ClassLang

/-- `after` has exactly the patterns of `before`; some may have been compiled. -/
structure PatternStore.Marked (before after : PatternStore) : Prop where
  keeps : before.Keeps after
  size : after.size = before.size

namespace PatternStore.Marked

theorem refl (store : PatternStore) : store.Marked store := ⟨.refl store, rfl⟩

theorem trans {first second third : PatternStore} (earlier : first.Marked second)
    (later : second.Marked third) : first.Marked third :=
  ⟨earlier.keeps.trans later.keeps, later.size.trans earlier.size⟩

theorem markCompiled (store : PatternStore) (id : Nat) : store.Marked (store.markCompiled id) := by
  refine ⟨.markCompiled store id, ?_⟩
  unfold PatternStore.markCompiled
  split <;> simp [PatternStore.size]

end PatternStore.Marked

/-- From `before` to `after` some instructions were added; slots below `nextSlot` are taken. -/
structure CompileState.Emits (before after : CompileState) (code : List Instruction)
    (nextSlot : Nat) : Prop where
  kept : before.store.Marked after.store
  code : after.buffer.code = before.buffer.code ++ code
  label : after.buffer.nextLabel = before.buffer.nextLabel
  slot : after.buffer.nextSlot = nextSlot

/-- The action ends, having added some instructions. -/
def CompileM.Emission (action : CompileM PUnit) (state : CompileState) (code : List Instruction)
    (nextSlot : Nat) : Prop :=
  Completes action state fun _ after => state.Emits after code nextSlot

namespace CompileM
open PatternStore

variable {state : CompileState} {first second : List Instruction} {middle last : Nat}

theorem inspect_completes {query : PatternStore → Except Abort α} {post : α → CompileState → Prop}
    (ran : query state.store = .ok answer) (holds : post answer state) :
    Completes (inspect query) state post :=
  Completes.bind (Completes.get (Completes.lift ran holds))

theorem Emission.emit (instruction : Instruction) (same : state.buffer.nextSlot = last) :
    Emission (CompileM.emit instruction) state [instruction] last :=
  Completes.modify ⟨.refl _, rfl, rfl, same⟩

theorem Emission.markCompiled (id : Nat) (same : state.buffer.nextSlot = last) :
    Emission (CompileM.markCompiled id) state [] last :=
  Completes.modify ⟨.markCompiled _ _, by simp, rfl, same⟩

theorem Emission.nothing (same : state.buffer.nextSlot = last) :
    Emission (pure ()) state [] last :=
  Completes.pure ⟨.refl _, by simp, rfl, same⟩

theorem Emission.seq {action : CompileM PUnit} {next : PUnit → CompileM PUnit}
    (done : Emission action state first middle)
    (rest : ∀ after, state.Emits after first middle → Emission (next ()) after second last) :
    Emission (action >>= next) state (first ++ second) last := by
  refine Completes.bind (Completes.mono done fun _ after emitted => ?_)
  refine Completes.mono (rest after emitted) fun _ final more => ?_
  exact ⟨emitted.kept.trans more.kept, by rw [more.code, emitted.code, List.append_assoc],
    more.label.trans emitted.label, more.slot⟩

/-- The action emits the code of a tree for the value in a slot. -/
def EmitsCode (action : CompileM PUnit) (onMismatch : Option JumpLabel) (tree : PatternTree)
    (slot : Slot) (state : CompileState) : Prop :=
  ∀ next, state.buffer.nextSlot = next →
    Emission action state (tree.code onMismatch slot next).1 (tree.code onMismatch slot next).2

/-- Every field that is not a wildcard is loaded into a slot of its own, and the rest is up to
what is done with the fields. -/
theorem projectFields_emits {onField : Nat → Slot → CompileM PUnit}
    {onMismatch : Option JumpLabel} {bound : Nat} (slot : Slot) :
    ∀ (trees : List PatternTree) (ids : List Nat) (index next : Nat) (state : CompileState),
      state.buffer.nextSlot = next → state.store.RepresentsAll bound trees ids →
      (∀ tree ∈ trees, ∀ id < bound, ∀ (target : Slot) (state : CompileState),
        state.store.Represents tree id →
          EmitsCode (onField id target) onMismatch tree target state) →
      Emission (projectFields onField slot index ids) state
        (PatternTree.fieldCode onMismatch trees slot index next).1
        (PatternTree.fieldCode onMismatch trees slot index next).2
  | [], [], _, _, state, same, _, _ => Emission.nothing same
  | tree :: trees, id :: ids, index, next, state, same, ⟨below, first, rest⟩, onFields => by
    subst same
    unfold projectFields PatternTree.fieldCode
    refine Completes.bind (inspect_completes first.isWildcard_eq ?_)
    have others := fun next after (same : after.buffer.nextSlot = next)
        (kept : state.store.Marked after.store) =>
      projectFields_emits slot trees ids (index + 1) next after same
        (RepresentsAll.keep kept.keeps _ _ rest)
        fun other member => onFields other (List.mem_cons_of_mem _ member)
    cases wild : tree.isWildcard with
    | true => exact others _ state rfl (.refl _)
    | false =>
      simp only [Bool.false_eq_true, if_false]
      -- The fresh slot changes nothing but the numbering.
      refine Completes.bind (Completes.modifyGet ?_)
      refine Completes.mono (Emission.seq (Emission.emit _ rfl) fun loaded emitted =>
        Emission.seq (onFields tree List.mem_cons_self id below ⟨state.buffer.nextSlot⟩ loaded
          (Represents.keep emitted.kept.keeps tree id first) (state.buffer.nextSlot + 1)
          emitted.slot)
          fun after more => others _ after more.slot (emitted.kept.trans more.kept))
        fun _ final done => ?_
      exact ⟨done.kept, by simpa using done.code, done.label, done.slot⟩

/-- A pattern is marked at the end of its compilation. -/
theorem Emission.thenMark {action : CompileM PUnit} (done : Emission action state first last)
    (id : Nat) : Emission (do action; CompileM.markCompiled id) state first last := by
  have marked : Emission (do action; CompileM.markCompiled id) state (first ++ []) last :=
    Emission.seq done fun _ emitted => Emission.markCompiled id emitted.slot
  simpa using marked

theorem compileWithin_emits (label : JumpLabel) (tree : PatternTree) :
    ∀ (slot : Slot) (id depth : Nat) (state : CompileState), state.store.Represents tree id →
      id < depth →
      EmitsCode (compileWithin depth id (some slot) label) (some label) tree slot state := by
  induction tree with
  | wildcard =>
    rintro slot id (_ | depth) state holds deep next same
    · exact absurd deep (Nat.not_lt_zero id)
    obtain ⟨node, found, kind, typed⟩ := PatternStore.HoldsTyped.lookup holds
    refine Completes.bind (inspect_completes found ?_)
    simp only [typed, if_false, kind]
    exact Emission.markCompiled id same
  | constant value =>
    rintro slot id (_ | depth) state holds deep next same
    · exact absurd deep (Nat.not_lt_zero id)
    obtain ⟨node, found, kind, typed⟩ := PatternStore.HoldsTyped.lookup holds
    refine Completes.bind (inspect_completes found ?_)
    simp only [typed, if_false, kind]
    refine Completes.bind (Completes.pure ?_)
    refine Emission.seq (Emission.emit _ same) fun _ emitted => ?_
    exact Emission.thenMark (Emission.emit _ emitted.slot) id
  | binding name =>
    rintro slot id (_ | depth) state holds deep next same
    · exact absurd deep (Nat.not_lt_zero id)
    obtain ⟨node, found, kind, typed⟩ := PatternStore.HoldsTyped.lookup holds
    refine Completes.bind (inspect_completes found ?_)
    simp only [typed, if_false, kind]
    exact Emission.thenMark (Emission.emit _ same) id
  | named name inner ih =>
    rintro slot id (_ | depth) state holds deep next same
    · exact absurd deep (Nat.not_lt_zero id)
    obtain ⟨child, before, held, below⟩ := holds
    obtain ⟨node, found, kind, typed⟩ := held.lookup
    refine Completes.bind (inspect_completes found ?_)
    simp only [typed, if_false, kind]
    refine Completes.bind (Completes.pure ?_)
    refine Emission.seq (Emission.emit _ same) fun after emitted => ?_
    have inside := ih slot child depth after (Represents.keep emitted.kept.keeps inner child below)
      (by omega) next emitted.slot
    exact Emission.thenMark inside id
  | deconstruct name own fields ih =>
    rintro slot id (_ | depth) state holds deep next same
    · exact absurd deep (Nat.not_lt_zero id)
    obtain ⟨children, subject, held, rfl, below⟩ := holds
    obtain ⟨node, found, kind, rfl, typed⟩ := held.lookup
    refine Completes.bind (inspect_completes found ?_)
    simp only [typed, if_false, kind]
    refine Completes.bind (Completes.pure ?_)
    have components := fun after (kept : state.store.Marked after.store)
        (same : after.buffer.nextSlot = next) =>
      Emission.thenMark (projectFields_emits slot fields children 0 next after same
        (RepresentsAll.keep kept.keeps _ _ below) fun field member child before target after held =>
          ih field member target child depth after held (by omega)) id
    by_cases own : node.ownClass = some name
    · simp only [own, if_true, decide_true, PatternTree.code]
      exact components state (.refl _) same
    · simp only [own, if_false, decide_false, PatternTree.code, PatternTree.test,
        Bool.false_eq_true, List.cons_append, List.nil_append]
      refine Emission.seq (Emission.emit (.instanceOf slot name) same) fun _ first => ?_
      refine Emission.seq (Emission.emit (.jumpIfMismatch label) first.slot) fun after second => ?_
      exact components after (first.kept.trans second.kept) second.slot

theorem compilePattern_emits (label : JumpLabel) (slot : Slot) {tree : PatternTree} {id : Nat}
    (holds : state.store.Represents tree id) :
    EmitsCode (compilePattern id (some slot) label) (some label) tree slot state :=
  fun next same => Completes.bind (Completes.get
    (compileWithin_emits label tree slot id _ state holds
      (Nat.lt_succ_of_lt holds.inside) next same))

theorem compileBindingsWithin_emits (tree : PatternTree) :
    ∀ (slot : Slot) (id depth : Nat) (state : CompileState), state.store.Represents tree id →
      id < depth → EmitsCode (compileBindingsWithin depth id slot) none tree slot state := by
  induction tree with
  | wildcard | constant =>
    rintro slot id (_ | depth) state holds deep next same
    · exact absurd deep (Nat.not_lt_zero id)
    refine Completes.bind (inspect_completes (PatternStore.HoldsTyped.kind_eq holds) ?_)
    exact Emission.markCompiled id same
  | binding name =>
    rintro slot id (_ | depth) state holds deep next same
    · exact absurd deep (Nat.not_lt_zero id)
    refine Completes.bind (inspect_completes (PatternStore.HoldsTyped.kind_eq holds) ?_)
    exact Emission.thenMark (Emission.emit _ same) id
  | named name inner ih =>
    rintro slot id (_ | depth) state holds deep next same
    · exact absurd deep (Nat.not_lt_zero id)
    obtain ⟨child, before, held, below⟩ := holds
    refine Completes.bind (inspect_completes held.kind_eq ?_)
    refine Emission.seq (Emission.emit _ same) fun after emitted => ?_
    have inside := ih slot child depth after (Represents.keep emitted.kept.keeps inner child below)
      (by omega) next emitted.slot
    exact Emission.thenMark inside id
  | deconstruct name own fields ih =>
    rintro slot id (_ | depth) state holds deep next same
    · exact absurd deep (Nat.not_lt_zero id)
    obtain ⟨children, subject, held, _, below⟩ := holds
    refine Completes.bind (inspect_completes held.typed.kind_eq ?_)
    have components := projectFields_emits slot fields children 0 next state same below
      fun field member child before target after held =>
        ih field member target child depth after held (by omega)
    simp only [PatternTree.code, PatternTree.test, ite_self, List.nil_append]
    exact Emission.thenMark components id

theorem compileBindings_emits (slot : Slot) {tree : PatternTree} {id : Nat}
    (holds : state.store.Represents tree id) :
    EmitsCode (compileBindings id slot) none tree slot state :=
  fun next same => Completes.bind (Completes.get
    (compileBindingsWithin_emits tree slot id _ state holds (Nat.lt_succ_of_lt holds.inside) next
      same))

end CompileM
end ClassLang
