import ClassLang.Proofs.Pattern.Storage
import ClassLang.Proofs.Type.Description
import ClassLang.Proofs.Type.Grounding

/-! Typing in a pool: it ends where no parameter is bounded by itself, the pool only grows, and a
fault names types of the pool. -/

namespace ClassLang

def PatternFault.HeldBy (pool : TypePool) : PatternFault → Prop
  | impossible pattern subject _ => pool.Has pattern ∧ pool.Has subject
  | arity .. => True

/-- Whenever the action ends, pool and store have grown and are sound, and `post` holds unless
there is a fault; if `total` holds it ends. -/
def TypingM.Works (total : Prop) (action : TypingM α) (store : PatternStore) (pool : TypePool)
    (post : α → PatternStore → TypePool → Prop) : Prop :=
  store.Sound pool → PoolM.Works total (action.run.run store) pool fun result after =>
    store.Grows result.2 ∧ result.2.Sound after ∧
      match result.1 with
      | .ok value => post value result.2 after
      | .error fault => fault.HeldBy after

namespace TypingM.Works
open TypePool

variable {total : Prop} {store : PatternStore} {pool : TypePool}
  {post : β → PatternStore → TypePool → Prop}

theorem pure {result : α} {post : α → PatternStore → TypePool → Prop}
    (holds : post result store pool) : TypingM.Works total (Pure.pure result) store pool post := by
  intro sound
  change PoolM.Works total (Pure.pure (Except.ok result, store)) pool _
  exact PoolM.Works.pure ⟨.refl store, sound, holds⟩

theorem mono {action : TypingM α} {weak strong : α → PatternStore → TypePool → Prop}
    (works : TypingM.Works total action store pool strong)
    (weaken : ∀ result after pool', store.Grows after → strong result after pool' →
      weak result after pool') : TypingM.Works total action store pool weak := by
  refine fun sound => (works sound).mono ?_
  rintro ⟨outcome, after⟩ pool' _ ⟨grows, soundAfter, holds⟩
  refine ⟨grows, soundAfter, ?_⟩
  cases outcome with
  | ok value => exact weaken value after pool' grows holds
  | error fault => exact holds

theorem fault {fault : PatternFault} {post : α → PatternStore → TypePool → Prop}
    (held : fault.HeldBy pool) : TypingM.Works total (throw fault) store pool post := by
  intro sound
  change PoolM.Works total (Pure.pure (Except.error fault, store)) pool _
  exact PoolM.Works.pure ⟨.refl store, sound, held⟩

theorem run_bind (action : TypingM α) (next : α → TypingM β) (store : PatternStore) :
    (action >>= next).run.run store = (action.run.run store >>= fun result =>
      match result.1 with
      | .ok value => (next value).run.run result.2
      | .error fault => Pure.pure (.error fault, result.2)) := by
  funext pool
  change Except.bind _ _ = Except.bind _ _
  congr 1
  funext result
  obtain ⟨⟨outcome, after⟩, pool'⟩ := result
  cases outcome <;> rfl

theorem run_onPool (action : PoolM α) (store : PatternStore) :
    (PatternStore.onPool action).run.run store = (action >>= fun value =>
      Pure.pure (.ok value, store)) := by
  simp only [PatternStore.onPool, ExceptT.run_lift, StateT.run_map, StateT.run_lift, map_bind,
    map_pure]

theorem bind {action : TypingM α} {next : α → TypingM β}
    {middle : α → PatternStore → TypePool → Prop}
    (first : TypingM.Works total action store pool middle)
    (rest : ∀ result after pool', store.Grows after → pool.Growth pool' →
      middle result after pool' → TypingM.Works total (next result) after pool' post) :
    TypingM.Works total (action >>= next) store pool post := by
  intro sound
  rw [run_bind]
  refine PoolM.Works.bind (first sound) ?_
  rintro ⟨outcome, between⟩ pool' growth ⟨grows, soundBetween, holds⟩
  cases outcome with
  | error fault =>
    exact PoolM.Works.pure ⟨grows, soundBetween, holds⟩
  | ok value =>
    refine (rest value between pool' grows growth holds soundBetween).mono ?_
    rintro ⟨outcome, after⟩ last _ ⟨more, soundAfter, done⟩
    exact ⟨grows.trans more, soundAfter, done⟩

/-- Work on the pool. -/
theorem onPool {action : PoolM α} {next : α → TypingM β} {middle : α → TypePool → Prop}
    (asked : PoolM.Works total action pool middle)
    (rest : ∀ result pool', pool.Growth pool' → middle result pool' →
      TypingM.Works total (next result) store pool' post) :
    TypingM.Works total (PatternStore.onPool action >>= next) store pool post := by
  have lifted : TypingM.Works total (PatternStore.onPool action) store pool
      fun result after pool' => after = store ∧ middle result pool' := by
    intro sound
    rw [run_onPool]
    refine PoolM.Works.bind asked fun value between growth holds => PoolM.Works.pure ?_
    exact ⟨.refl store, sound.grow growth.grown.types, rfl, holds⟩
  refine bind lifted ?_
  rintro result after pool' _ growth ⟨rfl, promised⟩
  exact rest result pool' growth promised

/-- The soundness of the store may be used. -/
theorem ofSound {action : TypingM β}
    (works : store.Sound pool → TypingM.Works total action store pool post) :
    TypingM.Works total action store pool post :=
  fun sound => works sound sound

/-- The validity of the pool may be used. -/
theorem ofPool {action : TypingM β}
    (works : pool.Valid → TypingM.Works total action store pool post) :
    TypingM.Works total action store pool post :=
  fun sound valid => works valid sound valid

theorem get {next : PatternStore → TypingM β}
    (rest : TypingM.Works total (next store) store pool post) :
    TypingM.Works total (MonadState.get >>= next) store pool post :=
  rest

end TypingM.Works

namespace PatternStore
open TypePool TypingM

variable {total : Prop} {hierarchy : ClassHierarchy} {store before after : PatternStore}
  {pool : TypePool}

/-- The typed copy of a wildcard is a wildcard, and that of a pattern that only takes a class apart
does the same. -/
structure CopyOf (before : PatternStore) (id : Nat) (after : PatternStore) (copy : Nat) : Prop where
  inside : copy < after.size
  wild : before.IsWild id → after.IsWild copy
  takes : ∀ class_, before.TakesClass id class_ → after.TakesClass copy class_

theorem pushTyped_works {kind : PatternKind} (span : Span) (type : TypeRef) {subject : TypeRef}
    (held : pool.Has subject) (parts : ∀ part ∈ kind.parts, part < store.size) :
    TypingM.Works total (pushTyped kind span type subject) store pool fun id after _ =>
      ∃ node, after.nodes[id]? = some node ∧ node.kind = kind := by
  have asked : PoolM.Settles (PoolM.inspect (·.baseName? subject)) pool :=
    PoolM.Builds.ofValid fun valid => PoolM.Builds.answer (valid.baseName?_eq held) trivial
  refine Works.onPool (asked.works total) fun own pool' growth _ => ?_
  intro sound
  have entered :
      (store.push { kind, span, type, subject, ownClass := own, state := .typed }).2.Sound
      pool' := sound.push parts (by simp) (.inr (growth.has held))
  change PoolM.Works total (Pure.pure (Except.ok store.size, _)) pool' _
  exact PoolM.Works.pure ⟨.push _ _ (by simp), entered, _, Array.getElem?_push_size, rfl⟩

/-- Fields are typed one after the other. -/
theorem typeFields_works {typeField : Nat → TypeRef → TypingM Nat} {held : TypePool → Prop}
    (grow : ∀ pool pool', pool.Growth pool' → held pool → held pool')
    {bound : Nat} (each : ∀ field < bound, ∀ (component : TypeRef) (store : PatternStore)
      (pool : TypePool), held pool → field < store.size → pool.Has component →
      TypingM.Works total (typeField field component) store pool fun copy after _ =>
        CopyOf store field after copy) :
    ∀ (fields : List Nat) (components : List TypeRef) (store : PatternStore) (pool : TypePool),
      held pool → (∀ field ∈ fields, field < bound ∧ field < store.size) →
      (∀ component ∈ components, pool.Has component) →
      TypingM.Works total (typeFields typeField fields components) store pool fun copies after _ =>
        (∀ copy ∈ copies, copy < after.size) ∧
          ((∀ field ∈ fields, store.IsWild field) → ∀ copy ∈ copies, after.IsWild copy)
  | [], _, _, _, _, _, _ => Works.pure (by simp)
  | _ :: _, [], _, _, _, _, _ => Works.pure (by simp)
  | field :: fields, component :: components, store, pool, holds, inside, inPool => by
    obtain ⟨below, present⟩ := inside field List.mem_cons_self
    refine Works.bind (each field below component store pool holds present
      (inPool component List.mem_cons_self)) fun copy between pool' grows growth first => ?_
    refine Works.bind (typeFields_works grow each fields components between pool'
      (grow _ _ growth holds) (fun other member => ?_) fun other member => ?_) ?_
    · obtain ⟨lower, there⟩ := inside other (List.mem_cons_of_mem _ member)
      exact ⟨lower, Nat.lt_of_lt_of_le there grows.keeps.size_le⟩
    · exact growth.has (inPool other (List.mem_cons_of_mem _ member))
    · rintro copies after last more _ ⟨allInside, allWild⟩
      refine Works.pure ⟨fun other member => ?_, fun wild other member => ?_⟩
      · rcases List.mem_cons.mp member with rfl | later
        · exact Nat.lt_of_lt_of_le first.inside more.keeps.size_le
        · exact allInside other later
      · rcases List.mem_cons.mp member with rfl | later
        · exact (first.wild (wild field List.mem_cons_self)).keep more.keeps
        · exact allWild (fun field present =>
            (wild field (List.mem_cons_of_mem _ present)).keep grows.keeps) other later

/-- A pushed pattern that is neither a wildcard nor takes a class apart. -/
theorem CopyOf.plain {id copy : Nat} {node pushed : PatternNode}
    (found : before.nodes[id]? = some node) (entered : after.nodes[copy]? = some pushed)
    (other : node.kind ≠ .wildcard)
    (notClass : ∀ class_ fields, node.kind ≠ .deconstruct class_ fields) :
    CopyOf before id after copy := by
  refine ⟨(Array.getElem?_eq_some_iff.mp entered).1, ?_, ?_⟩
  · rintro ⟨same, seen, wild⟩
    rw [found] at seen
    cases seen
    exact absurd wild other
  · rintro class_ ⟨same, fields, seen, kind, _⟩
    rw [found] at seen
    cases seen
    exact absurd kind (notClass class_ fields)

/-- The pattern is read first; its parts stand before it. -/
theorem pattern_works {id depth : Nat} {next : PatternNode → TypingM Nat}
    {post : Nat → PatternStore → TypePool → Prop} (inside : id < store.size) (deep : id < depth + 1)
    (rest : ∀ node, store.nodes[id]? = some node →
      (∀ part ∈ node.kind.parts, part < store.size ∧ part < depth) →
      store.Sound pool → TypingM.Works total (next node) store pool post) :
    TypingM.Works total (do
      let store ← get
      let node ← onPool (liftM (store.node id))
      next node) store pool post := by
  refine Works.ofSound fun sound => ?_
  obtain ⟨node, found⟩ := lookup_of_lt inside
  have asked : PoolM.Builds (liftM (store.node id)) pool fun answer after =>
    answer = node ∧ after = pool :=
    fun valid => Completes.lift (node_eq found) ⟨valid.growth, rfl, rfl⟩
  refine Works.get (Works.onPool (asked.works total) ?_)
  rintro _ _ _ ⟨rfl, rfl⟩
  exact rest _ found (fun _ member => sound.part_below found deep member) sound

/-- The copy of a class pattern has copies of its fields. -/
theorem CopyOf.deconstruct {id copy : Nat} {name : Name} {fields copies : List Nat}
    {node pushed : PatternNode} (found : before.nodes[id]? = some node)
    (kind : node.kind = .deconstruct name fields) (entered : after.nodes[copy]? = some pushed)
    (sameKind : pushed.kind = .deconstruct name copies)
    (wild : (∀ field ∈ fields, before.IsWild field) → ∀ field ∈ copies, after.IsWild field) :
    CopyOf before id after copy := by
  refine ⟨(Array.getElem?_eq_some_iff.mp entered).1, ?_, ?_⟩
  · rintro ⟨same, seen, isWild⟩
    rw [found] at seen
    cases seen
    cases kind.symm.trans isWild
  · rintro class_ ⟨same, others, seen, sameFields, allWild⟩
    rw [found] at seen
    cases seen
    cases kind.symm.trans sameFields
    exact ⟨pushed, copies, entered, sameKind, wild allWild⟩

/-- Before the fields of a class pattern are typed, it is asked whether a value of the class can
occur, what is known of its type, and what its components are. -/
theorem deconstruct_works {name : Name} {count : Nat} {span : Span} {subject : TypeRef}
    {next : TypeRef → List TypeRef → TypingM Nat} {post : Nat → PatternStore → TypePool → Prop}
    (held : hierarchy.HeldBy pool) (grounded : total → pool.Grounded) (inPool : pool.Has subject)
    (rest : ∀ (type : TypeRef) (components : List TypeRef) (later : TypePool), pool.Growth later →
      later.Has type → later.DenotesAll components
        ((hierarchy.unfold pool).componentsOf
          ((hierarchy.unfold pool).narrow name (pool.tree subject))) →
      components.length = count → TypingM.Works total (next type components) store later post) :
    TypingM.Works total (do
      let classType ← onPool (PoolM.class_ name)
      unless ← onPool (couldMatch hierarchy subject classType) do
        throw (.impossible classType subject span)
      let type ← onPool (hierarchy.narrow name subject)
      let components ← onPool (hierarchy.componentsOf type)
      if components.length ≠ count then
        throw (.arity name components.length count span)
      next type components) store pool post := by
  refine Works.ofPool fun valid => ?_
  refine Works.onPool ((PoolM.Builds.class_ name).works total)
    fun classType first toFirst denotes => ?_
  refine Works.onPool
    (couldMatch_works (held.grow toFirst) (fun sure => (grounded sure).grow valid toFirst)
    (toFirst.has inPool) denotes.has) fun possible second toSecond _ => ?_
  have whole := toFirst.trans toSecond
  cases possible with
  | false => exact Works.fault ⟨toSecond.has denotes.has, whole.has inPool⟩
  | true =>
    refine Works.onPool
      ((PoolM.Builds.narrow name (held.grow whole) (whole.has inPool)).works total)
      fun type third toThird narrowed => ?_
    refine Works.onPool
      ((PoolM.Builds.componentsOf narrowed.has ((held.grow whole).grow toThird)).works total)
      fun components last toLast listed => ?_
    dsimp only
    split
    · exact Works.fault trivial
    · rename_i same
      refine rest type components last ((whole.trans toThird).trans toLast)
        (toLast.has narrowed.has) ⟨listed.1.has, fun small => ?_⟩ (not_not.mp same)
      rw [listed.1.reads small, narrowed.reads (toLast.small small), whole.tree_eq valid inPool,
        held.unfold_eq valid whole, held.unfold_eq valid (whole.trans toThird)]

/-- Subpatterns stand before the pattern, so there is always enough depth; only the bounds of the
subject's type need an end. -/
theorem typeWithin_works : ∀ (depth id : Nat) (subject : TypeRef) (store : PatternStore)
    (pool : TypePool), hierarchy.HeldBy pool → (total → pool.Grounded) → id < store.size →
    id < depth → pool.Has subject →
    TypingM.Works total (typeWithin hierarchy depth id subject) store pool fun copy after _ =>
      CopyOf store id after copy
  | 0, _, _, _, _, _, _, _, deep, _ => absurd deep (Nat.not_lt_zero _)
  | depth + 1, id, subject, store, pool, held, grounded, inside, deep, inPool => by
    refine pattern_works inside deep fun node found partBelow _ => ?_
    cases kind : node.kind with
    | wildcard =>
      exact Works.pure ⟨inside, fun wild => wild, fun _ takes => takes⟩
    | constant value =>
      refine Works.onPool (PoolM.Works.ofValid fun valid => couldMatch_works held grounded inPool
        (valid.has_primitive (by cases value <;> rfl))) fun possible pool growth _ => ?_
      cases possible with
      | true =>
        refine (pushTyped_works node.span value.type (growth.has inPool) (by
          simp [PatternKind.parts])).mono ?_
        rintro copy after last grows ⟨pushed, entered, _⟩
        exact .plain found entered (by simp [kind]) (by simp [kind])
      | false =>
        exact Works.ofPool fun valid =>
          Works.fault ⟨valid.has_primitive (by cases value <;> rfl), growth.has inPool⟩
    | binding name inner =>
      cases inner with
      | none =>
        refine (pushTyped_works node.span subject inPool (by simp [PatternKind.parts])).mono ?_
        rintro copy after last grows ⟨pushed, entered, _⟩
        exact .plain found entered (by simp [kind]) (by simp [kind])
      | some inner =>
        obtain ⟨innerInside, innerDeep⟩ := partBelow inner (by simp [kind, PatternKind.parts])
        refine Works.bind (typeWithin_works depth inner subject store pool held grounded innerInside
          innerDeep inPool) fun child between pool growsFirst growth copied => ?_
        refine (pushTyped_works node.span subject (growth.has inPool) ?_).mono ?_
        · intro part member
          rw [List.mem_singleton.mp member]
          exact copied.inside
        · rintro copy after last grows ⟨pushed, entered, _⟩
          exact .plain found entered (by simp [kind]) (by simp [kind])
    | deconstruct name fields =>
      rw [kind] at partBelow
      refine Works.ofPool fun valid => deconstruct_works held grounded inPool
        fun type components last all _ listed _ => ?_
      have each : ∀ field < depth, ∀ (component : TypeRef) (store : PatternStore)
          (later : TypePool), pool.Growth later → field < store.size → later.Has component →
          TypingM.Works total (typeWithin hierarchy depth field component) store later
            fun copy after _ => CopyOf store field after copy := by
        intro field below component between pool grown present componentHere
        exact typeWithin_works depth field component between pool (held.grow grown)
          (fun sure => (grounded sure).grow valid grown) present below componentHere
      refine Works.bind
        (typeFields_works (fun _ _ grown growing => growing.trans grown) each fields components
        store last all (fun field member => (partBelow field member).symm) listed.has) ?_
      rintro copies between later growsFields grown ⟨allInside, allWild⟩
      have parts : ∀ part ∈ (PatternKind.deconstruct name copies).parts,
          part < between.size := allInside
      refine (pushTyped_works node.span type (grown.has (all.has inPool)) parts).mono ?_
      rintro copy after final grows ⟨pushed, entered, sameKind⟩
      exact .deconstruct found kind entered sameKind fun wild field member =>
        (allWild wild field member).keep grows.keeps

/-- What typing a pattern of the store returns. -/
theorem runTyping_works {id : Nat} {subject : TypeRef} (held : hierarchy.HeldBy pool)
    (grounded : total → pool.Grounded) (valid : pool.Valid) (sound : store.Sound pool)
    (inside : id < store.size) (inPool : pool.Has subject) :
    (∀ outcome after pool', runTyping hierarchy id subject store pool =
      .ok (outcome, after, pool') → pool.Growth pool' ∧ store.Grows after ∧ after.Sound pool' ∧
        match outcome with
        | .ok copy => CopyOf store id after copy
        | .error fault => fault.HeldBy pool') ∧
    (total → ∃ result, runTyping hierarchy id subject store pool = .ok result) := by
  have works : TypingM.Works total (typeAgainst hierarchy id subject) store pool fun copy after _ =>
      CopyOf store id after copy :=
    Works.get (typeWithin_works (store.size + 1) id subject store pool held grounded inside
      (Nat.lt_succ_of_lt inside) inPool)
  obtain ⟨ensures, ends⟩ := works sound valid
  constructor
  · intro outcome after pool' ran
    obtain ⟨⟨⟨found, between⟩, poolAfter⟩, typed, same⟩ := Except.bind_eq_ok ran
    cases same
    obtain ⟨growth, grows, soundAfter, holds⟩ := ensures _ _ typed
    refine ⟨growth, grows, soundAfter, ?_⟩
    cases outcome <;> exact holds
  · intro sure
    obtain ⟨⟨outcome, after⟩, pool', ran⟩ := ends sure
    exact ⟨(outcome, after, pool'), by
      unfold runTyping
      rw [ran]
      rfl⟩

end PatternStore

/-- Faults about types of the pool can be reported. -/
theorem PatternFault.toDiagnostic_ok {pool : TypePool} (valid : pool.Valid) {fault : PatternFault}
    (held : fault.HeldBy pool) : ∃ report, fault.toDiagnostic pool = .ok report := by
  cases fault with
  | impossible pattern subject span =>
    obtain ⟨patternText, shown⟩ := valid.display_ok held.1
    obtain ⟨subjectText, shownSubject⟩ := valid.display_ok held.2
    simp [PatternFault.toDiagnostic, shown, shownSubject]
  | arity name expected found span => exact ⟨_, rfl⟩

theorem PatternFault.toDiagnostic_standard {pool : TypePool} {fault : PatternFault}
    {report : Diagnostic} (made : fault.toDiagnostic pool = .ok report) : report.Standard := by
  cases fault with
  | impossible pattern subject span =>
    obtain ⟨_, _, made⟩ := Except.bind_eq_ok made
    obtain ⟨_, _, made⟩ := Except.bind_eq_ok made
    cases made
    rfl
  | arity name expected found span =>
    cases made
    rfl

end ClassLang
