import ClassLang.Proofs.Pattern.Analysis
import ClassLang.Proofs.Pattern.Typing

/-! Typed patterns and the types of their subjects: typing marks a deconstruction as one of the
subject's own class exactly if it is, and lays its fields over the components of that class. -/

namespace ClassLang
open TypePool

namespace PatternTree

mutual

/-- The marks of a pattern are those of a subject of this type. -/
def Against (declared : TreeHierarchy) : PatternTree → TypeTree → Prop
  | wildcard, _ | constant _, _ | binding _, _ => True
  | named _ inner, type => Against declared inner type
  | deconstruct name own fields, type =>
    own = decide (type.base? = some name) ∧
      AgainstAll declared fields (declared.argTypes (.class_ name) type)

/-- As `Against`, for patterns and types in order. -/
def AgainstAll (declared : TreeHierarchy) : List PatternTree → List TypeTree → Prop
  | [], [] => True
  | tree :: trees, type :: types => Against declared tree type ∧ AgainstAll declared trees types
  | _, _ => False

end

mutual

/-- A pattern with its names forgotten. -/
def shape : PatternTree → Shape
  | wildcard | binding _ => .wild
  | constant value => .node (Shape.headOfLiteral value) []
  | named _ inner => inner.shape
  | deconstruct name _ fields => .node (.class_ name) (shapes fields)

def shapes : List PatternTree → List Shape
  | [] => []
  | tree :: trees => tree.shape :: shapes trees

end

mutual

/-- The classes a pattern takes apart. -/
def classes : PatternTree → List Name
  | wildcard | constant _ | binding _ => []
  | named _ inner => inner.classes
  | deconstruct name _ fields => name :: fieldClasses fields

def fieldClasses : List PatternTree → List Name
  | [] => []
  | tree :: trees => tree.classes ++ fieldClasses trees

end
end PatternTree

namespace PatternStore

variable {store : PatternStore} {tree : PatternTree} {id : Nat}

mutual

theorem Represents.ofStoreWithin_eq : ∀ (tree : PatternTree) (id depth : Nat),
    store.Represents tree id → id < depth → Shape.ofStoreWithin store depth id = .ok tree.shape
  | tree, id, 0, _, deep => absurd deep (Nat.not_lt_zero id)
  | .wildcard, id, depth + 1, holds, _ | .constant _, id, depth + 1, holds, _
  | .binding _, id, depth + 1, holds, _ => by
    simp [Shape.ofStoreWithin, HoldsTyped.kind_eq holds, PatternTree.shape]
  | .named _ inner, id, depth + 1, ⟨child, before, typed, below⟩, deep => by
    have read := Represents.ofStoreWithin_eq inner child depth below (by omega)
    simp [Shape.ofStoreWithin, typed.kind_eq, PatternTree.shape, read]
  | .deconstruct _ _ fields, id, depth + 1, ⟨children, _, typed, _, below⟩, deep => by
    have read := RepresentsAll.ofStoreWithin_eq fields children depth below (by omega)
    simp [Shape.ofStoreWithin, typed.typed.kind_eq, PatternTree.shape, read]

theorem RepresentsAll.ofStoreWithin_eq {bound : Nat} : ∀ (trees : List PatternTree)
    (ids : List Nat) (depth : Nat), store.RepresentsAll bound trees ids → bound ≤ depth →
    ids.mapM (Shape.ofStoreWithin store depth) = .ok (PatternTree.shapes trees)
  | [], [], _, _, _ => rfl
  | tree :: trees, id :: ids, depth, ⟨below, first, rest⟩, deep => by
    have head := Represents.ofStoreWithin_eq tree id depth first (by omega)
    have tail := RepresentsAll.ofStoreWithin_eq trees ids depth rest deep
    simp [List.mapM_cons, head, tail, PatternTree.shapes]

end

theorem Represents.ofStore_eq (holds : store.Represents tree id) :
    Shape.ofStore store id = .ok tree.shape :=
  Represents.ofStoreWithin_eq tree id _ holds (Nat.lt_succ_of_lt holds.inside)

mutual

theorem Represents.deconstructedWithin_names : ∀ (tree : PatternTree) (id depth : Nat),
    store.Represents tree id → id < depth → ∃ taken,
      store.deconstructedWithin depth id = .ok taken ∧
      ∀ name ∈ tree.classes, name ∈ taken.map Prod.fst
  | tree, id, 0, _, deep => absurd deep (Nat.not_lt_zero id)
  | .wildcard, id, depth + 1, holds, _ | .constant _, id, depth + 1, holds, _
  | .binding _, id, depth + 1, holds, _ => by
    obtain ⟨node, found, kind, _⟩ := HoldsTyped.lookup holds
    exact ⟨[], by simp [deconstructedWithin, found, kind], by simp [PatternTree.classes]⟩
  | .named _ inner, id, depth + 1, ⟨child, before, typed, below⟩, deep => by
    obtain ⟨node, found, kind, _⟩ := typed.lookup
    obtain ⟨taken, listed, names⟩ :=
      Represents.deconstructedWithin_names inner child depth below (by omega)
    exact ⟨taken, by simp [deconstructedWithin, found, kind, listed], names⟩
  | .deconstruct name own fields, id, depth + 1, ⟨children, _, typed, _, below⟩, deep => by
    obtain ⟨node, found, kind, _⟩ := typed.typed.lookup
    obtain ⟨lists, listed, names⟩ :=
      RepresentsAll.deconstructedWithin_names fields children depth below (by omega)
    refine ⟨(name, node.span) :: lists.flatten, by
      simp [deconstructedWithin, found, kind, listed], fun other member => ?_⟩
    rcases List.mem_cons.mp member with rfl | inFields
    · exact List.mem_cons_self
    · exact List.mem_cons_of_mem _ (names other inFields)

theorem RepresentsAll.deconstructedWithin_names {bound : Nat} : ∀ (trees : List PatternTree)
    (ids : List Nat) (depth : Nat), store.RepresentsAll bound trees ids → bound ≤ depth →
    ∃ lists, ids.reverse.mapM (store.deconstructedWithin depth) = .ok lists ∧
      ∀ name ∈ PatternTree.fieldClasses trees, name ∈ lists.flatten.map Prod.fst
  | [], [], _, _, _ => ⟨[], rfl, by simp [PatternTree.fieldClasses]⟩
  | tree :: trees, id :: ids, depth, ⟨below, first, rest⟩, deep => by
    obtain ⟨head, listed, names⟩ :=
      Represents.deconstructedWithin_names tree id depth first (by omega)
    obtain ⟨tail, others, more⟩ :=
      RepresentsAll.deconstructedWithin_names trees ids depth rest deep
    refine ⟨tail ++ [head], by simp [List.mapM_append, listed, others], fun name member => ?_⟩
    rw [List.flatten_append, List.map_append, List.mem_append]
    rcases List.mem_append.mp member with inside | later
    · exact .inr (by simpa using names name inside)
    · exact .inl (more name later)

end

theorem RepresentsAll.below {bound : Nat} : ∀ {trees : List PatternTree} {ids : List Nat},
    store.RepresentsAll bound trees ids → ∀ id ∈ ids, id < bound
  | [], [], _, _, member => by cases member
  | _ :: _, _ :: _, ⟨inside, _, rest⟩, id, member => by
    rcases List.mem_cons.mp member with rfl | later
    · exact inside
    · exact rest.below id later

/-- Every class of the tree is listed. -/
theorem Represents.mem_deconstructed (holds : store.Represents tree id) {taken : List (Name × Span)}
    (listed : store.deconstructed id = .ok taken) {name : Name} (member : name ∈ tree.classes) :
    ∃ entry ∈ taken, entry.1 = name := by
  obtain ⟨found, same, names⟩ :=
    Represents.deconstructedWithin_names tree id _ holds (Nat.lt_succ_of_lt holds.inside)
  rw [deconstructed, same] at listed
  cases listed
  exact List.mem_map.mp (names name member)

end PatternStore

namespace TypingM.Works
variable {total : Prop} {store : PatternStore} {pool : TypePool}

/-- The growth of the pool is part of what is known in the end. -/
theorem grown {action : TypingM α} {post : α → PatternStore → TypePool → Prop}
    (works : TypingM.Works total action store pool post) :
    TypingM.Works total action store pool fun result after pool' =>
      pool.Growth pool' ∧ post result after pool' := by
  refine fun sound => (works sound).mono ?_
  rintro ⟨outcome, after⟩ pool' growth ⟨grows, soundAfter, holds⟩
  refine ⟨grows, soundAfter, ?_⟩
  cases outcome with
  | ok value => exact ⟨growth, holds⟩
  | error fault => exact holds

end TypingM.Works

namespace PatternStore
open TypingM

variable {total : Prop} {hierarchy : ClassHierarchy} {store : PatternStore} {base pool : TypePool}

/-- The node entered last knows the class of its subject. -/
theorem pushTyped_own {kind : PatternKind} (span : Span) (type : TypeRef) {subject : TypeRef}
    (held : pool.Has subject) (parts : ∀ part ∈ kind.parts, part < store.size) :
    TypingM.Works total (pushTyped kind span type subject) store pool fun id after _ =>
      id = store.size ∧ after.HoldsOwn id kind (pool.tree subject).base? := by
  have asked : PoolM.Builds (PoolM.inspect (·.baseName? subject)) pool fun own _ =>
      own = (pool.tree subject).base? :=
    PoolM.Builds.ofValid fun valid => PoolM.Builds.answer (valid.baseName?_eq held) rfl
  refine Works.onPool (asked.works total) fun own pool' growth same => ?_
  subst same
  intro sound
  have entered : (store.push (PatternNode.mk kind span type subject (pool.tree subject).base?
      .typed)).2.Sound pool' := sound.push parts (by simp) (.inr (growth.has held))
  change PoolM.Works total (Pure.pure (Except.ok store.size, _)) pool' _
  exact PoolM.Works.pure ⟨.push _ _ (by simp), entered, rfl, holdsOwn_push _ _ (by simp)⟩

/-- The typed copy is a tree, and it is one against the subject. -/
def CopiedAgainst (declared : TreeHierarchy) (type : TypeTree) (copy : Nat) (after : PatternStore)
    (pool : TypePool) : Prop :=
  ∃ tree, after.Represents tree copy ∧ (pool.Small → tree.Against declared type)

/-- Fields are typed one after the other, each against its component. -/
theorem typeFields_against {declared : TreeHierarchy} {typeField : Nat → TypeRef → TypingM Nat}
    {bound : Nat} (each : ∀ field < bound, ∀ (component : TypeRef) (store : PatternStore)
      (pool : TypePool), base.Growth pool → field < store.size → pool.Has component →
      TypingM.Works total (typeField field component) store pool fun copy after last =>
        CopiedAgainst declared (pool.tree component) copy after last) :
    ∀ (fields : List Nat) (components : List TypeRef) (store : PatternStore) (pool : TypePool),
      base.Growth pool → (∀ field ∈ fields, field < bound ∧ field < store.size) →
      (∀ component ∈ components, pool.Has component) → components.length = fields.length →
      TypingM.Works total (typeFields typeField fields components) store pool
        fun copies after last => ∃ trees, after.RepresentsAll after.size trees copies ∧
          (last.Small → PatternTree.AgainstAll declared trees (components.map pool.tree))
  | [], [], _, _, _, _, _, _ => Works.pure ⟨[], trivial, fun _ => trivial⟩
  | field :: fields, component :: components, store, pool, growth, inside, held, same => by
    obtain ⟨below, present⟩ := inside field List.mem_cons_self
    refine Works.ofPool fun valid => ?_
    refine Works.bind (each field below component store pool growth present
      (held component List.mem_cons_self)) fun copy between pool' grows grown first => ?_
    obtain ⟨tree, holds, against⟩ := first
    have rest := typeFields_against each fields components between pool' (growth.trans grown)
      (fun other member => by
        obtain ⟨lower, there⟩ := inside other (List.mem_cons_of_mem _ member)
        exact ⟨lower, Nat.lt_of_lt_of_le there grows.keeps.size_le⟩)
      (fun other member => grown.has (held other (List.mem_cons_of_mem _ member)))
      (Nat.succ.inj same)
    rw [grown.map_tree_eq valid fun other member => held other (List.mem_cons_of_mem _ member)]
      at rest
    refine Works.bind rest.grown ?_
    rintro copies after last more _ ⟨later, trees, holdsRest, againstRest⟩
    have kept := Represents.keep more.keeps tree copy holds
    exact Works.pure ⟨tree :: trees, ⟨kept.inside, kept, holdsRest⟩, fun small =>
      ⟨against (later.small small), againstRest small⟩⟩

/-- A copy typed against a subject is a tree against the type of that subject. -/
theorem typeWithin_against (valid : base.Valid) (held : hierarchy.HeldBy base)
    (grounded : total → base.Grounded) : ∀ (depth id : Nat) (subject : TypeRef)
    (store : PatternStore) (pool : TypePool), base.Growth pool → id < store.size → id < depth →
    pool.Has subject →
    TypingM.Works total (typeWithin hierarchy depth id subject) store pool fun copy after last =>
      CopiedAgainst (hierarchy.unfold base) (pool.tree subject) copy after last
  | 0, _, _, _, _, _, _, deep, _ => absurd deep (Nat.not_lt_zero _)
  | depth + 1, id, subject, store, pool, growth, inside, deep, inPool => by
    refine pattern_works inside deep fun node found partBelow sound => ?_
    have heldHere := held.grow growth
    have groundedHere : total → pool.Grounded := fun sure => (grounded sure).grow valid growth
    cases kind : node.kind with
    | wildcard =>
      exact Works.pure ⟨.wildcard, ⟨node, found, kind, sound.wildcards id node found kind⟩,
        fun _ => trivial⟩
    | constant value =>
      have primitive : value.type.isPrimitive = true := by cases value <;> rfl
      refine Works.onPool (couldMatch_works heldHere groundedHere inPool
        (growth.valid.has_primitive primitive)) fun possible between grown _ => ?_
      cases possible with
      | true =>
        refine (pushTyped_own node.span value.type (grown.has inPool) (by
          simp [PatternKind.parts])).mono ?_
        rintro copy after last _ ⟨_, holds⟩
        exact ⟨.constant value, holds.typed, fun _ => trivial⟩
      | false => exact Works.fault ⟨grown.valid.has_primitive primitive, grown.has inPool⟩
    | binding name inner =>
      cases inner with
      | none =>
        refine (pushTyped_own node.span subject inPool (by simp [PatternKind.parts])).mono ?_
        rintro copy after last _ ⟨_, holds⟩
        exact ⟨.binding name, holds.typed, fun _ => trivial⟩
      | some inner =>
        obtain ⟨innerInside, innerDeep⟩ := partBelow inner (by simp [kind, PatternKind.parts])
        refine Works.bind (typeWithin_against valid held grounded depth inner subject store pool
          growth innerInside innerDeep inPool) fun child between later _ grown copied => ?_
        obtain ⟨tree, below, against⟩ := copied
        refine (pushTyped_own node.span subject (grown.has inPool) ?_).grown.mono ?_
        · intro part member
          rw [List.mem_singleton.mp member]
          exact below.inside
        · rintro copy after last grows ⟨more, rfl, holds⟩
          exact ⟨.named name tree, ⟨child, below.inside, holds.typed,
            Represents.keep grows.keeps tree child below⟩, fun small => against (more.small small)⟩
    | deconstruct name fields =>
      rw [kind] at partBelow
      refine deconstruct_works heldHere groundedHere inPool
        fun type components last all _ listed same => ?_
      refine Works.bind (typeFields_against (fun field below component between pool grown
        present componentHere => typeWithin_against valid held grounded depth field component
          between pool grown present below componentHere) fields components store last
        (growth.trans all) (fun field member => (partBelow field member).symm) listed.has same) ?_
      rintro copies between pool growsFields grown ⟨trees, holdsFields, againstFields⟩
      have parts : ∀ part ∈ (PatternKind.deconstruct name copies).parts, part < between.size :=
        holdsFields.below
      refine (pushTyped_own node.span type (grown.has (all.has inPool)) parts).grown.mono ?_
      rintro copy after final grows ⟨more, rfl, holds⟩
      refine ⟨.deconstruct name _ trees, ⟨copies, _, holds, rfl,
        RepresentsAll.keep grows.keeps trees copies holdsFields⟩, fun small => ⟨?_, ?_⟩⟩
      · rw [(all.trans grown).tree_eq growth.valid inPool]
      · have smallThere := more.small small
        have against := againstFields smallThere
        rw [listed.reads (grown.small smallThere), held.unfold_eq valid growth] at against
        exact against

/-- What typing a pattern of the store returns is a tree against the type of the subject. -/
theorem runTyping_against {id copy : Nat} {subject : TypeRef} {after : PatternStore}
    {pool' : TypePool} (valid : pool.Valid) (held : hierarchy.HeldBy pool)
    (sound : store.Sound pool) (inside : id < store.size) (inPool : pool.Has subject)
    (ran : runTyping hierarchy id subject store pool = .ok (.ok copy, after, pool')) :
    pool.Growth pool' ∧ CopiedAgainst (hierarchy.unfold pool) (pool.tree subject) copy
      after pool' := by
  have works : TypingM.Works False (typeAgainst hierarchy id subject) store pool
      fun copy after last => CopiedAgainst (hierarchy.unfold pool) (pool.tree subject) copy
      after last :=
    Works.get (typeWithin_against valid held False.elim _ id subject store pool valid.growth inside
      (Nat.lt_succ_of_lt inside) inPool)
  obtain ⟨⟨⟨found, between⟩, poolAfter⟩, typed, same⟩ := Except.bind_eq_ok ran
  cases same
  obtain ⟨growth, _, _, copied⟩ := (works sound valid).ensures _ _ typed
  exact ⟨growth, copied⟩

end PatternStore
end ClassLang
