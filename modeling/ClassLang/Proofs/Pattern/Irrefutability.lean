import ClassLang.Proofs.Pattern.Reachability
import ClassLang.Proofs.Pattern.Subjects

/-! Irrefutable patterns and exhaustive matches. A pattern that takes the class of its subject apart
is irrefutable; the analysis agrees where that class is the only constructor of the subject. -/

namespace ClassLang
open TypePool

/-- No other class is a constructor of the class: it is not sealed, or permits only itself. -/
def ClassHierarchy.Alone (hierarchy : ClassHierarchy) (name : Name) : Prop :=
  ∀ permits, hierarchy.variants name = some permits → ∀ permitted ∈ permits, permitted = name

namespace Shape

mutual

/-- The shape takes all constructors of the type: it is a wildcard, or it is built with the only
one and takes all of its arguments. -/
def Total (hierarchy : ClassHierarchy) (declared : TreeHierarchy) : Shape → TypeTree → Prop
  | wild, _ => True
  | node (.class_ name) args, type =>
    type.base? = some name ∧ hierarchy.Alone name ∧
      TotalAll hierarchy declared args (declared.argTypes (.class_ name) type)
  | node _ _, _ => False

/-- The shapes take all constructors of the types, one each. -/
def TotalAll (hierarchy : ClassHierarchy) (declared : TreeHierarchy) :
    List Shape → List TypeTree → Prop
  | [], [] => True
  | shape :: shapes, type :: types =>
    Total hierarchy declared shape type ∧ TotalAll hierarchy declared shapes types
  | _, _ => False

end

variable {hierarchy : ClassHierarchy} {declared : TreeHierarchy}

theorem TotalAll.length_eq : ∀ {shapes : List Shape} {types : List TypeTree},
    TotalAll hierarchy declared shapes types → shapes.length = types.length
  | [], [], _ => rfl
  | _ :: _, _ :: _, ⟨_, rest⟩ => congrArg (· + 1) rest.length_eq

theorem TotalAll.append {others : List Shape} {more : List TypeTree}
    (second : TotalAll hierarchy declared others more) :
    ∀ {shapes : List Shape} {types : List TypeTree}, TotalAll hierarchy declared shapes types →
      TotalAll hierarchy declared (shapes ++ others) (types ++ more)
  | [], [], _ => second
  | _ :: _, _ :: _, ⟨first, rest⟩ => ⟨first, append second rest⟩

theorem totalAll_replicate : ∀ types : List TypeTree,
    TotalAll hierarchy declared (List.replicate types.length wild) types
  | [] => trivial
  | _ :: types => ⟨trivial, totalAll_replicate types⟩

end Shape

namespace PatternTree
variable {hierarchy : ClassHierarchy} {declared : TreeHierarchy}

mutual

/-- The shape of an irrefutable pattern is total where its classes stand alone. -/
theorem total_of_irrefutable : ∀ (tree : PatternTree) (type : TypeTree),
    tree.Against declared type → tree.isIrrefutable = true →
    (∀ name ∈ tree.classes, hierarchy.Alone name) → tree.shape.Total hierarchy declared type
  | wildcard, _, _, _, _ | binding _, _, _, _, _ => trivial
  | constant _, _, _, irrefutable, _ => by cases irrefutable
  | named _ inner, type, against, irrefutable, alone =>
    total_of_irrefutable inner type against irrefutable alone
  | deconstruct name own fields, type, ⟨marked, againstFields⟩, irrefutable, alone => by
    obtain ⟨isOwn, always⟩ := Bool.and_eq_true_iff.mp irrefutable
    have class_ : type.base? = some name := of_decide_eq_true (marked ▸ isOwn)
    refine ⟨class_, alone name List.mem_cons_self, ?_⟩
    exact totalAll_of_irrefutable fields _ againstFields always
      fun other member => alone other (List.mem_cons_of_mem _ member)

theorem totalAll_of_irrefutable : ∀ (trees : List PatternTree) (types : List TypeTree),
    AgainstAll declared trees types → allIrrefutable trees = true →
    (∀ name ∈ fieldClasses trees, hierarchy.Alone name) →
      Shape.TotalAll hierarchy declared (shapes trees) types
  | [], [], _, _, _ => trivial
  | tree :: trees, type :: types, ⟨first, rest⟩, irrefutable, alone => by
    obtain ⟨head, tail⟩ := Bool.and_eq_true_iff.mp irrefutable
    constructor
    · exact total_of_irrefutable tree type first head
        fun name member => alone name (List.mem_append_left _ member)
    · exact totalAll_of_irrefutable trees types rest tail
        fun name member => alone name (List.mem_append_right _ member)

end
end PatternTree

namespace ClassHierarchy
open Shape

variable {hierarchy : ClassHierarchy} {base pool : TypePool}

/-- The constructors of a type that is a class, with or without arguments. -/
theorem domain_base (valid : pool.Valid) {type : TypeRef} {name : Name} (held : pool.Has type)
    (class_ : (pool.tree type).base? = some name) :
    hierarchy.domain pool type = .ok (.finite ((hierarchy.roots name).map .class_)) := by
  obtain ⟨node, found⟩ := held.lookup
  rw [valid.tree_eq found] at class_
  cases node with
  | class_ _ | applied _ _ =>
    cases class_
    cases missing : hierarchy.variants name with
    | none => simp [domain, domainWithin_succ valid found, roots, missing]
    | some variants =>
      cases abstract_ : hierarchy.isAbstract name <;>
        simp [domain, domainWithin_succ valid found, roots, missing, abstract_]
  | _ => cases class_

theorem Alone.eq_of_mem_roots {name root : Name} (alone : hierarchy.Alone name)
    (member : root ∈ hierarchy.roots name) : root = name := by
  unfold roots at member
  cases sealed_ : hierarchy.variants name with
  | none => simpa [sealed_] using member
  | some permits =>
    simp only [sealed_, List.mem_append] at member
    rcases member with permitted | own
    · exact alone permits sealed_ root permitted
    · split at own
      · cases own
      · exact List.mem_singleton.mp own

theorem Alone.eq_of_mem_heads {name : Name} (alone : hierarchy.Alone name) :
    ∀ head ∈ (hierarchy.roots name).map Head.class_, head = .class_ name := by
  intro head listed
  obtain ⟨root, present, rfl⟩ := List.mem_map.mp listed
  rw [alone.eq_of_mem_roots present]

/-- Nothing is found for wildcards alone below a row that is total for the types of the columns. -/
def NothingBelow (hierarchy : ClassHierarchy) (base : TypePool) (test : UsefulTest) : Prop :=
  ∀ rows types pool, base.Growth pool → (∀ type ∈ types, pool.Has type) →
    (pool.Small → ∃ total ∈ rows,
      TotalAll hierarchy (hierarchy.unfold base) total (types.map pool.tree)) →
    PoolM.Yields (test rows (List.replicate types.length .wild) types) pool
      fun answer after => after.Small → answer = none

/-- What some row leaves of a constructor is total for its arguments and the other columns. -/
def TakesAll (hierarchy : ClassHierarchy) (declared : TreeHierarchy) (rows : List Row) (head : Head)
    (arity : Nat) (tree : TypeTree) (trees : List TypeTree) : Prop :=
  ∃ front rest, front ++ rest ∈ rows.filterMap (Row.specialize? head arity) ∧
    TotalAll hierarchy declared front (declared.argTypes head tree) ∧
    TotalAll hierarchy declared rest trees

section
variable {rows : List Row} {rest : Row} {tree : TypeTree} {trees : List TypeTree}
  (others : TotalAll hierarchy (hierarchy.unfold base) rest trees)
include others

theorem takesAll_of_wild (member : .wild :: rest ∈ rows) (head : Head) :
    TakesAll hierarchy (hierarchy.unfold base) rows head (hierarchy.arity head) tree trees := by
  refine ⟨List.replicate (hierarchy.arity head) .wild, rest,
    List.mem_filterMap.mpr ⟨_, member, rfl⟩, ?_, others⟩
  rw [← length_argTypes base head tree]
  exact totalAll_replicate _

theorem takesAll_of_node {head : Head} {args : List Shape} (member : .node head args :: rest ∈ rows)
    (totalArgs : TotalAll hierarchy (hierarchy.unfold base) args
      ((hierarchy.unfold base).argTypes head tree)) :
    TakesAll hierarchy (hierarchy.unfold base) rows head (hierarchy.arity head) tree trees := by
  refine ⟨args, rest, List.mem_filterMap.mpr ⟨_, member, ?_⟩, totalArgs, others⟩
  have full : args.length = hierarchy.arity head := by rw [totalArgs.length_eq, length_argTypes]
  simp [Row.specialize?, resize_eq full]

end

/-- Nothing is found for a constructor, if some row is total for its arguments and the other
columns. -/
theorem usefulHead_nothing (valid : base.Valid) (held : hierarchy.HeldBy base)
    {deeper : UsefulTest} (nothing : hierarchy.NothingBelow base deeper) {rows : List Row}
    {head : Head} {arity : Nat} {type : TypeRef} {types : List TypeRef} (growth : base.Growth pool)
    (inPool : pool.Has type) (inside : ∀ other ∈ types, pool.Has other)
    (full : pool.Small → arity = hierarchy.arity head)
    (takes : pool.Small →
      TakesAll hierarchy (hierarchy.unfold base) rows head arity (pool.tree type)
        (types.map pool.tree)) :
    PoolM.Yields (hierarchy.usefulHead deeper rows head (List.replicate arity .wild)
      (List.replicate types.length .wild) type types) pool
      fun answer after => after.Small → answer = none := by
  refine usefulHead_asks valid held growth inPool inside
    fun columns between grown columnsHere length trees => ?_
  rw [List.length_replicate] at length trees
  rw [List.length_replicate, ← List.replicate_add, ← length]
  have total : between.Small → ∃ total ∈ rows.filterMap (Row.specialize? head arity),
      TotalAll hierarchy (hierarchy.unfold base) total (columns.map between.tree) := by
    intro small
    have smallBefore := grown.small small
    obtain ⟨front, rest, member, totalFront, totalRest⟩ := takes smallBefore
    refine ⟨front ++ rest, member, ?_⟩
    rw [trees small (full smallBefore)]
    exact TotalAll.append totalRest totalFront
  apply PoolM.Yields.mono (nothing _ columns between (growth.trans grown) columnsHere total)
  intro answer after more none small
  rw [none small, Option.map_none]

/-- As `usefulHead_nothing`, when the number of arguments is asked first. -/
theorem searchHead_nothing (valid : base.Valid) (held : hierarchy.HeldBy base)
    {deeper : UsefulTest} (nothing : hierarchy.NothingBelow base deeper) {rows : List Row}
    {head : Head} {type : TypeRef} {types : List TypeRef} {between : TypePool}
    (growth : base.Growth pool) (grown : pool.Growth between) (inPool : pool.Has type)
    (inside : ∀ other ∈ types, pool.Has other)
    (takes : TakesAll hierarchy (hierarchy.unfold base) rows head (hierarchy.arity head)
      (pool.tree type) (types.map pool.tree)) :
    PoolM.Yields (do
      let arity := (← hierarchy.argTypes head type).length
      hierarchy.usefulHead deeper rows head (List.replicate arity .wild)
        (List.replicate types.length .wild) type types) between
      fun answer after => after.Small → answer = none := by
  have whole := growth.trans grown
  have built :=
    (PoolM.Builds.argTypes head (grown.has inPool) (held.grow whole)).ensures grown.valid
  apply PoolM.Yields.bind built
  intro argTypes after more denotes
  have all := grown.trans more
  have full : after.Small → argTypes.length = hierarchy.arity head := by
    intro small
    rw [← length_argTypes between head (between.tree type), ← denotes.reads small, List.length_map]
  apply usefulHead_nothing valid held nothing (growth.trans all) (all.has inPool)
    (fun other member => all.has (inside other member)) full
  intro small
  rwa [full small, all.tree_eq growth.valid inPool, all.map_tree_eq growth.valid inside]

theorem findSomeM?_nothing {search : α → PoolM (Option β)} {elements : List α}
    (valid : pool.Valid) (each : ∀ element ∈ elements, ∀ between, pool.Growth between →
      PoolM.Yields (search element) between fun answer after => after.Small → answer = none) :
    PoolM.Yields (elements.findSomeM? search) pool
      fun answer after => after.Small → answer = none := by
  induction elements generalizing pool with
  | nil => exact PoolM.Yields.pure valid fun _ => rfl
  | cons first rest ih =>
    apply PoolM.Yields.bind (each first List.mem_cons_self pool valid.growth)
    intro answer between growth none
    cases answer with
    | none =>
      exact ih growth.valid fun element member later grown =>
        each element (List.mem_cons_of_mem _ member) later (growth.trans grown)
    | some found => exact PoolM.Yields.pure growth.valid fun small => nomatch none small

/-- Nothing is found by default, if nothing is found for the other columns. -/
theorem byDefault_nothing (held : hierarchy.HeldBy base) {type : TypeRef}
    (growth : base.Growth pool) (inPool : pool.Has type) {test : PoolM (Option Row)}
    (domain : Domain) (used : List Head)
    (below : PoolM.Yields test pool fun answer after => after.Small → answer = none) :
    PoolM.Yields (do
      match ← test with
      | none => return none
      | some witness => return some ((← hierarchy.missingHead domain used type) :: witness)) pool
      fun answer after => after.Small → answer = none := by
  apply PoolM.Yields.bind below
  intro answer between grown none
  cases answer with
  | none => exact PoolM.Yields.pure grown.valid fun _ => rfl
  | some witness =>
    apply PoolM.Yields.bind
      (missingHead_yields held domain used (growth.trans grown) (grown.has inPool))
    exact fun _ _ more _ => PoolM.Yields.pure more.valid fun small =>
      nomatch none (more.small small)

/-- One step of the test finds nothing, if the test below it does not. -/
theorem usefulStep_nothing (valid : base.Valid) (held : hierarchy.HeldBy base)
    {deeper : UsefulTest} (sound : hierarchy.SoundTest base deeper)
    (nothing : hierarchy.NothingBelow base deeper) :
    hierarchy.NothingBelow base (hierarchy.usefulStep deeper) := by
  intro rows types
  induction types generalizing rows with
  | nil =>
    intro pool growth _ total
    apply PoolM.Yields.pure growth.valid
    intro small
    obtain ⟨total, member, _⟩ := total small
    simp [List.ne_nil_of_mem member]
  | cons type types ih =>
    intro pool growth inside total
    by_cases small : pool.Small
    · obtain ⟨_ | ⟨shape, rest⟩, member, totalRow⟩ := total small
      · cases totalRow
      obtain ⟨first, others⟩ := totalRow
      have inPool := inside type List.mem_cons_self
      have later := fun other listed => inside other (List.mem_cons_of_mem _ listed)
      rw [List.length_cons, List.replicate_succ, usefulStep]
      refine PoolM.Yields.inspect fun domain asked => ?_
      rw [List.headD_cons] at asked ⊢
      rw [List.tail_cons]
      cases shape with
      | wild =>
        have below := ih (rows.filterMap Row.default?) pool growth later
          fun _ => ⟨rest, List.mem_filterMap.mpr ⟨_, member, rfl⟩, others⟩
        have default := byDefault_nothing held growth inPool domain
          (rows.filterMap Row.leading?) below
        cases domain with
        | infinite => exact default
        | finite heads =>
          dsimp only
          split
          · apply findSomeM?_nothing growth.valid
            exact fun head _ between grown =>
              searchHead_nothing valid held nothing growth grown inPool later
              (takesAll_of_wild others member head)
          · exact default
      | node head args =>
        cases head with
        | bool | literal => cases first
        | class_ name =>
          obtain ⟨class_, alone, totalArgs⟩ := first
          cases asked.symm.trans (domain_base growth.valid inPool class_)
          have only := alone.eq_of_mem_heads
          have used : ((hierarchy.roots name).map Head.class_).all
              ((rows.filterMap Row.leading?).contains ·) = true := by
            refine List.all_eq_true.mpr fun head listed => List.contains_iff_mem.mpr ?_
            exact List.mem_filterMap.mpr ⟨_, member, by rw [only head listed]; rfl⟩
          dsimp only
          rw [if_pos used]
          apply findSomeM?_nothing growth.valid
          intro head listed between grown
          cases only head listed
          exact searchHead_nothing valid held nothing growth grown inPool later
            (takesAll_of_node others member totalArgs)
    · -- What grew from a pool beyond its limit is beyond it too.
      refine (usefulStep_sound valid held sound rows _ _ pool growth inside).mono ?_
      exact fun _ _ grown _ within => absurd (grown.small within) small

theorem usefulWithin_nothing (valid : base.Valid) (held : hierarchy.HeldBy base) :
    ∀ constructors : Nat, hierarchy.NothingBelow base (hierarchy.usefulWithin constructors)
  | 0 => usefulStep_nothing valid held (fun _ _ _ _ _ _ _ _ ran => by cases ran)
      fun _ _ _ _ _ _ _ _ ran => by cases ran
  | constructors + 1 => usefulStep_nothing valid held (usefulWithin_sound valid held constructors)
      (usefulWithin_nothing valid held constructors)

theorem useful_nothing (valid : base.Valid) (held : hierarchy.HeldBy base) :
    hierarchy.NothingBelow base hierarchy.useful :=
  fun rows types => usefulWithin_nothing valid held _ rows types

/-- A row that is total for the subject leaves no values missing. -/
theorem missingValues_nothing (valid : base.Valid) (held : hierarchy.HeldBy base) {rows : List Row}
    {subject : TypeRef} (growth : base.Growth pool) (inPool : pool.Has subject)
    (total : pool.Small → ∃ shape, [shape] ∈ rows ∧
      shape.Total hierarchy (hierarchy.unfold base) (pool.tree subject)) :
    PoolM.Yields (hierarchy.missingValues rows subject) pool
      fun missing after => after.Small → missing = [] := by
  have asked := useful_nothing valid held rows [subject] pool growth (by simpa using inPool)
    fun small => by
      obtain ⟨shape, member, takes⟩ := total small
      exact ⟨[shape], member, takes, trivial⟩
  apply PoolM.Yields.bind asked
  intro answer between grown none
  have whole := growth.trans grown
  cases answer with
  | none => exact PoolM.Yields.pure grown.valid fun _ => rfl
  | some first =>
    -- Something is found in a pool beyond its limit only; the rest of the search keeps it there.
    refine PoolM.Yields.inspect fun domain _ => ?_
    cases domain with
    | infinite => exact PoolM.Yields.pure grown.valid fun small => nomatch none small
    | finite heads =>
      apply PoolM.Yields.bind (missingByHead_grows valid held rows heads whole (grown.has inPool))
      exact fun _ _ more _ =>
        PoolM.Yields.pure more.valid fun small => nomatch none (more.small small)

variable {store : PatternStore} {subject : TypeRef}

/-- The rows of the arms are the rows before them and the shapes of the arms. -/
theorem armRows_rows {live : List (Nat × Nat)} {before : List Row} {pool after : TypePool}
    {rows : List Row} {reported : List Nat}
    (ran : (hierarchy.armRows store subject before live).run pool = .ok ((rows, reported), after)) :
    (∀ row ∈ before, row ∈ rows) ∧
      ∀ entry ∈ live, ∀ shape, Shape.ofStore store entry.2 = .ok shape → [shape] ∈ rows := by
  induction live generalizing before pool reported with
  | nil =>
    cases ran
    exact ⟨fun _ member => member, by simp⟩
  | cons entry live ih =>
    obtain ⟨shape, witness, middle, others, read, _, continued, _⟩ := armRows_cons ran
    obtain ⟨kept, entered⟩ := ih continued
    constructor
    · exact fun row member => kept row (List.mem_append_left _ member)
    · intro other member found same
      rcases List.mem_cons.mp member with rfl | later
      · cases read.symm.trans same
        exact kept _ (by simp)
      · exact entered other later found same

/-- Arms with one that is total for the subject leave no witness. -/
theorem analyzeArms_nothing {total : Prop} (valid : base.Valid) (held : hierarchy.HeldBy base)
    (grounded : total → pool.Grounded) (sound : store.Sound pool) {arms : List (Option Nat)}
    (inside : ∀ id, some id ∈ arms → id < store.size) (growth : base.Growth pool)
    (inPool : pool.Has subject) {id : Nat} {shape : Shape} (listed : some id ∈ arms)
    (read : Shape.ofStore store id = .ok shape)
    (takes : pool.Small → shape.Total hierarchy (hierarchy.unfold base) (pool.tree subject)) :
    PoolM.Works total (analyzeArms hierarchy store arms subject) pool
      fun coverage after => after.Small → coverage.witnesses = [] := by
  have heldHere := held.grow growth
  refine ((analyzeArms_works heldHere grounded sound inside inPool).strengthen ?_).mono
    fun _ _ _ facts => facts.2
  intro coverage after ran small
  obtain ⟨⟨⟨rows, reported⟩, between⟩, entered, searched⟩ := Except.bind_eq_ok ran
  obtain ⟨⟨missing, final⟩, found, done⟩ := Except.bind_eq_ok searched
  cases done
  have entering : PoolM.Works False _ pool _ :=
    armRows_works growth.valid heldHere False.elim sound _ [] pool growth.valid.growth inPool
      fun entry member => inside _ (mem_live member)
  obtain ⟨grown, _⟩ := (entering growth.valid).ensures _ _ entered
  obtain ⟨index, present⟩ := List.mem_iff_getElem?.mp listed
  have row : [shape] ∈ rows := (armRows_rows entered).2 (index, id)
    (List.mem_filterMap.mpr ⟨(some id, index), List.mem_zipIdx_iff_getElem?.mpr present, rfl⟩) shape
    read
  have missed := missingValues_nothing valid held (growth.trans grown) (grown.has inPool)
    fun small => ⟨shape, row, grown.tree_eq growth.valid inPool ▸ takes (grown.small small)⟩
  obtain ⟨_, none⟩ := missed missing _ found
  exact List.map_eq_nil_iff.mpr (none small)

end ClassHierarchy

namespace MatchGroup
open PatternStore

variable {hierarchy : ClassHierarchy} {group : MatchGroup}

/-- Without a witness only arms are reported. -/
theorem coverageReports_of_exhaustive {coverage : Coverage} (none : coverage.witnesses = []) :
    ∀ report ∈ group.coverageReports coverage, report.code ≠ .nonExhaustive := by
  intro report member
  have closed : coverage.isExhaustive = true := List.isEmpty_iff.mpr none
  rw [coverageReports, if_pos closed] at member
  obtain ⟨index, _, made⟩ := List.mem_filterMap.mp member
  obtain ⟨arm, _, rfl⟩ := Option.map_eq_some_iff.mp made
  simp

/-- A pattern that was typed against the subject of a group and is irrefutable makes the group
exhaustive, if the classes it takes apart stand alone: the check finds no witness and reports none.
It ends unless a type parameter is bounded by itself. -/
theorem check_exhaustive_of_irrefutable {before typedStore store : PatternStore}
    {base typedPool pool : TypePool} {written copy : Nat} {taken : List (Name × Span)}
    (valid : base.Valid) (declared : hierarchy.HeldBy base) (sound : before.Sound base)
    (inside : written < before.size) (subject : base.Has group.subject)
    (typed : runTyping hierarchy written group.subject before base =
      .ok (.ok copy, typedStore, typedPool))
    (growth : typedPool.Growth pool) (kept : typedStore.Keeps store) (storeSound : store.Sound pool)
    (held : group.HeldBy pool store) (listed : some copy ∈ group.arms.map (·.pattern))
    (irrefutable : store.isIrrefutable copy = .ok true)
    (takes : store.deconstructed copy = .ok taken)
    (alone : ∀ entry ∈ taken, hierarchy.Alone entry.1) :
    Runs pool.Grounded (group.check hierarchy store) pool fun result final => final.Small →
      result.1.coverage.isExhaustive = true ∧ ∀ report ∈ result.2,
        report.code ≠ .nonExhaustive := by
  obtain ⟨typing, tree, represents, against⟩ :=
    runTyping_against valid declared sound inside subject typed
  have grown := typing.trans growth
  have represented := Represents.keep kept tree copy represents
  have always : tree.isIrrefutable = true := by
    have answers := represented.isIrrefutable_eq
    rw [irrefutable] at answers
    exact (Except.ok.inj answers).symm
  have total : pool.Small → tree.shape.Total hierarchy (hierarchy.unfold base)
      (pool.tree group.subject) := by
    intro small
    rw [grown.tree_eq valid subject]
    apply PatternTree.total_of_irrefutable tree _ (against (growth.small small)) always
    intro name member
    obtain ⟨entry, present, rfl⟩ := represented.mem_deconstructed takes member
    exact alone entry present
  have armsInside : ∀ arm, some arm ∈ group.arms.map (·.pattern) → arm < store.size := by
    intro arm member
    obtain ⟨_, arms⟩ := held.arms arm member
    exact arms.inside
  have analysed : PoolM.Works pool.Grounded _ pool _ := ClassHierarchy.analyzeArms_nothing valid
    declared id storeSound armsInside grown held.subject listed represented.ofStore_eq total
  refine (check_spec analysed held grown.valid).mono ?_
  rintro ⟨analysis, reports⟩ final
    ⟨_, coverage, between, excused, _, more, none, _, same, made⟩ small
  have exhaustive : analysis.coverage.witnesses = [] := by
    have nothing := none (more.small small)
    dsimp only at same
    rw [same]
    split
    · rfl
    · exact nothing
  constructor
  · exact List.isEmpty_iff.mpr exhaustive
  · dsimp only at made
    rw [made]
    exact coverageReports_of_exhaustive exhaustive

/-- A class with an item, and a sealed class of items that permits only itself. -/
def boxes : ClassHierarchy where
  superclass _ := none
  interfaces _ := []
  typeParams _ := []
  variants name := if name = "Item" then some ["Item"] else none
  isAbstract _ := false
  components name := if name = "Box" then [⟨8⟩] else []
  classes := ["Box", "Item"]

def boxPool : TypePool := ((({} : TypePool).intern (.class_ "Box")).2.intern (.class_ "Item")).2

theorem boxPool_valid : boxPool.Valid := by
  have admits : ({} : TypePool).Admits (.class_ "Box") := ⟨by simp [TypeNode.parts], by simp⟩
  have first := intern_growth valid_empty admits
  exact (intern_growth first.1.valid ⟨by simp [TypeNode.parts], by simp⟩).1.valid

/-- A box and its item taken apart, as they are written. -/
def writtenBox : PatternStore :=
  ((({} : PatternStore).alloc (.deconstruct "Item" []) .dummy).2.alloc
    (.deconstruct "Box" [0]) .dummy).2

/-- The same typed against a box. -/
def typedBox : PatternStore :=
  ((writtenBox.push ⟨.deconstruct "Item" [], .dummy, ⟨8⟩, ⟨8⟩, some "Item", .typed⟩).2.push
    ⟨.deconstruct "Box" [2], .dummy, ⟨7⟩, ⟨7⟩, some "Box", .typed⟩).2

/-- A match on a box with the one arm. -/
def boxMatch : MatchGroup where
  subject := ⟨7⟩
  arms := [⟨some 3, .dummy⟩]
  span := .dummy

theorem check_exhaustive_of_irrefutable_box :
    ∃ (analysis : GroupAnalysis) (reports : List Diagnostic) (final : TypePool),
      runTyping boxes 1 boxMatch.subject writtenBox boxPool = .ok (.ok 3, typedBox, boxPool) ∧
      typedBox.isIrrefutable 3 = .ok true ∧
      (boxMatch.check boxes typedBox).run boxPool = .ok ((analysis, reports), final) ∧
      analysis.coverage.isExhaustive = true := by
  have ran : runTyping boxes 1 boxMatch.subject writtenBox boxPool =
      .ok (.ok 3, typedBox, boxPool) := rfl
  have checked : (boxMatch.check boxes typedBox).run boxPool =
      .ok ((⟨{}, true⟩, []), boxPool) := rfl
  have irrefutable : typedBox.isIrrefutable 3 = .ok true := rfl
  have takes : typedBox.deconstructed 3 = .ok [("Box", .dummy), ("Item", .dummy)] := rfl
  have declared : boxes.HeldBy boxPool := by
    refine ⟨by simp [boxes, ClassHierarchy.supertypes], fun name type member => ?_, by simp [boxes],
      by simp [boxes, ClassHierarchy.supertypes]⟩
    have listed : type ∈ if name = "Box" then [⟨8⟩] else ([] : List TypeRef) := member
    split at listed
    · rw [List.mem_singleton.mp listed]
      decide
    · cases listed
  have sound : writtenBox.Sound boxPool := by
    refine ((sound_empty boxPool).push ?_ ?_ ?_).push ?_ ?_ ?_ <;> decide
  have written : 1 < writtenBox.size := by decide
  have subject : boxPool.Has boxMatch.subject := by decide
  have typing := runTyping_works declared False.elim boxPool_valid sound written subject
  obtain ⟨growth, _, typedSound, _⟩ := typing.1 _ _ _ ran
  obtain ⟨_, tree, represents, _⟩ :=
    runTyping_against boxPool_valid declared sound written subject ran
  have held : boxMatch.HeldBy boxPool typedBox := by
    refine ⟨subject, fun id member => ?_⟩
    obtain rfl : id = 3 := by simpa [boxMatch] using member
    exact ⟨tree, represents⟩
  have alone : ∀ entry ∈ [("Box", Span.dummy), ("Item", Span.dummy)], boxes.Alone entry.1 := by
    intro entry member permits found permitted listed
    have onlyItem : (if entry.1 = "Item" then some ["Item"] else none) = some permits := found
    split at onlyItem
    · cases onlyItem
      simp_all
    · cases onlyItem
  have exhausts := check_exhaustive_of_irrefutable boxPool_valid declared sound written subject ran
    growth (.refl typedBox) typedSound held List.mem_cons_self irrefutable takes alone
  have small : boxPool.Small := by decide
  exact ⟨_, _, _, ran, irrefutable, checked, (exhausts.ensures _ _ checked small).1⟩

/-- A sealed class that has instances of its own and permits another class; it is the type at 7. -/
def sealedPair : ClassHierarchy where
  superclass name := if name = "Sub" then some ⟨7⟩ else none
  interfaces _ := []
  typeParams _ := []
  variants name := if name = "Base" then some ["Sub"] else none
  isAbstract _ := false
  components _ := []
  classes := ["Base", "Sub"]

/-- A match on the sealed class with one arm. -/
def sealedMatch : MatchGroup where
  subject := ⟨7⟩
  arms := [⟨some 1, .dummy⟩]
  span := .dummy

/-- A sealed class with instances of its own: the pattern that takes it apart is irrefutable, but a
match with this arm is reported, since the analysis asks for the permitted class too. -/
theorem check_misses_irrefutable :
    ∃ (written typed : PatternStore) (after : TypePool) (analysis : GroupAnalysis)
      (reports : List Diagnostic),
      runTyping sealedPair 0 sealedMatch.subject written basePool = .ok (.ok 1, typed, basePool) ∧
      typed.isIrrefutable 1 = .ok true ∧
      (sealedMatch.check sealedPair typed).run basePool = .ok ((analysis, reports), after) ∧
      analysis.coverage.isExhaustive = false ∧ ∃ report ∈ reports,
        report.code = .nonExhaustive := by
  let written : PatternStore := (({} : PatternStore).alloc (.deconstruct "Base" []) .dummy).2
  let typed : PatternStore := (written.push (typedNode "Base" ⟨7⟩)).2
  exact ⟨written, typed, bothPool, ⟨⟨["Sub"], []⟩, true⟩,
    [{ code := .nonExhaustive, span := .dummy, args := ["`Sub`"] }], rfl, rfl, rfl, rfl, _,
    List.mem_cons_self, rfl⟩

end MatchGroup
end ClassLang
