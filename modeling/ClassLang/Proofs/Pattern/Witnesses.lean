import ClassLang.Proofs.Pattern.Analysis
import Mathlib.Data.Fintype.EquivFin
import Mathlib.Data.List.ReduceOption
import Mathlib.Data.Set.Finite.Basic

/-! Completeness of the usefulness test: what it finds is left out by the rows. So the patterns that
are reported as missing are exactly those that are. -/

namespace ClassLang
open TypePool Shape ValueTree

namespace ClassHierarchy

/-- A type comes up in another: it is the type of an argument of one of its constructors, of an
argument of theirs, and so on. -/
inductive Involves (hierarchy : ClassHierarchy) (base : TypePool) : TypeTree → TypeTree → Prop where
  | itself (tree : TypeTree) : Involves hierarchy base tree tree
  | arg {tree part other : TypeTree} {heads : List Head} {head : Head}
      (finite : hierarchy.DomainOf base tree (.finite heads)) (listed : head ∈ heads)
      (member : part ∈ (hierarchy.unfold base).argTypes head tree)
      (below : Involves hierarchy base part other) : Involves hierarchy base tree other

/-- Every constructor that can be listed for a type, or for one that comes up in it, has
arguments. -/
def Populated (hierarchy : ClassHierarchy) (base : TypePool) (tree : TypeTree) : Prop :=
  ∀ other heads, hierarchy.Involves base tree other →
    hierarchy.DomainOf base other (.finite heads) → ∀ head ∈ heads, ∃ args,
      FitAll hierarchy base args ((hierarchy.unfold base).argTypes head other)

/-- The rows leave values of the columns out, and the row takes those. -/
def LeavesOut (hierarchy : ClassHierarchy) (base : TypePool) (rows : List Row) (row : Row)
    (trees : List TypeTree) : Prop :=
  ∃ values, FitAll hierarchy base values trees ∧ AcceptsAll row values ∧ ∀ other ∈ rows,
    ¬ AcceptsAll other values

variable {hierarchy : ClassHierarchy} {base pool : TypePool}

theorem Populated.args {tree : TypeTree} (populated : hierarchy.Populated base tree)
    {heads : List Head} {head : Head} (finite : hierarchy.DomainOf base tree (.finite heads))
    (listed : head ∈ heads) : ∀ part ∈ (hierarchy.unfold base).argTypes head tree,
    hierarchy.Populated base part :=
  fun _ member other others below => populated other others (.arg finite listed member below)

section
variable {head : Head} {row : Row} {args others : List ValueTree}

/-- What is taken of a constructor is taken of its arguments. -/
theorem specialize?_of_acceptsAll (full : args.length = hierarchy.arity head)
    (accepts : AcceptsAll row (.node head args :: others)) :
    ∃ rest, Row.specialize? head (hierarchy.arity head) row = some rest ∧
    AcceptsAll rest (args ++ others) := by
  cases row with
  | nil => exact accepts.elim
  | cons shape row =>
    obtain ⟨first, rest⟩ := accepts
    cases shape with
    | wild =>
      refine ⟨_, rfl, (acceptsAll_append row others (by simp [full])).mpr ⟨?_, rest⟩⟩
      rw [← full]
      exact acceptsAll_replicate args
    | node other shapes =>
      obtain ⟨rfl, inner⟩ := first
      have length := inner.length_eq.trans full
      refine ⟨_, if_pos rfl, ?_⟩
      rw [resize_eq length]
      exact (acceptsAll_append row others inner.length_eq).mpr ⟨inner, rest⟩

/-- What is taken of a constructor that the row does not name is taken whatever it is. -/
theorem default?_of_acceptsAll (unused : row.leading? ≠ some head)
    (accepts : AcceptsAll row (.node head args :: others)) :
    ∃ rest, Row.default? row = some rest ∧ AcceptsAll rest others := by
  cases row with
  | nil => exact accepts.elim
  | cons shape row =>
    cases shape with
    | wild => exact ⟨row, rfl, accepts.2⟩
    | node other shapes =>
      obtain ⟨⟨rfl, _⟩, _⟩ := accepts
      exact absurd rfl unused

end

/-- Whatever the test finds below wildcards is left out by the rows. -/
def CompleteTest (hierarchy : ClassHierarchy) (base : TypePool) (test : UsefulTest) : Prop :=
  ∀ rows types pool, base.Growth pool → (∀ type ∈ types, pool.Has type) →
    PoolM.Yields (test rows (List.replicate types.length .wild) types) pool fun answer after =>
      ∀ witness, answer = some witness → after.Small →
        (∀ type ∈ types, hierarchy.Populated base (pool.tree type)) →
        hierarchy.LeavesOut base rows witness (types.map pool.tree)

/-- A witness that a constructor of the first column is left out. -/
def LeavesOutHead (hierarchy : ClassHierarchy) (base : TypePool) (rows : List Row) (head : Head)
    (witness : Row) (tree : TypeTree) (trees : List TypeTree) : Prop :=
  ∃ shapes rest args others, witness = .node head shapes :: rest ∧
    FitAll hierarchy base args ((hierarchy.unfold base).argTypes head tree) ∧
    FitAll hierarchy base others trees ∧ AcceptsAll witness (.node head args :: others) ∧
    ∀ row ∈ rows, ¬ AcceptsAll row (.node head args :: others)

/-- The columns of a constructor are those of its arguments and the others. -/
theorem usefulHead_complete (valid : base.Valid) (held : hierarchy.HeldBy base)
    {deeper : UsefulTest} (complete : hierarchy.CompleteTest base deeper) (rows : List Row)
    (head : Head) {type : TypeRef} {types : List TypeRef} {arity : Nat} (growth : base.Growth pool)
    (inPool : pool.Has type) (inside : ∀ other ∈ types, pool.Has other)
    (full : pool.Small → arity = hierarchy.arity head) :
    PoolM.Yields (hierarchy.usefulHead deeper rows head (List.replicate arity .wild)
      (List.replicate types.length .wild) type types) pool fun answer after =>
        ∀ witness, answer = some witness → after.Small →
          (∀ part ∈ (hierarchy.unfold base).argTypes head (pool.tree type),
            hierarchy.Populated base part) →
          (∀ other ∈ types, hierarchy.Populated base (pool.tree other)) →
          hierarchy.LeavesOutHead base rows head witness (pool.tree type)
            (types.map pool.tree) := by
  refine usefulHead_asks valid held growth inPool inside
    fun columns between grown columnsHere length trees => ?_
  rw [List.length_replicate] at length trees
  rw [List.length_replicate, ← List.replicate_add, ← length]
  apply PoolM.Yields.mono (complete _ columns between (growth.trans grown) columnsHere)
  intro answer after more found witness same small populated populatedRest
  obtain ⟨row, rfl, rfl⟩ := Option.map_eq_some_iff.mp same
  have smallBetween := more.small small
  have full := full (grown.small smallBetween)
  have trees := trees smallBetween full
  have populatedColumns : ∀ column ∈ columns, hierarchy.Populated base (between.tree column) := by
    intro column member
    have listed : between.tree column ∈ columns.map between.tree := List.mem_map_of_mem member
    rw [trees] at listed
    rcases List.mem_append.mp listed with arg | other
    · exact populated _ arg
    · obtain ⟨type, present, reads⟩ := List.mem_map.mp other
      exact reads ▸ populatedRest type present
  obtain ⟨values, fit, accepts, missed⟩ := found row rfl small populatedColumns
  rw [trees] at fit
  have count : values.length = arity + types.length := by
    rw [fit.length_eq, List.length_append, length_argTypes, full, List.length_map]
  have countRow := accepts.length_eq
  obtain ⟨args, others, rfl, argCount⟩ : ∃ args others, values = args ++ others ∧
      args.length = arity :=
    ⟨values.take arity, values.drop arity, (List.take_append_drop _ _).symm, by simp; omega⟩
  obtain ⟨shapes, rest, rfl, shapeCount⟩ : ∃ shapes rest, row = shapes ++ rest ∧
      shapes.length = arity :=
    ⟨row.take arity, row.drop arity, (List.take_append_drop _ _).symm, by simp; omega⟩
  obtain ⟨fitArgs, fitOthers⟩ :=
    (fitAll_append others _ (by rw [argCount, length_argTypes, full])).mp fit
  obtain ⟨inner, outer⟩ :=
    (acceptsAll_append rest others (shapeCount.trans argCount.symm)).mp accepts
  rw [List.take_left' shapeCount, List.drop_left' shapeCount]
  refine ⟨shapes, rest, args, others, rfl, fitArgs, fitOthers, ⟨⟨rfl, inner⟩, outer⟩,
    fun other member taken => ?_⟩
  obtain ⟨special, kept, acceptsSpecial⟩ := specialize?_of_acceptsAll (argCount.trans full) taken
  rw [← full] at kept
  exact missed special (List.mem_filterMap.mpr ⟨other, member, kept⟩) acceptsSpecial

/-- How many arguments a constructor has is asked before a row that begins with it. -/
theorem argTypes_asks (held : hierarchy.HeldBy pool) (valid : pool.Valid) (head : Head)
    {type : TypeRef} (inPool : pool.Has type) {next : List TypeRef → PoolM α}
    {post : α → TypePool → Prop} (rest : ∀ types between, pool.Growth between →
      (between.Small → types.length = hierarchy.arity head) →
      PoolM.Yields (next types) between post) : PoolM.Yields (hierarchy.argTypes head type >>= next)
        pool post := by
  refine PoolM.Yields.bind ((PoolM.Builds.argTypes head inPool held).ensures valid)
    fun types between grown denotes => ?_
  refine rest types between grown fun small => ?_
  rw [← length_argTypes pool head (pool.tree type), ← denotes.reads small, List.length_map]

/-- The constructor shown for missing values has values that the rows take nothing of, if the rows
do not name all that can be listed. -/
theorem missingHead_complete (valid : base.Valid) (held : hierarchy.HeldBy base) {domain : Domain}
    {used : List Head} {type : TypeRef} (growth : base.Growth pool) (inPool : pool.Has type)
    (domainOf : hierarchy.DomainOf base (pool.tree type) domain)
    (spare : ∀ heads, domain = .finite heads → ∃ head ∈ heads, head ∉ used) :
    PoolM.Yields (hierarchy.missingHead domain used type) pool fun shape after => after.Small →
      hierarchy.Populated base (pool.tree type) → ∃ head args, head ∉ used ∧
        Fits hierarchy base (.node head args) (pool.tree type) ∧
        shape.Accepts (.node head args) := by
  have listed {heads : List Head} {head : Head} (finite : domain = .finite heads)
      (member : head ∈ heads) (populated : hierarchy.Populated base (pool.tree type)) :
      ∃ args, FitAll hierarchy base args ((hierarchy.unfold base).argTypes head (pool.tree type)) ∧
        Fits hierarchy base (.node head args) (pool.tree type) := by
    subst finite
    obtain ⟨args, fit⟩ := populated _ heads (.itself _) domainOf head member
    exact ⟨args, fit, ⟨_, domainOf, .inr ⟨heads, rfl, member⟩⟩, fit⟩
  cases domain with
  | infinite =>
    refine PoolM.Yields.pure growth.valid fun _ _ => ?_
    -- There are more texts than constructors in the rows.
    obtain ⟨_, ⟨text, rfl⟩, fresh⟩ := (Set.infinite_range_of_injective
      fun one two same => Literal.str.inj (Head.literal.inj same)).exists_notMem_finset
      used.toFinset
    exact ⟨.literal (.str text), [], by simpa using fresh,
      ⟨⟨_, domainOf, .inl rfl⟩, trivial⟩, trivial⟩
  | finite heads =>
    obtain ⟨present, member, unused⟩ := spare heads rfl
    unfold missingHead
    dsimp only
    split
    · refine PoolM.Yields.pure growth.valid fun _ populated => ?_
      obtain ⟨args, _, fits⟩ := listed rfl member populated
      exact ⟨present, args, unused, fits, trivial⟩
    · split
      · rename_i none
        exact absurd (by simpa using List.find?_eq_none.mp none present member) unused
      · rename_i head found
        have fresh : head ∉ used := by simpa using List.find?_some found
        refine PoolM.Yields.bind
          ((PoolM.Builds.argTypes head inPool (held.grow growth)).ensures growth.valid)
          fun types between grown denotes => PoolM.Yields.pure grown.valid fun small populated => ?_
        obtain ⟨args, fit, fits⟩ := listed rfl (List.mem_of_find?_eq_some found) populated
        have count : types.length = args.length := by
          rw [fit.length_eq, ← held.unfold_eq valid growth, ← denotes.reads small, List.length_map]
        exact ⟨head, args, fresh, fits, rfl, count ▸ acceptsAll_replicate args⟩

/-- What a search finds it has found at some place. -/
theorem findSomeM?_finds {search : α → PoolM (Option β)} {holds : β → Prop} {elements : List α}
    (valid : pool.Valid) (each : ∀ element ∈ elements, ∀ between, pool.Growth between →
      PoolM.Yields (search element) between
      fun answer after => ∀ found, answer = some found → after.Small → holds found) :
    PoolM.Yields (elements.findSomeM? search) pool fun answer after =>
      ∀ found, answer = some found → after.Small → holds found := by
  induction elements generalizing pool with
  | nil => exact PoolM.Yields.pure valid nofun
  | cons first rest ih =>
    refine PoolM.Yields.bind (each first List.mem_cons_self pool valid.growth)
      fun answer between growth all => ?_
    cases answer with
    | some found => exact PoolM.Yields.pure growth.valid all
    | none =>
      exact ih growth.valid fun element member later grown =>
        each element (List.mem_cons_of_mem _ member) later (growth.trans grown)

/-- What is found for the columns is left out by the rows. -/
abbrev FindsMissed (hierarchy : ClassHierarchy) (base : TypePool) (rows : List Row)
    (pool : TypePool) (types : List TypeRef) (answer : Option Row) (after : TypePool) : Prop :=
  ∀ witness, answer = some witness → after.Small →
    (∀ type ∈ types, hierarchy.Populated base (pool.tree type)) →
    hierarchy.LeavesOut base rows witness (types.map pool.tree)

section
variable (valid : base.Valid) (held : hierarchy.HeldBy base) {rows : List Row} {type : TypeRef}
    {types : List TypeRef}
  (growth : base.Growth pool) (inPool : pool.Has type) (later : ∀ other ∈ types, pool.Has other)
include valid held growth inPool

/-- What is found for the other columns is left out with a constructor that no row names. -/
theorem withMissingHead_complete {domain : Domain} {test : PoolM (Option Row)}
    (domainOf : hierarchy.DomainOf base (pool.tree type) domain)
    (spare : ∀ heads, domain = .finite heads → ∃ head ∈ heads, head ∉ rows.filterMap Row.leading?)
    (below : PoolM.Yields test pool
      (hierarchy.FindsMissed base (rows.filterMap Row.default?) pool types)) :
    PoolM.Yields (hierarchy.withMissingHead domain (rows.filterMap Row.leading?) type test) pool
      (hierarchy.FindsMissed base rows pool (type :: types)) := by
  refine PoolM.Yields.bind below fun answer between grown found => ?_
  cases answer with
  | none => exact PoolM.Yields.pure grown.valid nofun
  | some rest =>
    have domainOf : hierarchy.DomainOf base (between.tree type) domain :=
      (grown.tree_eq growth.valid inPool).symm ▸ domainOf
    refine PoolM.Yields.bind
      (missingHead_complete valid held (growth.trans grown) (grown.has inPool) domainOf spare)
      fun shape after more shown =>
        PoolM.Yields.pure more.valid fun witness same small populated => ?_
    cases same
    obtain ⟨others, fitOthers, acceptsOthers, missed⟩ := found rest rfl (more.small small)
      fun other member => populated other (List.mem_cons_of_mem _ member)
    rw [grown.tree_eq growth.valid inPool] at shown
    obtain ⟨head, args, unused, fits, accepts⟩ := shown small (populated type List.mem_cons_self)
    refine ⟨.node head args :: others, ⟨fits, fitOthers⟩, ⟨accepts, acceptsOthers⟩,
      fun row member taken => ?_⟩
    obtain ⟨left, kept, takenLeft⟩ := default?_of_acceptsAll
      (fun leads => unused (List.mem_filterMap.mpr ⟨row, member, leads⟩)) taken
    exact missed left (List.mem_filterMap.mpr ⟨row, member, kept⟩) takenLeft

include later in
/-- As `usefulHead_complete`, when the number of arguments is asked first. -/
theorem searchHead_complete {deeper : UsefulTest} (complete : hierarchy.CompleteTest base deeper)
    {heads : List Head} {head : Head}
    (domainOf : hierarchy.DomainOf base (pool.tree type) (.finite heads)) (member : head ∈ heads)
    {between : TypePool} (grown : pool.Growth between) :
    PoolM.Yields (do
      let arity := (← hierarchy.argTypes head type).length
      hierarchy.usefulHead deeper rows head (List.replicate arity .wild)
        (List.replicate types.length .wild) type types) between
        (hierarchy.FindsMissed base rows pool (type :: types)) := by
  refine argTypes_asks (held.grow (growth.trans grown)) grown.valid head (grown.has inPool)
    fun argTypes after more full => ?_
  have whole := grown.trans more
  refine PoolM.Yields.mono (usefulHead_complete valid held complete rows head (growth.trans whole)
    (whole.has inPool) (fun other present => whole.has (later other present)) full) ?_
  intro answer final last found witness same small populated
  rw [whole.tree_eq growth.valid inPool, whole.map_tree_eq growth.valid later] at found
  have populatedRest : ∀ other ∈ types, hierarchy.Populated base (after.tree other) :=
    fun other present => by
    rw [whole.tree_eq growth.valid (later other present)]
    exact populated other (List.mem_cons_of_mem _ present)
  obtain ⟨shapes, rest, args, others, rfl, fit, fitOthers, accepts, missed⟩ :=
    found witness same small ((populated type List.mem_cons_self).args domainOf member)
      populatedRest
  exact ⟨.node head args :: others, ⟨⟨⟨_, domainOf, .inr ⟨heads, rfl, member⟩⟩, fit⟩, fitOthers⟩,
    accepts, missed⟩

end

/-- One step of the test is complete when the test below it is. -/
theorem usefulStep_complete (valid : base.Valid) (held : hierarchy.HeldBy base)
    {deeper : UsefulTest} (complete : hierarchy.CompleteTest base deeper) :
    hierarchy.CompleteTest base (hierarchy.usefulStep deeper) := by
  intro rows types
  induction types generalizing rows with
  | nil =>
    intro pool growth _
    refine PoolM.Yields.pure growth.valid fun witness same _ _ => ?_
    split at same
    · rename_i empty
      cases same
      exact ⟨[], trivial, trivial, by simp [List.isEmpty_iff.mp empty]⟩
    · cases same
  | cons type types ih =>
    intro pool growth inside
    have inPool := inside type List.mem_cons_self
    have later : ∀ other ∈ types, pool.Has other := fun other member =>
      inside other (List.mem_cons_of_mem _ member)
    refine PoolM.Yields.inspect fun domain asked => ?_
    have domainOf : hierarchy.DomainOf base (pool.tree type) domain :=
      ⟨pool, type, growth, inPool, rfl, asked⟩
    have below := ih (rows.filterMap Row.default?) pool growth later
    cases domain with
    | infinite => exact withMissingHead_complete valid held growth inPool domainOf nofun below
    | finite heads =>
      dsimp only
      split
      · exact findSomeM?_finds growth.valid fun head member between grown =>
          searchHead_complete valid held growth inPool later complete domainOf member grown
      · rename_i notAll
        refine withMissingHead_complete valid held growth inPool domainOf
          (fun others same => ?_) below
        cases same
        simpa using notAll

theorem usefulWithin_complete (valid : base.Valid) (held : hierarchy.HeldBy base) :
    ∀ constructors : Nat, hierarchy.CompleteTest base (hierarchy.usefulWithin constructors)
  | 0 => usefulStep_complete valid held fun _ _ _ _ _ _ _ ran => by cases ran
  | constructors + 1 => usefulStep_complete valid held
      (usefulWithin_complete valid held constructors)

/-- The usefulness test is complete. -/
theorem useful_complete (valid : base.Valid) (held : hierarchy.HeldBy base) :
    hierarchy.CompleteTest base hierarchy.useful :=
  fun _ _ => usefulWithin_complete valid held _ _ _

/-- The same for a row that begins with a constructor. -/
theorem useful_node_complete (valid : base.Valid) (held : hierarchy.HeldBy base) (rows : List Row)
    (head : Head) {type : TypeRef} {arity : Nat} (growth : base.Growth pool)
    (inPool : pool.Has type) (full : pool.Small → arity = hierarchy.arity head) :
    PoolM.Yields (hierarchy.useful rows [.node head (List.replicate arity .wild)] [type]) pool
      fun answer after => ∀ witness, answer = some witness → after.Small →
        (∀ part ∈ (hierarchy.unfold base).argTypes head (pool.tree type),
          hierarchy.Populated base part) →
        hierarchy.LeavesOutHead base rows head witness (pool.tree type) [] := by
  have none : ∀ other ∈ ([] : List TypeRef), pool.Has other := by simp
  have step {deeper : UsefulTest} (complete : hierarchy.CompleteTest base deeper) :=
    (usefulHead_complete valid held complete rows head growth inPool none full).mono
      fun _ _ _ found witness same small populated => found witness same small populated (by simp)
  have never : hierarchy.CompleteTest base fun _ _ _ => throw .cyclic :=
    fun _ _ _ _ _ _ _ ran => by cases ran
  unfold useful
  cases (rows.map Row.constructors).sum + Row.constructors
    [.node head (List.replicate arity .wild)] with
  | zero => exact step never
  | succ constructors => exact step (usefulWithin_complete valid held constructors)

/-- The value belongs to the type, and no row takes it. What belongs to a type is read off trees: it
does not depend on the room that is left in the pool. -/
def Missed (hierarchy : ClassHierarchy) (base : TypePool) (rows : List Row) (tree : TypeTree)
    (value : ValueTree) : Prop :=
  Fits hierarchy base value tree ∧ ∀ row ∈ rows, ¬ AcceptsAll row [value]

/-- A pattern is shown for a constructor exactly if some value of that constructor is missed. The
pattern begins with the constructor and takes such a value. -/
structure Shows (hierarchy : ClassHierarchy) (base : TypePool) (rows : List Row) (tree : TypeTree)
    (head : Head) (answer : Option Shape) : Prop where
  isSome_iff : answer.isSome = true ↔ ∃ args, hierarchy.Missed base rows tree (.node head args)
  takes : ∀ shape ∈ answer, ∃ shapes args, shape = .node head shapes ∧
    hierarchy.Missed base rows tree (.node head args) ∧ shape.Accepts (.node head args)

/-- What is shown for one constructor. -/
theorem probe_shows (valid : base.Valid) (held : hierarchy.HeldBy base) (rows : List Row)
    {heads : List Head} {head : Head} {subject : TypeRef} {tree : TypeTree}
    (growth : base.Growth pool) (inPool : pool.Has subject) (equal : pool.tree subject = tree)
    (finite : hierarchy.DomainOf base tree (.finite heads)) (listed : head ∈ heads)
    (regular : hierarchy.Regular 1 rows) (populated : hierarchy.Populated base tree) :
    PoolM.Yields (do
      let arity := (← hierarchy.argTypes head subject).length
      let witness ← hierarchy.useful rows [.node head (List.replicate arity .wild)] [subject]
      return witness.bind List.head?) pool fun answer after => after.Small →
        hierarchy.Shows base rows tree head answer := by
  subst equal
  refine argTypes_asks (held.grow growth) growth.valid head inPool
    fun argTypes between grown full => ?_
  have whole := growth.trans grown
  have column : ∀ type ∈ [subject], between.Has type := by simpa using grown.has inPool
  have reads := grown.tree_eq growth.valid inPool
  have covers := useful_sound valid held rows [.node head (List.replicate argTypes.length .wild)]
    [subject] between whole column
  have finds := useful_node_complete valid held rows head whole (grown.has inPool) full
  refine PoolM.Yields.bind (covers.and finds) ?_
  rintro answer after more ⟨covers, finds⟩
  refine PoolM.Yields.pure more.valid fun small => ?_
  have full := full (more.small small)
  rw [List.map_singleton, reads] at covers
  rw [reads] at finds
  cases answer with
  | none =>
    have none : ¬ ∃ args, hierarchy.Missed base rows (pool.tree subject) (.node head args) := by
      rintro ⟨args, fits, missed⟩
      have regularRow : hierarchy.Regular 1
          ([.node head (List.replicate argTypes.length .wild)] :: rows) := by
        intro row member
        rcases List.mem_cons.mp member with rfl | later
        · exact ⟨rfl, ⟨by simp [full], allSized_replicate _⟩, trivial⟩
        · exact regular row later
      have count : argTypes.length = args.length := by rw [full, fits.2.length_eq, length_argTypes]
      obtain ⟨row, member, taken⟩ :=
        covers rfl small rfl regularRow [.node head args] ⟨fits, trivial⟩
        ⟨⟨rfl, count ▸ acceptsAll_replicate args⟩, trivial⟩
      exact missed row member taken
    exact ⟨by simpa using none, nofun⟩
  | some witness =>
    obtain ⟨shapes, rest, args, others, rfl, fit, fitOthers, accepts, missed⟩ :=
      finds witness rfl small (populated.args finite listed)
    obtain rfl : others = [] := List.length_eq_zero_iff.mp fitOthers.length_eq
    have some : hierarchy.Missed base rows (pool.tree subject) (.node head args) :=
      ⟨⟨⟨_, finite, .inr ⟨heads, rfl, listed⟩⟩, fit⟩, missed⟩
    refine ⟨⟨fun _ => ⟨args, some⟩, fun _ => rfl⟩, fun shape same => ?_⟩
    cases same
    exact ⟨shapes, args, rfl, some, accepts.1⟩

/-- A search at each element, with its answers. -/
theorem filterMapM_answers {search : α → PoolM (Option β)} {holds : α → Option β → Prop}
    {elements : List α} (valid : pool.Valid)
    (each : ∀ element ∈ elements, ∀ between, pool.Growth between →
      PoolM.Yields (search element) between fun answer after =>
        after.Small → holds element answer) :
    PoolM.Yields (elements.filterMapM search) pool fun results after => after.Small →
      ∃ answers, results = answers.reduceOption ∧ List.Forall₂ holds elements answers := by
  induction elements generalizing pool with
  | nil => exact PoolM.Yields.pure valid fun _ => ⟨[], rfl, .nil⟩
  | cons first rest ih =>
    rw [List.filterMapM_cons]
    refine PoolM.Yields.bind (each first List.mem_cons_self pool valid.growth)
      fun answer between growth all => ?_
    have later := ih growth.valid fun element member after grown =>
      each element (List.mem_cons_of_mem _ member) after (growth.trans grown)
    have put {results : List β} {after : TypePool} (grown : between.Growth after)
        (small : after.Small) (found : ∃ answers, results = answers.reduceOption ∧
          List.Forall₂ holds rest answers) :
        ∃ answers, answer.toList ++ results = answers.reduceOption ∧
        List.Forall₂ holds (first :: rest) answers := by
      obtain ⟨answers, rfl, hold⟩ := found
      refine ⟨answer :: answers, ?_, .cons (all (grown.small small)) hold⟩
      cases answer <;> rfl
    cases answer with
    | none => exact later.mono fun _ _ grown found small => put grown small (found small)
    | some result =>
      refine PoolM.Yields.bind later fun results after grown found => ?_
      exact PoolM.Yields.pure grown.valid fun small => put grown small (found small)

/-- What is reported as missing. -/
structure Reports (hierarchy : ClassHierarchy) (pool : TypePool) (rows : List Row)
    (subject : TypeRef) (missing : List Shape) : Prop where
  nil_iff : missing = [] ↔ ∀ value, Fits hierarchy pool value (pool.tree subject) → ∃ row ∈ rows,
    AcceptsAll row [value]
  /-- One pattern for each constructor of which a value is missed, in the order of the
  constructors. -/
  finite : ∀ heads, hierarchy.domain pool subject = .ok (.finite heads) →
    ∃ answers : List (Option Shape), missing = answers.reduceOption ∧
    List.Forall₂ (hierarchy.Shows pool rows (pool.tree subject)) heads answers
  takes : ∀ shape ∈ missing, ∃ value, hierarchy.Missed pool rows (pool.tree subject) value ∧
    shape.Accepts value

theorem Reports.ofCovered {rows : List Row} {subject : TypeRef} (covered : ∀ value,
    Fits hierarchy pool value (pool.tree subject) → ∃ row ∈ rows, AcceptsAll row [value]) :
    hierarchy.Reports pool rows subject [] where
  nil_iff := ⟨fun _ => covered, fun _ => rfl⟩
  finite heads _ := by
    refine ⟨heads.map fun _ => none, ?_,
      List.forall₂_map_right_iff.mpr (List.forall₂_same.mpr fun head _ => ?_)⟩
    · simp [List.reduceOption]
    · refine ⟨⟨nofun, ?_⟩, nofun⟩
      rintro ⟨args, fits, missed⟩
      obtain ⟨row, member, taken⟩ := covered _ fits
      exact absurd taken (missed row member)
  takes _ member := nomatch member

theorem Reports.ofMissed {rows : List Row} {subject : TypeRef} {missing : List Shape}
    (shown : missing ≠ []) {value : ValueTree}
    (missed : hierarchy.Missed pool rows (pool.tree subject) value)
    (finite : ∀ heads, hierarchy.domain pool subject = .ok (.finite heads) →
      ∃ answers : List (Option Shape), missing = answers.reduceOption ∧
      List.Forall₂ (hierarchy.Shows pool rows (pool.tree subject)) heads answers)
    (takes : ∀ shape ∈ missing, ∃ value, hierarchy.Missed pool rows (pool.tree subject) value ∧
      shape.Accepts value) :
    hierarchy.Reports pool rows subject missing where
  nil_iff := by
    refine ⟨fun none => absurd none shown, fun covered => ?_⟩
    obtain ⟨row, member, taken⟩ := covered value missed.1
    exact absurd taken (missed.2 row member)
  finite := finite
  takes := takes

theorem missingValues_yields_reports (valid : pool.Valid) (held : hierarchy.HeldBy pool)
    {rows : List Row} (regular : hierarchy.Regular 1 rows) {subject : TypeRef}
    (inPool : pool.Has subject) (populated : hierarchy.Populated pool (pool.tree subject)) :
    PoolM.Yields (hierarchy.missingValues rows subject) pool fun missing after => after.Small →
      hierarchy.Reports pool rows subject missing := by
  have column : ∀ type ∈ [subject], pool.Has type := by simpa using inPool
  have covers := useful_sound valid held rows [.wild] [subject] pool valid.growth column
  have finds := useful_complete valid held rows [subject] pool valid.growth column
  refine PoolM.Yields.bind (covers.and finds) ?_
  rintro answer between grown ⟨covers, finds⟩
  cases answer with
  | none =>
    refine PoolM.Yields.pure grown.valid fun small => .ofCovered fun value fits => ?_
    have regularRow : hierarchy.Regular 1 ([.wild] :: rows) := by
      intro row member
      rcases List.mem_cons.mp member with rfl | later
      · exact ⟨rfl, trivial, trivial⟩
      · exact regular row later
    exact covers rfl small rfl regularRow [value] ⟨fits, trivial⟩ ⟨trivial, trivial⟩
  | some first =>
    have found (small : between.Small) : ∃ shape value, first = [shape] ∧
        hierarchy.Missed pool rows (pool.tree subject) value ∧ shape.Accepts value := by
      obtain ⟨values, fit, accepts, missed⟩ := finds first rfl small (by simpa using populated)
      obtain ⟨value, rfl⟩ := List.length_eq_one_iff.mp fit.length_eq
      obtain ⟨shape, rfl⟩ := List.length_eq_one_iff.mp accepts.length_eq
      exact ⟨shape, value, rfl, ⟨fit.1, missed⟩, accepts.1⟩
    have reads := grown.tree_eq valid inPool
    refine PoolM.Yields.inspect fun domain asked => ?_
    have domainOf : hierarchy.DomainOf pool (pool.tree subject) domain :=
      ⟨between, subject, valid.growth.trans grown, grown.has inPool, reads, asked⟩
    have same {other : Domain} (asked : hierarchy.domain pool subject = .ok other) :
        domain = other :=
      domainOf.unique valid ⟨pool, subject, valid.growth, inPool, rfl, asked⟩
    cases domain with
    | infinite =>
      refine PoolM.Yields.pure grown.valid fun small => ?_
      obtain ⟨shape, value, rfl, missed, accepts⟩ := found small
      refine .ofMissed (by simp) missed (fun heads asked => nomatch same asked)
        fun other member => ?_
      rw [List.mem_singleton.mp member]
      exact ⟨value, missed, accepts⟩
    | finite heads =>
      have probes := filterMapM_answers grown.valid fun head listed later more =>
        have whole := grown.trans more
        probe_shows valid held rows whole (whole.has inPool) (whole.tree_eq valid inPool) domainOf
          listed regular populated
      refine PoolM.Yields.bind probes fun missing after more shows =>
        PoolM.Yields.pure more.valid fun small => ?_
      obtain ⟨answers, rfl, each⟩ := shows small
      obtain ⟨_, value, _, missed, _⟩ := found (more.small small)
      obtain ⟨head, args⟩ := value
      -- The constructor of a value that is missed is among those that can be listed.
      have listed : head ∈ heads := by
        obtain ⟨⟨domain, belongs, admits⟩, _⟩ := missed.1
        cases belongs.unique valid domainOf
        obtain infinite | ⟨_, same, member⟩ := admits
        · cases infinite
        · cases same
          exact member
      obtain ⟨answer, member, shown⟩ := exists_mem_of_forall₂ each listed
      obtain ⟨shape, rfl⟩ := Option.isSome_iff_exists.mp (shown.isSome_iff.mpr ⟨args, missed⟩)
      have nonempty : answers.reduceOption ≠ [] :=
        List.ne_nil_of_mem (List.reduceOption_mem_iff.mpr member)
      rw [if_neg (by simpa using nonempty)]
      refine .ofMissed nonempty missed (fun others asked => ?_) fun shape member => ?_
      · cases same asked
        exact ⟨answers, rfl, each⟩
      · obtain ⟨head, _, shown⟩ :=
          exists_mem_of_forall₂ each.flip (List.reduceOption_mem_iff.mp member)
        obtain ⟨_, args, _, missed, accepts⟩ := shown.takes shape rfl
        exact ⟨_, missed, accepts⟩

/-- The patterns that are reported as missing are exactly those that are. If no parameter is bounded
by itself there is a report. That a type with infinitely many constructors has a value outside of
any list of them need not be assumed, as there are more texts than that. -/
theorem missingValues_exact (valid : pool.Valid) (held : hierarchy.HeldBy pool) {subject : TypeRef}
    (inPool : pool.Has subject) (populated : hierarchy.Populated pool (pool.tree subject))
    {rows : List Row} (regular : hierarchy.Regular 1 rows) :
    (∀ missing after, (hierarchy.missingValues rows subject).run pool = .ok (missing, after) →
      after.Small → hierarchy.Reports pool rows subject missing) ∧
    (pool.Grounded → ∃ missing after,
      (hierarchy.missingValues rows subject).run pool = .ok (missing, after)) := by
  constructor
  · intro missing after ran
    exact (missingValues_yields_reports valid held regular inPool populated missing after ran).2
  · intro grounded
    exact (missingValues_works valid held (fun _ : True => grounded) rows valid.growth inPool
      valid).ends trivial

/-- A sealed class with two variants, the first with an integer. -/
def sealedPair : ClassHierarchy where
  superclass _ := none
  interfaces _ := []
  typeParams _ := []
  variants name := if name = "Sealed" then some ["First", "Second"] else none
  isAbstract name := name == "Sealed"
  components name := if name = "First" then [.int] else []
  classes := []

def sealedPool : TypePool := (({} : TypePool).intern (.class_ "Sealed")).2

theorem sealedPool_valid : sealedPool.Valid :=
  (intern_growth valid_empty ⟨by simp [TypeNode.parts], by simp⟩).1.valid

theorem sealedPair_component {name : Name} {type : TypeRef}
    (member : type ∈ sealedPair.components name) : type = .int := by
  simp only [sealedPair] at member
  split at member
  · exact List.mem_singleton.mp member
  · cases member

theorem sealedPair_held : sealedPair.HeldBy sealedPool := by
  refine ⟨by simp [sealedPair, supertypes], fun name type member => ?_, by simp [sealedPair],
    by simp [sealedPair, supertypes]⟩
  rw [sealedPair_component member]
  exact sealedPool_valid.has_primitive rfl

/-- The integer of the first variant is the only type that comes up in the class. -/
theorem sealedPair_involves {tree other : TypeTree}
    (involves : sealedPair.Involves sealedPool tree other)
    (either : tree = .class_ "Sealed" ∨ tree = .int) : other = .class_ "Sealed" ∨ other = .int := by
  induction involves with
  | itself => exact either
  | @arg tree part other heads head _ _ member _ ih =>
    refine ih (.inr ?_)
    cases head with
    | class_ name =>
      obtain ⟨_, listed, rfl⟩ := List.mem_map.mp member
      obtain ⟨type, declared, rfl⟩ := List.mem_map.mp listed
      rw [sealedPair_component declared]
      rfl
    | bool | literal => cases member

theorem sealedPair_populated : sealedPair.Populated sealedPool (sealedPool.tree ⟨7⟩) := by
  have whole : sealedPair.DomainOf sealedPool (.class_ "Sealed")
      (.finite [.class_ "First", .class_ "Second"]) :=
    ⟨sealedPool, ⟨7⟩, sealedPool_valid.growth, by decide, rfl, rfl⟩
  have int : sealedPair.DomainOf sealedPool .int .infinite :=
    ⟨sealedPool, .int, sealedPool_valid.growth, by decide, rfl, rfl⟩
  intro other heads involves finite head listed
  rcases sealedPair_involves involves (.inl rfl) with rfl | rfl
  · cases finite.unique sealedPool_valid whole
    rcases List.mem_pair.mp listed with rfl | rfl
    · exact ⟨[.node (.literal (.int 1)) []], ⟨⟨_, int, .inl rfl⟩, trivial⟩, trivial⟩
    · exact ⟨[], trivial⟩
  · cases finite.unique sealedPool_valid int

/-- Where only the first variant is named, the second is reported. -/
theorem missingValues_exact_sealed : ∃ after,
    (sealedPair.missingValues [[.node (.class_ "First") [.wild]]] ⟨7⟩).run sealedPool =
      .ok ([.node (.class_ "Second") []], after) ∧ after.Small ∧
    sealedPair.Reports sealedPool [[.node (.class_ "First") [.wild]]] ⟨7⟩
      [.node (.class_ "Second") []] := by
  have regular : sealedPair.Regular 1 [[.node (.class_ "First") [.wild]]] := by
    intro row member
    rw [List.mem_singleton.mp member]
    exact ⟨rfl, ⟨rfl, trivial, trivial⟩, trivial⟩
  have exact := missingValues_exact sealedPool_valid sealedPair_held
    (by decide) sealedPair_populated regular
  exact ⟨_, rfl, by decide, exact.1 _ _ rfl (by decide)⟩

end ClassHierarchy
end ClassLang
