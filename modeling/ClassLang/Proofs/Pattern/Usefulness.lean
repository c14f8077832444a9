import ClassLang.Proofs.Pattern.Values

/-! Soundness of the usefulness test: when it finds nothing, the rows take all values of the
columns that the row takes. -/

namespace ClassLang

/-- Whenever the action ends, the pool has grown and `post` holds. -/
def PoolM.Yields (action : PoolM α) (pool : TypePool) (post : α → TypePool → Prop) : Prop :=
  Ensures action pool fun result after => pool.Growth after ∧ post result after

namespace PoolM.Yields
open TypePool

variable {pool : TypePool} {post : β → TypePool → Prop}

theorem mono {action : PoolM α} {weak strong : α → TypePool → Prop}
    (yields : PoolM.Yields action pool strong)
    (weaken : ∀ result after, pool.Growth after → strong result after → weak result after) :
    PoolM.Yields action pool weak :=
  Ensures.mono yields fun result after holds => ⟨holds.1, weaken result after holds.1 holds.2⟩

theorem and {action : PoolM α} {post other : α → TypePool → Prop}
    (earlier : PoolM.Yields action pool post) (later : PoolM.Yields action pool other) :
    PoolM.Yields action pool fun result after => post result after ∧ other result after :=
  fun result after ran =>
    ⟨(earlier result after ran).1, (earlier result after ran).2, (later result after ran).2⟩

theorem pure {result : α} {post : α → TypePool → Prop} (valid : pool.Valid)
    (holds : post result pool) : PoolM.Yields (Pure.pure result) pool post :=
  Ensures.pure ⟨valid.growth, holds⟩

theorem bind {action : PoolM α} {next : α → PoolM β} {middle : α → TypePool → Prop}
    (first : PoolM.Yields action pool middle)
    (rest : ∀ result between, pool.Growth between → middle result between →
      PoolM.Yields (next result) between post) :
    PoolM.Yields (action >>= next) pool post :=
  Ensures.bind (Ensures.mono first fun result between holds =>
    Ensures.mono (rest result between holds.1 holds.2) fun _ _ done =>
      ⟨holds.1.trans done.1, done.2⟩)

theorem inspect {query : TypePool → Except Abort α} {next : α → PoolM β}
    (rest : ∀ answer, query pool = .ok answer → PoolM.Yields (next answer) pool post) :
    PoolM.Yields (PoolM.inspect query >>= next) pool post := by
  intro value final ran
  obtain ⟨⟨answer, same⟩, asked, continued⟩ := Except.bind_eq_ok ran
  obtain ⟨found, answered, kept⟩ := Except.bind_eq_ok asked
  cases kept
  exact rest _ answered _ _ continued

theorem lift {answer : Except Abort α} {next : α → PoolM β}
    (rest : ∀ value, answer = .ok value → PoolM.Yields (next value) pool post) :
    PoolM.Yields (liftM answer >>= next) pool post := by
  intro value final ran
  obtain ⟨⟨found, same⟩, lifted, continued⟩ := Except.bind_eq_ok ran
  obtain ⟨inner, answered, kept⟩ := Except.bind_eq_ok lifted
  cases kept
  exact rest _ answered _ _ continued

end PoolM.Yields

namespace ClassHierarchy
open TypePool Shape ValueTree

variable {hierarchy : ClassHierarchy} {base : TypePool}

/-- Values of the columns that the row takes are taken by one of the rows. -/
def Covers (hierarchy : ClassHierarchy) (base : TypePool) (rows : List Row) (row : Row)
    (trees : List TypeTree) : Prop :=
  ∀ values, FitAll hierarchy base values trees → AcceptsAll row values →
    ∃ other ∈ rows, AcceptsAll other values

/-- Rows of one width whose constructors have all their arguments. -/
def Regular (hierarchy : ClassHierarchy) (width : Nat) (rows : List Row) : Prop :=
  ∀ row ∈ rows, row.length = width ∧ AllSized hierarchy row

/-- When the test ends without an answer, the rows cover the row. -/
def SoundTest (hierarchy : ClassHierarchy) (base : TypePool) (test : UsefulTest) : Prop :=
  ∀ rows row types pool, base.Growth pool → (∀ type ∈ types, pool.Has type) →
    PoolM.Yields (test rows row types) pool fun answer after => answer = none → after.Small →
      types.length = row.length → hierarchy.Regular row.length (row :: rows) →
      hierarchy.Covers base rows row (types.map pool.tree)

section
variable {head : Head} {row rest : Row} {arity width : Nat} {args others : List ValueTree}

theorem resize_eq {shapes : List Shape} (same : shapes.length = arity) :
    Row.resize arity shapes = shapes := by
  subst same
  simp [Row.resize]

/-- A specialized row takes the arguments and the other values of what the row takes. -/
theorem acceptsAll_of_specialize?
    (kept : Row.specialize? head (hierarchy.arity head) row = some rest)
    (sized : AllSized hierarchy row) (full : args.length = hierarchy.arity head)
    (accepts : AcceptsAll rest (args ++ others)) :
    AcceptsAll row (.node head args :: others) := by
  cases row with
  | nil => cases kept
  | cons shape row =>
    cases shape with
    | wild =>
      cases kept
      exact ⟨trivial, ((acceptsAll_append row others (by simp [full])).mp accepts).2⟩
    | node other shapes =>
      simp only [Row.specialize?] at kept
      split at kept
      · rename_i same
        subst same
        cases kept
        obtain ⟨⟨length, _⟩, _⟩ := sized
        rw [resize_eq length] at accepts
        obtain ⟨inner, outer⟩ := (acceptsAll_append row others (length.trans full.symm)).mp accepts
        exact ⟨⟨rfl, inner⟩, outer⟩
      · cases kept

theorem regular_specialize? {rows : List Row} (regular : hierarchy.Regular (width + 1) rows) :
    hierarchy.Regular (hierarchy.arity head + width)
      (rows.filterMap (Row.specialize? head (hierarchy.arity head))) := by
  intro rest member
  obtain ⟨row, present, kept⟩ := List.mem_filterMap.mp member
  obtain ⟨length, sized⟩ := regular row present
  cases row with
  | nil => cases kept
  | cons shape row =>
    have short : row.length = width := Nat.succ.inj length
    cases shape with
    | wild =>
      cases kept
      exact ⟨by simp [short], (allSized_append row _).mpr ⟨allSized_replicate _, sized.2⟩⟩
    | node other shapes =>
      simp only [Row.specialize?] at kept
      split at kept
      · rename_i same
        subst same
        cases kept
        obtain ⟨⟨full, inner⟩, outer⟩ := sized
        rw [resize_eq full]
        exact ⟨by simp [full, short], (allSized_append row _).mpr ⟨inner, outer⟩⟩
      · cases kept

/-- A row that takes any first value. -/
theorem acceptsAll_of_default? (kept : Row.default? row = some rest) (value : ValueTree)
    (accepts : AcceptsAll rest others) : AcceptsAll row (value :: others) := by
  cases row with
  | nil => cases kept
  | cons shape row =>
    cases shape with
    | wild =>
      cases kept
      exact ⟨trivial, accepts⟩
    | node => cases kept

theorem regular_default? {rows : List Row} (regular : hierarchy.Regular (width + 1) rows) :
    hierarchy.Regular width (rows.filterMap Row.default?) := by
  intro rest member
  obtain ⟨row, present, kept⟩ := List.mem_filterMap.mp member
  obtain ⟨length, sized⟩ := regular row present
  cases row with
  | nil => cases kept
  | cons shape row =>
    cases shape with
    | wild =>
      cases kept
      exact ⟨Nat.succ.inj length, sized.2⟩
    | node => cases kept

end

/-- A row with a known first constructor asks the test below about columns for the arguments of that
constructor and for the others. -/
theorem usefulHead_asks (valid : base.Valid) (held : hierarchy.HeldBy base) {deeper : UsefulTest}
    {rows : List Row} {head : Head} {args : List Shape} {rest : Row} {type : TypeRef}
    {types : List TypeRef} {pool : TypePool} (growth : base.Growth pool) (inPool : pool.Has type)
    (inside : ∀ other ∈ types, pool.Has other) {post : Option Row → TypePool → Prop}
    (below : ∀ columns between, pool.Growth between → (∀ column ∈ columns, between.Has column) →
      columns.length = args.length + types.length →
      (between.Small → args.length = hierarchy.arity head → columns.map between.tree =
        (hierarchy.unfold base).argTypes head (pool.tree type) ++ types.map pool.tree) →
      PoolM.Yields
        (deeper (rows.filterMap (Row.specialize? head args.length)) (args ++ rest) columns) between
        fun answer after => post (answer.map fun witness =>
          .node head (witness.take args.length) :: witness.drop args.length) after) :
    PoolM.Yields (hierarchy.usefulHead deeper rows head args rest type types) pool post := by
  have built := (PoolM.Builds.argTypes head inPool (held.grow growth)).ensures growth.valid
  rw [held.unfold_eq valid growth] at built
  refine PoolM.Yields.bind built fun argTypes between grown denotes => ?_
  have columnsHere : ∀ column ∈ argTypes.take args.length ++
      List.replicate (args.length - argTypes.length) .any ++ types, between.Has column := by
    intro column member
    rcases List.mem_append.mp member with front | back
    · rcases List.mem_append.mp front with listed | filled
      · exact denotes.has column (List.mem_of_mem_take listed)
      · rw [(List.mem_replicate.mp filled).2]
        exact grown.valid.has_any
    · exact grown.has (inside column back)
  refine PoolM.Yields.bind (below _ between grown columnsHere (by simp; omega) fun small full => ?_)
    fun answer after more holds => ?_
  · have argTrees := denotes.reads small
    have count : argTypes.length = args.length := by
      rw [full, ← length_argTypes base head (pool.tree type), ← argTrees, List.length_map]
    rw [← count, List.take_length, Nat.sub_self, List.replicate_zero, List.append_nil,
      List.map_append, argTrees, grown.map_tree_eq growth.valid inside]
  · cases answer <;> exact PoolM.Yields.pure more.valid holds

/-- Usefulness of a row with a known first constructor: when nothing is found, every value of that
constructor which the row takes is taken by one of the rows. -/
theorem usefulHead_yields (valid : base.Valid) (held : hierarchy.HeldBy base) {deeper : UsefulTest}
    (sound : hierarchy.SoundTest base deeper) (rows : List Row) (head : Head) (args : List Shape)
    (rest : Row) {type : TypeRef} {types : List TypeRef} {pool : TypePool}
    (growth : base.Growth pool) (inPool : pool.Has type)
    (inside : ∀ other ∈ types, pool.Has other) :
    PoolM.Yields (hierarchy.usefulHead deeper rows head args rest type types) pool
      fun answer after => answer = none → after.Small → args.length = hierarchy.arity head →
        types.length = rest.length → AllSized hierarchy args → AllSized hierarchy rest →
        hierarchy.Regular (rest.length + 1) rows →
        ∀ values others,
            FitAll hierarchy base values ((hierarchy.unfold base).argTypes head (pool.tree type)) →
          FitAll hierarchy base others (types.map pool.tree) → AcceptsAll args values →
          AcceptsAll rest others →
          ∃ row ∈ rows, AcceptsAll row (.node head values :: others) := by
  refine usefulHead_asks valid held growth inPool inside
    fun columns between grown columnsHere length trees => ?_
  refine PoolM.Yields.mono (sound _ _ _ between (growth.trans grown) columnsHere) ?_
  intro answer after grownAfter covers missing small full width sizedArgs sizedRest regular values
    others fit fitOthers accepts acceptsRest
  have count : values.length = hierarchy.arity head := by
    rw [fit.length_eq, length_argTypes]
  have regularAll : hierarchy.Regular (args ++ rest).length
      ((args ++ rest) :: rows.filterMap (Row.specialize? head args.length)) := by
    rw [List.length_append, full]
    intro row member
    rcases List.mem_cons.mp member with rfl | later
    · exact ⟨by rw [List.length_append, full],
        (allSized_append rest args).mpr ⟨sizedArgs, sizedRest⟩⟩
    · exact regular_specialize? regular row later
  have covered := covers (Option.map_eq_none_iff.mp missing) small (by simp [length, width])
    regularAll (values ++ others)
  rw [trees (grownAfter.small small) full, full] at covered
  obtain ⟨special, member, taken⟩ := covered
    ((fitAll_append others _ (by rw [count, length_argTypes])).mpr ⟨fit, fitOthers⟩)
    ((acceptsAll_append rest others (full.trans count.symm)).mpr ⟨accepts, acceptsRest⟩)
  obtain ⟨row, present, kept⟩ := List.mem_filterMap.mp member
  exact ⟨row, present, acceptsAll_of_specialize? kept (regular row present).2 count taken⟩

/-- The constructor shown for missing values only enters types. -/
theorem missingHead_yields (held : hierarchy.HeldBy base) (domain : Domain) (used : List Head)
    {type : TypeRef} {pool : TypePool} (growth : base.Growth pool) (inPool : pool.Has type) :
    PoolM.Yields (hierarchy.missingHead domain used type) pool fun _ _ => True := by
  have valid := growth.valid
  unfold missingHead
  split
  · exact PoolM.Yields.pure valid trivial
  · split
    · exact PoolM.Yields.pure valid trivial
    · split
      · exact PoolM.Yields.pure valid trivial
      · refine PoolM.Yields.bind
          ((PoolM.Builds.argTypes _ inPool (held.grow growth)).ensures valid) ?_
        exact fun _ _ grown _ => PoolM.Yields.pure grown.valid trivial

/-- A search that finds nothing has found nothing at each place. -/
theorem findSomeM?_yields {search : α → PoolM (Option β)} {holds : α → Prop} {elements : List α}
    {pool : TypePool} (valid : pool.Valid)
    (each : ∀ element ∈ elements, ∀ between, pool.Growth between →
      PoolM.Yields (search element) between fun answer after =>
        answer = none → after.Small → holds element) :
    PoolM.Yields (elements.findSomeM? search) pool fun answer after =>
      answer = none → after.Small → ∀ element ∈ elements, holds element := by
  induction elements generalizing pool with
  | nil => exact PoolM.Yields.pure valid fun _ _ element member => by cases member
  | cons first rest ih =>
    refine PoolM.Yields.bind (each first List.mem_cons_self pool valid.growth) ?_
    intro answer between growth all
    cases answer with
    | some found => exact PoolM.Yields.pure growth.valid fun missing => by cases missing
    | none =>
      refine PoolM.Yields.mono (ih growth.valid fun element member later grown =>
        each element (List.mem_cons_of_mem _ member) later (growth.trans grown)) ?_
      intro answer after grown others missing small element member
      rcases List.mem_cons.mp member with rfl | later
      · exact all rfl (grown.small small)
      · exact others missing small element later

/-- What it means that nothing is left out below a wildcard in the first column. -/
def CoversAny (hierarchy : ClassHierarchy) (base : TypePool) (rows : List Row) (rest : Row)
    (types : List TypeRef) (pool : TypePool) : Prop :=
  types.length = rest.length + 1 → hierarchy.Regular (rest.length + 1) ((.wild :: rest) :: rows) →
    hierarchy.Covers base rows (.wild :: rest) (types.map pool.tree)

/-- The rows that take any first value cover what they cover of the other columns. -/
theorem byDefault_yields (held : hierarchy.HeldBy base) {rows : List Row} {rest : Row}
    {types : List TypeRef} {pool : TypePool} (growth : base.Growth pool)
    (inPool : pool.Has (types.headD .any)) {test : PoolM (Option Row)} (domain : Domain)
    (used : List Head)
    (below : PoolM.Yields test pool fun answer after => answer = none → after.Small →
      types.tail.length = rest.length →
      hierarchy.Regular rest.length (rest :: rows.filterMap Row.default?) →
      hierarchy.Covers base (rows.filterMap Row.default?) rest (types.tail.map pool.tree)) :
    PoolM.Yields (do
      match ← test with
      | none => return none
      | some witness =>
        return some ((← hierarchy.missingHead domain used (types.headD .any)) :: witness))
      pool fun answer after => answer = none → after.Small →
        hierarchy.CoversAny base rows rest types pool := by
  refine PoolM.Yields.bind below fun answer between grown covers => ?_
  cases answer with
  | some witness =>
    refine PoolM.Yields.bind
      (missingHead_yields held domain used (growth.trans grown) (grown.has inPool)) ?_
    exact fun _ _ more _ => PoolM.Yields.pure more.valid fun missing => by cases missing
  | none =>
    refine PoolM.Yields.pure grown.valid ?_
    intro _ small width regular values fit accepts
    have regularRows : hierarchy.Regular (rest.length + 1) rows :=
      fun row member => regular row (List.mem_cons_of_mem _ member)
    obtain ⟨_, _, sizedRest⟩ := regular _ List.mem_cons_self
    have regularRest : hierarchy.Regular rest.length (rest :: rows.filterMap Row.default?) := by
      intro row member
      rcases List.mem_cons.mp member with rfl | later
      · exact ⟨rfl, sizedRest⟩
      · exact regular_default? regularRows row later
    match types, values, width, fit, accepts with
    | type :: types, value :: others, width, ⟨_, fitRest⟩, ⟨_, acceptsRest⟩ =>
      obtain ⟨row, member, taken⟩ := covers rfl small (Nat.succ.inj width) regularRest others
        fitRest acceptsRest
      obtain ⟨whole, present, kept⟩ := List.mem_filterMap.mp member
      exact ⟨whole, present, acceptsAll_of_default? kept value taken⟩

/-- When every constructor of a finite domain is searched, nothing else is left. -/
theorem byHeads_yields (valid : base.Valid) (held : hierarchy.HeldBy base) {deeper : UsefulTest}
    (sound : hierarchy.SoundTest base deeper) (rows : List Row) (rest : Row)
    {types : List TypeRef} {pool : TypePool} (growth : base.Growth pool)
    (inPool : pool.Has (types.headD .any)) (later : ∀ type ∈ types.tail, pool.Has type)
    {heads : List Head} (asked : hierarchy.domain pool (types.headD .any) = .ok (.finite heads)) :
    PoolM.Yields (heads.findSomeM? fun head => do
      let arity := (← hierarchy.argTypes head (types.headD .any)).length
      hierarchy.usefulHead deeper rows head (List.replicate arity .wild) rest (types.headD .any)
        types.tail)
      pool fun answer after => answer = none → after.Small →
        hierarchy.CoversAny base rows rest types pool := by
  have each : ∀ head ∈ heads, ∀ between, pool.Growth between → PoolM.Yields (do
      let arity := (← hierarchy.argTypes head (types.headD .any)).length
      hierarchy.usefulHead deeper rows head (List.replicate arity .wild) rest (types.headD .any)
        types.tail) between fun answer after => answer = none → after.Small →
        types.tail.length = rest.length → AllSized hierarchy rest →
        hierarchy.Regular (rest.length + 1) rows → ∀ values others, FitAll hierarchy base values
            ((hierarchy.unfold base).argTypes head (pool.tree (types.headD .any))) →
          FitAll hierarchy base others (types.tail.map pool.tree) → AcceptsAll rest others →
          ∃ row ∈ rows, AcceptsAll row (.node head values :: others) := by
    intro head member between grown
    have whole := growth.trans grown
    have built :=
      (PoolM.Builds.argTypes head (grown.has inPool) (held.grow whole)).ensures grown.valid
    refine PoolM.Yields.bind built fun argTypes after more denotes => ?_
    refine PoolM.Yields.mono (usefulHead_yields valid held sound rows head
      (List.replicate argTypes.length .wild) rest (whole.trans more)
      (more.has (grown.has inPool)) fun type member => more.has (grown.has (later type member))) ?_
    intro answer final last covers missing small width sizedRest regular values others fit fitRest
      acceptsRest
    have count : argTypes.length = hierarchy.arity head := by
      rw [← length_argTypes between head (between.tree (types.headD .any)),
        ← denotes.reads (last.small small), List.length_map]
    have trees := (grown.trans more).map_tree_eq growth.valid later
    have tree := (grown.trans more).tree_eq growth.valid inPool
    rw [trees, tree] at covers
    have full : values.length = argTypes.length := by
      rw [fit.length_eq, length_argTypes, count]
    refine covers missing small (by simp [count]) width (allSized_replicate _) sizedRest regular
      values others fit fitRest ?_ acceptsRest
    rw [← full]
    exact acceptsAll_replicate values
  refine PoolM.Yields.mono (findSomeM?_yields growth.valid each) ?_
  intro answer after grown covers missing small width regular values fit accepts
  have regularRows : hierarchy.Regular (rest.length + 1) rows :=
    fun row member => regular row (List.mem_cons_of_mem _ member)
  obtain ⟨_, _, sizedRest⟩ := regular _ List.mem_cons_self
  match types, values, width, fit, accepts with
  | type :: types, .node head values :: others, width,
      ⟨⟨⟨domain, domainOf, admits⟩, fitArgs⟩, fitRest⟩, ⟨_, acceptsRest⟩ =>
    have same : domain = .finite heads :=
      domainOf.unique valid ⟨pool, type, growth, inPool, rfl, asked⟩
    have listed : head ∈ heads := by
      rcases admits with infinite | ⟨others, finite, member⟩
      · rw [same] at infinite
        cases infinite
      · rw [same] at finite
        cases finite
        exact member
    exact covers missing small head listed (Nat.succ.inj width) sizedRest regularRows values others
      fitArgs fitRest acceptsRest

/-- One step of the test is sound when the test below it is. -/
theorem usefulStep_sound (valid : base.Valid) (held : hierarchy.HeldBy base) {deeper : UsefulTest}
    (sound : hierarchy.SoundTest base deeper) :
    hierarchy.SoundTest base (hierarchy.usefulStep deeper) := by
  intro rows row
  induction row generalizing rows with
  | nil =>
    intro types pool growth inside
    refine PoolM.Yields.pure growth.valid ?_
    intro missing small width regular values fit accepts
    cases rows with
    | nil => simp at missing
    | cons row rows =>
      have empty : row = [] := List.length_eq_zero_iff.mp (regular row (by simp)).1
      exact ⟨row, List.mem_cons_self, empty ▸ accepts⟩
  | cons shape rest ih =>
    intro types pool growth inside
    have inPool : pool.Has (types.headD .any) := by
      cases types with
      | nil => exact growth.valid.has_any
      | cons type _ => exact inside type List.mem_cons_self
    have later : ∀ type ∈ types.tail, pool.Has type :=
      fun type member => inside type (List.mem_of_mem_tail member)
    cases shape with
    | node head args =>
      refine PoolM.Yields.mono (usefulHead_yields valid held sound rows head args rest growth inPool
        later) ?_
      intro answer after grown covers missing small width regular values fit accepts
      obtain ⟨_, ⟨full, sizedArgs⟩, sizedRest⟩ := regular _ List.mem_cons_self
      have regularRows : hierarchy.Regular (rest.length + 1) rows :=
        fun row member => regular row (List.mem_cons_of_mem _ member)
      match types, values, width, fit, accepts with
      | type :: types, .node _ values :: others, width, ⟨⟨_, fitArgs⟩, fitRest⟩,
          ⟨⟨rfl, acceptsArgs⟩, acceptsRest⟩ =>
        exact covers missing small full (Nat.succ.inj width) sizedArgs sizedRest regularRows values
          others fitArgs fitRest acceptsArgs acceptsRest
    | wild =>
      refine PoolM.Yields.inspect fun domain asked => ?_
      have below := ih (rows.filterMap Row.default?) types.tail pool growth later
      have default := byDefault_yields held growth inPool domain (rows.filterMap Row.leading?) below
      cases domain with
      | infinite => exact default
      | finite heads =>
        dsimp only
        split
        · exact byHeads_yields valid held sound rows rest growth inPool later asked
        · exact default

theorem usefulWithin_sound (valid : base.Valid) (held : hierarchy.HeldBy base) :
    ∀ constructors : Nat, hierarchy.SoundTest base (hierarchy.usefulWithin constructors)
  | 0 => usefulStep_sound valid held fun _ _ _ _ _ _ _ _ ran => by cases ran
  | constructors + 1 => usefulStep_sound valid held (usefulWithin_sound valid held constructors)

/-- The usefulness test is sound. -/
theorem useful_sound (valid : base.Valid) (held : hierarchy.HeldBy base) :
    hierarchy.SoundTest base hierarchy.useful :=
  fun rows row => usefulWithin_sound valid held _ rows row

theorem usefulHead_ne_nil (deeper : UsefulTest) (rows : List Row) (head : Head) (args : List Shape)
    (rest : Row) (type : TypeRef) (types : List TypeRef) (pool : TypePool) :
    Ensures (hierarchy.usefulHead deeper rows head args rest type types) pool fun answer _ =>
      answer ≠ some [] := by
  refine Ensures.after fun argTypes between => ?_
  refine Ensures.after fun answer after => ?_
  cases answer <;> exact Ensures.pure (by simp)

/-- A row of values that is found has a value for the first column. -/
theorem usefulStep_ne_nil (deeper : UsefulTest) (rows : List Row) (shape : Shape) (rest : Row)
    (types : List TypeRef) (pool : TypePool) :
    Ensures (hierarchy.usefulStep deeper rows (shape :: rest) types) pool fun answer _ =>
      answer ≠ some [] := by
  have searched : ∀ (heads : List Head) (pool : TypePool), Ensures (heads.findSomeM? fun head => do
      let arity := (← hierarchy.argTypes head (types.headD .any)).length
      hierarchy.usefulHead deeper rows head (List.replicate arity .wild) rest (types.headD .any)
        types.tail) pool fun answer _ => answer ≠ some [] := by
    intro heads
    induction heads with
    | nil => exact fun _ => Ensures.pure (by simp)
    | cons head heads ih =>
      intro pool
      have first : Ensures (do
          let arity := (← hierarchy.argTypes head (types.headD .any)).length
          hierarchy.usefulHead deeper rows head (List.replicate arity .wild) rest (types.headD .any)
            types.tail) pool fun answer _ => answer ≠ some [] :=
        Ensures.after fun argTypes between => usefulHead_ne_nil deeper rows head _ rest _ _ between
      refine Ensures.bind (Ensures.mono first fun answer between found => ?_)
      cases answer with
      | none => exact ih between
      | some witness => exact Ensures.pure found
  cases shape with
  | node head args => exact usefulHead_ne_nil deeper rows head args rest _ _ pool
  | wild =>
    have default : ∀ (domain : Domain) (pool : TypePool),
        Ensures (hierarchy.withMissingHead domain (rows.filterMap Row.leading?) (types.headD .any)
          (hierarchy.usefulStep deeper (rows.filterMap Row.default?) rest types.tail)) pool
        fun answer _ => answer ≠ some [] := by
      refine fun domain pool => Ensures.after fun answer between => ?_
      cases answer with
      | none => exact Ensures.pure (by simp)
      | some witness => exact Ensures.after fun _ _ => Ensures.pure (by simp)
    refine Ensures.after fun domain between => ?_
    cases domain with
    | infinite => exact default .infinite between
    | finite heads =>
      dsimp only
      split
      · exact searched heads between
      · exact default (.finite heads) between

theorem useful_ne_nil (rows : List Row) (shape : Shape) (rest : Row) (types : List TypeRef)
    (pool : TypePool) :
    Ensures (hierarchy.useful rows (shape :: rest) types) pool fun answer _ =>
      answer ≠ some [] := by
  unfold useful
  cases (rows.map Row.constructors).sum + Row.constructors (shape :: rest) with
  | zero => exact usefulStep_ne_nil _ rows shape rest types pool
  | succ constructors => exact usefulStep_ne_nil _ rows shape rest types pool

end ClassHierarchy
end ClassLang
