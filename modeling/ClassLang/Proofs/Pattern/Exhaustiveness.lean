import ClassLang.Proofs.Pattern.Usefulness

/-! What the analysis of arms promises: arms without a witness take every value of the subject, and
an arm that is reported takes no value that no earlier arm takes. -/

namespace ClassLang
open TypePool Shape ValueTree

/-- The shape of the pattern of an arm. -/
def ArmShape (store : PatternStore) (arms : List (Option Nat)) (index : Nat)
    (shape : Shape) : Prop :=
  ∃ id, arms[index]? = some (some id) ∧ Shape.ofStore store id = .ok shape

namespace ClassHierarchy

variable {hierarchy : ClassHierarchy} {base pool : TypePool}

theorem filterMapM_grows {search : α → PoolM (Option β)} {elements : List α} (valid : pool.Valid)
    (each : ∀ element ∈ elements, ∀ between, pool.Growth between →
      PoolM.Yields (search element) between fun _ _ => True) :
    PoolM.Yields (elements.filterMapM search) pool fun _ _ => True := by
  induction elements generalizing pool with
  | nil => exact PoolM.Yields.pure valid trivial
  | cons first rest ih =>
    rw [List.filterMapM_cons]
    refine PoolM.Yields.bind (each first List.mem_cons_self pool valid.growth) ?_
    intro answer between growth _
    have later := ih growth.valid fun element member after grown =>
      each element (List.mem_cons_of_mem _ member) after (growth.trans grown)
    cases answer with
    | none => exact later
    | some found =>
      exact PoolM.Yields.bind later fun _ _ grown _ => PoolM.Yields.pure grown.valid trivial

theorem useful_grows (valid : base.Valid) (held : hierarchy.HeldBy base) (rows : List Row)
    (row : Row) {types : List TypeRef} (growth : base.Growth pool)
    (inside : ∀ type ∈ types, pool.Has type) :
    PoolM.Yields (hierarchy.useful rows row types) pool fun _ _ => True :=
  PoolM.Yields.mono (useful_sound valid held rows row types pool growth inside)
    fun _ _ _ _ => trivial

/-- The search for what is missing of each constructor only enters types. -/
theorem missingByHead_grows (valid : base.Valid) (held : hierarchy.HeldBy base) (rows : List Row)
    (heads : List Head) {subject : TypeRef} (growth : base.Growth pool)
    (inPool : pool.Has subject) : PoolM.Yields (heads.filterMapM fun head => do
      let arity := (← hierarchy.argTypes head subject).length
      let witness ← hierarchy.useful rows [.node head (List.replicate arity .wild)] [subject]
      return witness.bind List.head?) pool fun _ _ => True := by
  refine filterMapM_grows growth.valid fun head _ later more => ?_
  have subjectHere := more.has inPool
  refine PoolM.Yields.bind ((PoolM.Builds.argTypes head subjectHere
    (held.grow (growth.trans more))).ensures more.valid) fun argTypes next further _ => ?_
  refine PoolM.Yields.bind (useful_grows valid held rows _ ((growth.trans more).trans further)
    (by simpa using further.has subjectHere)) fun _ _ last _ => ?_
  exact PoolM.Yields.pure last.valid trivial

/-- When nothing is missing, the rows take every value of the subject. -/
theorem missingValues_yields (valid : base.Valid) (held : hierarchy.HeldBy base) (rows : List Row)
    {subject : TypeRef} (growth : base.Growth pool) (inPool : pool.Has subject) :
    PoolM.Yields (hierarchy.missingValues rows subject) pool fun missing after =>
      missing = [] → after.Small → hierarchy.Regular 1 rows →
        ∀ value, Fits hierarchy base value (pool.tree subject) →
          ∃ row ∈ rows, AcceptsAll row [value] := by
  have column : ∀ type ∈ [subject], pool.Has type := by simpa using inPool
  have asked : PoolM.Yields (hierarchy.useful rows [.wild] [subject]) pool fun answer after =>
      answer ≠ some [] ∧ (answer = none → after.Small → hierarchy.Regular 1 ([.wild] :: rows) →
        hierarchy.Covers base rows [.wild] [pool.tree subject]) := by
    intro answer after ran
    obtain ⟨grown, covers⟩ :=
      useful_sound valid held rows [.wild] [subject] pool growth column answer after ran
    have filled := useful_ne_nil rows .wild [] [subject] pool answer after ran
    exact ⟨grown, filled, fun missing small => covers missing small rfl⟩
  refine PoolM.Yields.bind asked ?_
  rintro answer between grown ⟨filled, covers⟩
  have whole := growth.trans grown
  cases answer with
  | none =>
    refine PoolM.Yields.pure grown.valid fun _ small regular value fits => ?_
    refine covers rfl small ?_ [value] ⟨fits, trivial⟩ ⟨trivial, trivial⟩
    intro row member
    rcases List.mem_cons.mp member with rfl | later
    · exact ⟨rfl, trivial, trivial⟩
    · exact regular row later
  | some first =>
    have shown : first.take 1 ≠ [] := by
      intro none
      rcases List.take_eq_nil_iff.mp none with zero | empty
      · cases zero
      · exact filled (congrArg some empty)
    refine PoolM.Yields.inspect fun domain answered => ?_
    cases domain with
    | infinite => exact PoolM.Yields.pure grown.valid fun none => absurd none shown
    | finite heads =>
      refine PoolM.Yields.bind
        (missingByHead_grows valid held rows heads whole (grown.has inPool)) ?_
      intro missing after more _
      refine PoolM.Yields.pure more.valid fun none => ?_
      split at none
      · exact absurd none shown
      · rename_i some
        exact absurd (List.isEmpty_iff.mpr none) some

/-- Rows that stand for arms. -/
def RowsOf (store : PatternStore) (arms : List (Option Nat)) (rows : List Row) : Prop :=
  ∀ row ∈ rows, ∃ index shape, ArmShape store arms index shape ∧ row = [shape]

/-- An arm takes no value of the subject that no earlier arm takes. -/
def Redundant (hierarchy : ClassHierarchy) (base : TypePool) (store : PatternStore)
    (arms : List (Option Nat)) (tree : TypeTree) (index : Nat) : Prop :=
  ∃ shape, ArmShape store arms index shape ∧ ∀ value, Fits hierarchy base value tree →
    shape.Accepts value → ∃ earlier < index, ∃ other, ArmShape store arms earlier other ∧
      other.Accepts value

theorem accepts_singleton {shape : Shape} {value : ValueTree} :
    AcceptsAll [shape] [value] ↔ shape.Accepts value := by
  simp [AcceptsAll]

theorem regular_of_rows {store : PatternStore} {arms : List (Option Nat)} {rows : List Row}
    (sized : ∀ index shape, ArmShape store arms index shape → shape.Sized hierarchy)
    (rowsOf : RowsOf store arms rows) : hierarchy.Regular 1 rows := by
  intro row member
  obtain ⟨index, shape, arm, rfl⟩ := rowsOf row member
  exact ⟨rfl, sized index shape arm, trivial⟩

/-- The rows of the arms, and the arms reported on the way. Rows entered before come from arms with
smaller positions. -/
theorem armRows_yields (valid : base.Valid) (held : hierarchy.HeldBy base) {store : PatternStore}
    {arms : List (Option Nat)} {subject : TypeRef}
    (sized : ∀ index shape, ArmShape store arms index shape → shape.Sized hierarchy) :
    ∀ (live : List (Nat × Nat)) (before : List Row) (pool : TypePool), base.Growth pool →
      pool.Has subject → (∀ entry ∈ live, arms[entry.1]? = some (some entry.2)) →
      live.Pairwise (·.1 < ·.1) →
      (∀ row ∈ before, ∃ index shape, ArmShape store arms index shape ∧ row = [shape] ∧
        ∀ entry ∈ live, index < entry.1) →
      PoolM.Yields (hierarchy.armRows store subject before live) pool fun result after =>
        RowsOf store arms result.1 ∧ (after.Small → ∀ index ∈ result.2,
          hierarchy.Redundant base store arms (pool.tree subject) index)
  | [], before, pool, growth, _, _, _, answers => by
    refine PoolM.Yields.pure growth.valid
      ⟨fun row member => ?_, fun _ index member => by cases member⟩
    obtain ⟨index, shape, arm, same, _⟩ := answers row member
    exact ⟨index, shape, arm, same⟩
  | (index, id) :: live, before, pool, growth, inPool, listed, ordered, answers => by
    obtain ⟨smallest, orderedRest⟩ := List.pairwise_cons.mp ordered
    refine PoolM.Yields.lift fun shape read => ?_
    have arm : ArmShape store arms index shape := ⟨id, listed _ List.mem_cons_self, read⟩
    have column : ∀ type ∈ [subject], pool.Has type := by simpa using inPool
    refine PoolM.Yields.bind
      (useful_sound valid held before [shape] [subject] pool growth column) ?_
    intro witness between grown covers
    have entered : ∀ row ∈ before ++ [[shape]], ∃ index shape, ArmShape store arms index shape ∧
        row = [shape] ∧ ∀ entry ∈ live, index < entry.1 := by
      intro row member
      rcases List.mem_append.mp member with old | new
      · obtain ⟨earlier, other, armShape, same, below⟩ := answers row old
        exact ⟨earlier, other, armShape, same, fun entry later =>
          below entry (List.mem_cons_of_mem _ later)⟩
      · exact ⟨index, shape, arm, List.mem_singleton.mp new, smallest⟩
    refine PoolM.Yields.bind (armRows_yields valid held sized live (before ++ [[shape]]) between
      (growth.trans grown) (grown.has inPool)
      (fun entry member => listed entry (List.mem_cons_of_mem _ member)) orderedRest entered) ?_
    rintro ⟨rows, unreachable⟩ after more ⟨rowsKnown, redundant⟩
    rw [grown.tree_eq growth.valid inPool] at redundant
    refine PoolM.Yields.pure more.valid ⟨rowsKnown, fun small => ?_⟩
    have own : witness = none → hierarchy.Redundant base store arms (pool.tree subject) index := by
      intro missing
      refine ⟨shape, arm, fun value fits accepts => ?_⟩
      have regular : hierarchy.Regular 1 ([shape] :: before) := by
        refine regular_of_rows sized fun row member => ?_
        rcases List.mem_cons.mp member with rfl | old
        · exact ⟨index, shape, arm, rfl⟩
        · obtain ⟨earlier, other, armShape, same, _⟩ := answers row old
          exact ⟨earlier, other, armShape, same⟩
      obtain ⟨row, member, taken⟩ := covers missing (more.small small) rfl regular [value]
        ⟨fits, trivial⟩ (accepts_singleton.mpr accepts)
      obtain ⟨earlier, other, armShape, rfl, below⟩ := answers row member
      exact ⟨earlier, below _ List.mem_cons_self, other, armShape, accepts_singleton.mp taken⟩
    cases witness with
    | none =>
      intro other member
      rcases List.mem_cons.mp member with rfl | later
      · exact own rfl
      · exact redundant small other later
    | some => exact redundant small

/-- Arms with a pattern are listed with their positions, in order. -/
theorem live_spec (arms : List (Option Nat)) :
    (∀ entry ∈ arms.zipIdx.filterMap (fun (arm, index) => arm.map (index, ·)),
      arms[entry.1]? = some (some entry.2)) ∧
    (arms.zipIdx.filterMap fun (arm, index) => arm.map (index, ·)).Pairwise (·.1 < ·.1) := by
  constructor
  · rintro ⟨index, id⟩ member
    obtain ⟨⟨arm, position⟩, present, kept⟩ := List.mem_filterMap.mp member
    obtain ⟨_, rfl, same⟩ := Option.map_eq_some_iff.mp kept
    cases same
    exact List.mem_zipIdx_iff_getElem?.mp present
  · rw [List.pairwise_filterMap]
    have positions : (arms.zipIdx.map Prod.snd).Pairwise (· < ·) := by
      rw [List.zipIdx_map_snd]
      exact List.pairwise_lt_range'
    refine List.Pairwise.imp ?_ (List.pairwise_map.mp positions)
    rintro ⟨first, index⟩ ⟨second, other⟩ before entry found entry' found'
    obtain ⟨_, _, rfl⟩ := Option.map_eq_some_iff.mp found
    obtain ⟨_, _, rfl⟩ := Option.map_eq_some_iff.mp found'
    exact before

/-- What the analysis of arms says about the values of the subject. -/
theorem analyzeArms_yields (valid : base.Valid) (held : hierarchy.HeldBy base)
    {store : PatternStore} {arms : List (Option Nat)} {subject : TypeRef}
    (sized : ∀ index shape, ArmShape store arms index shape → shape.Sized hierarchy)
    (growth : base.Growth pool) (inPool : pool.Has subject) :
    PoolM.Yields (analyzeArms hierarchy store arms subject) pool fun coverage after =>
      after.Small →
        (coverage.witnesses = [] → ∀ value, Fits hierarchy base value (pool.tree subject) →
          ∃ index shape, ArmShape store arms index shape ∧ shape.Accepts value) ∧
        ∀ index ∈ coverage.unreachable,
          hierarchy.Redundant base store arms (pool.tree subject) index := by
  obtain ⟨listed, ordered⟩ := live_spec arms
  refine PoolM.Yields.bind (armRows_yields valid held sized _ [] pool growth inPool listed ordered
    (by simp)) ?_
  rintro ⟨rows, unreachable⟩ between grown ⟨rowsKnown, redundant⟩
  refine PoolM.Yields.bind (missingValues_yields valid held rows (growth.trans grown)
    (grown.has inPool)) fun missing after more covers => ?_
  rw [grown.tree_eq growth.valid inPool] at covers
  refine PoolM.Yields.pure more.valid fun small => ⟨fun none value fits => ?_, ?_⟩
  · have nothing : missing = [] := List.map_eq_nil_iff.mp none
    obtain ⟨row, member, taken⟩ := covers nothing small (regular_of_rows sized rowsKnown) value fits
    obtain ⟨index, shape, arm, rfl⟩ := rowsKnown row member
    exact ⟨index, shape, arm, accepts_singleton.mp taken⟩
  · exact redundant (more.small small)

/-- The usefulness test is sound for the constructor domains. If it finds nothing, every vector of
values of the column types that the row takes is taken by one of the rows. So arms without a
witness take every value of the subject, and an arm reported as unreachable takes only values that
an earlier arm takes. -/
theorem usefulness_sound {hierarchy : ClassHierarchy} {pool : TypePool} (valid : pool.Valid)
    (held : hierarchy.HeldBy pool) :
    (∀ (rows : List Row) (row : Row) (types : List TypeRef) (after : TypePool),
      (∀ type ∈ types, pool.Has type) → types.length = row.length →
      hierarchy.Regular row.length (row :: rows) →
      (hierarchy.useful rows row types).run pool = .ok (none, after) → after.Small →
      ∀ values, InhabitAll hierarchy values pool types → AcceptsAll row values →
        ∃ other ∈ rows, AcceptsAll other values) ∧
    (∀ (store : PatternStore) (arms : List (Option Nat)) (subject : TypeRef) (coverage : Coverage)
      (after : TypePool), pool.Has subject →
      (∀ index shape, ArmShape store arms index shape → shape.Sized hierarchy) →
      (analyzeArms hierarchy store arms subject).run pool = .ok (coverage, after) → after.Small →
      (coverage.witnesses = [] → ∀ value, Inhabits hierarchy value pool subject →
        ∃ index shape, ArmShape store arms index shape ∧ shape.Accepts value) ∧
      ∀ index ∈ coverage.unreachable, ∃ shape, ArmShape store arms index shape ∧
        ∀ value, Inhabits hierarchy value pool subject → shape.Accepts value →
          ∃ earlier < index, ∃ other, ArmShape store arms earlier other ∧ other.Accepts value) := by
  constructor
  · intro rows row types after inside width regular ran small values inhabit accepts
    obtain ⟨_, covers⟩ :=
      useful_sound valid held rows row types pool valid.growth inside none after ran
    exact covers rfl small width regular values
      (InhabitAll.fitAll valid held values pool types valid.growth inside inhabit) accepts
  · intro store arms subject coverage after inPool sized ran small
    obtain ⟨_, judged⟩ :=
      analyzeArms_yields valid held sized valid.growth inPool coverage after ran
    have fits := fun value inhabits =>
      Inhabits.fits valid held value pool subject valid.growth inPool inhabits
    obtain ⟨exhaustive, redundant⟩ := judged small
    refine ⟨fun none value inhabits => exhaustive none value (fits value inhabits), ?_⟩
    intro index member
    obtain ⟨shape, arm, covered⟩ := redundant index member
    exact ⟨shape, arm, fun value inhabits => covered value (fits value inhabits)⟩

/-- A sealed class with two variants, the first with an integer: rows for both take the value
`First(1)` of that class. -/
theorem usefulness_sound_sealed :
    ∃ (hierarchy : ClassHierarchy) (pool : TypePool) (subject : TypeRef) (value : ValueTree)
      (rows : List Row), rows.length = 2 ∧ Inhabits hierarchy value pool subject ∧
        ∃ row ∈ rows, AcceptsAll row [value] := by
  let hierarchy : ClassHierarchy :=
    { superclass := fun _ => none, interfaces := fun _ => [], typeParams := fun _ => [],
      variants := fun name => if name = "Sealed" then some ["First", "Second"] else none,
      isAbstract := fun name => name == "Sealed",
      components := fun name => if name = "First" then [.int] else [], classes := [] }
  let pool : TypePool := (({} : TypePool).intern (.class_ "Sealed")).2
  let value : ValueTree := .node (.class_ "First") [.node (.literal (.int 1)) []]
  let rows : List Row := [[.node (.class_ "First") [.wild]], [.node (.class_ "Second") []]]
  have valid : pool.Valid :=
    (intern_growth valid_empty ⟨by simp [TypeNode.parts], by simp⟩).1.valid
  have held : hierarchy.HeldBy pool := by
    refine ⟨by simp [hierarchy, supertypes], fun name type member => ?_, by simp [hierarchy],
      by simp [hierarchy, supertypes]⟩
    have int : type = .int := by
      simp only [hierarchy] at member
      split at member
      · exact List.mem_singleton.mp member
      · cases member
    rw [int]
    exact valid.has_primitive rfl
  have inhabits : Inhabits hierarchy value pool ⟨7⟩ :=
    ⟨⟨_, rfl, .inr ⟨_, rfl, List.mem_cons_self⟩⟩, [.int], (pool.intern (.class_ "First")).2, rfl,
      by decide, ⟨⟨_, rfl, .inl rfl⟩, [], _, rfl, by decide, trivial⟩, trivial⟩
  have regular : hierarchy.Regular 1 ([.wild] :: rows) := by
    intro row member
    obtain rfl | rfl | rfl : row = [.wild] ∨ row = [.node (.class_ "First") [.wild]] ∨
        row = [.node (.class_ "Second") []] := by simpa [rows] using member
    · exact ⟨rfl, trivial, trivial⟩
    · exact ⟨rfl, ⟨rfl, trivial, trivial⟩, trivial⟩
    · exact ⟨rfl, ⟨rfl, trivial⟩, trivial⟩
  have subject : ∀ type ∈ [(⟨7⟩ : TypeRef)], pool.Has type := by
    intro type member
    rw [List.mem_singleton.mp member]
    decide
  refine ⟨hierarchy, pool, ⟨7⟩, value, rows, rfl, inhabits, ?_⟩
  exact (usefulness_sound valid held).1 rows [.wild] [⟨7⟩] _ subject rfl regular rfl (by decide)
    [value] ⟨inhabits, trivial⟩ ⟨trivial, trivial⟩

end ClassHierarchy
end ClassLang
