import ClassLang.Proofs.Stage.Expressions

/-! The common type of branches. Joining two types keeps the wider one, and a fold over all
branches rises: the types that are the join for a while overtake one another, and the last one is
the join of all. A branch that yields nothing does not count. -/

namespace ClassLang
open Relation

/-! One step: the join of two types. -/

/-- What becomes of two types when it is known which types are above each other and which are
not. -/
inductive Joined (above apart : TypeRef → TypeRef → Prop) (first second : TypeRef) :
    TypeRef → Prop where
  | left (covers : second = .void ∨ first ≠ .void ∧ (first = second ∨ above first second)) :
      Joined above apart first second first
  | right (covers : first = .void ∨ second ≠ .void ∧ above second first ∧ apart first second)
      (narrow : first ≠ .any) : Joined above apart first second second
  | neither (left : above .any first) (right : above .any second) :
      Joined above apart first second .any

/-- The types of branches are joined from the left, to one that is there already. -/
inductive Joins (above apart : TypeRef → TypeRef → Prop) :
    Option TypeRef → List TypeRef → Option TypeRef → Prop where
  | done (result : Option TypeRef) : Joins above apart result [] result
  | first {type : TypeRef} {types : List TypeRef} {result : Option TypeRef}
      (rest : Joins above apart (some type) types result) :
      Joins above apart none (type :: types) result
  | next {previous type joined : TypeRef} {types : List TypeRef} {result : Option TypeRef}
      (step : Joined above apart previous type joined)
      (rest : Joins above apart (some joined) types result) :
      Joins above apart (some previous) (type :: types) result

section
variable {above apart : TypeRef → TypeRef → Prop} {first second low result type : TypeRef}
  {types before after rising : List TypeRef} {start last : Option TypeRef}

/-- The first type is replaced by the second one as the join. -/
def Overtaken (above apart : TypeRef → TypeRef → Prop) (lower upper : TypeRef) : Prop :=
  above upper lower ∧ apart lower upper

/-- How the join comes from the type of a branch to the last one: the branch is below one that was
the join when it came, itself perhaps, and of the branches after it some overtook one another. -/
structure Climb (above apart : TypeRef → TypeRef → Prop) (before : List TypeRef) (type : TypeRef)
    (after : List TypeRef) (low : TypeRef) (rising : List TypeRef) (result : TypeRef) : Prop where
  start : low ∈ before ++ [type]
  covers : low = type ∨ above low type
  later : rising.Sublist after
  chain : (low :: rising).IsChain (Overtaken above apart)
  last : (low :: rising).getLast? = some result

/-- There is a join as soon as there is a type. -/
theorem Joins.exists_some (joins : Joins above apart start types last)
    (some_ : start.toList ++ types ≠ []) : ∃ result, last = some result := by
  induction joins with
  | done result =>
    cases result with
    | none => exact absurd rfl some_
    | some result => exact ⟨result, rfl⟩
  | first _ ih => exact ih (List.cons_ne_nil _ _)
  | next _ _ ih => exact ih (List.cons_ne_nil _ _)

/-- Once the types have no common type but the widest, none is found later. -/
theorem Joins.any (joins : Joins above apart (some .any) types last) : last = some .any := by
  generalize same : some TypeRef.any = start at joins
  induction joins with
  | done => rfl
  | first => cases same
  | next step _ ih =>
    cases same
    cases step with
    | left => exact ih rfl
    | right _ narrow => exact absurd rfl narrow
    | neither => exact ih rfl

/-- The join rises from the type of every branch that yields something, unless it is the widest. -/
theorem Joins.exists_climb (joins : Joins above apart start types (some result)) :
    result = .any ∨ ∀ before type after, start.toList ++ types = before ++ type :: after →
      type ≠ .void → ∃ low rising, Climb above apart before type after low rising result := by
  generalize same : some result = last at joins
  induction joins with
  | done =>
    subst same
    refine .inr fun before type after split _ => ?_
    match before, split with
    | [], split =>
      cases split
      exact ⟨result, [], by simp, .inl rfl, .slnil, .singleton _, rfl⟩
    | _ :: before, split => simp at split
  | first _ ih => exact ih same
  | @next previous second joined types _ step rest ih =>
    rcases ih same with any | climbs
    · exact .inl any
    -- The branches after these two are below the join as they are without them.
    have later (kept : joined = previous ∨ joined = second) (before : List TypeRef) (type : TypeRef)
        (after : List TypeRef) (split : types = before ++ type :: after) (yields : type ≠ .void) :
        ∃ low rising, Climb above apart (previous :: second :: before) type after low rising
          result := by
      obtain ⟨low, rising, climb⟩ := climbs (joined :: before) type after
        (congrArg (joined :: ·) split) yields
      refine ⟨low, rising, ?_, climb.covers, climb.later, climb.chain, climb.last⟩
      rcases List.mem_cons.mp climb.start with rfl | member
      · rcases kept with rfl | rfl <;> simp
      · exact List.mem_cons_of_mem _ (List.mem_cons_of_mem _ member)
    cases step with
    | left covers =>
      refine .inr fun before type after split yields => ?_
      match before, split with
      | [], split =>
        cases split
        obtain ⟨low, rising, climb⟩ := climbs [] previous types rfl yields
        exact ⟨low, rising, climb.start, climb.covers, climb.later.cons _, climb.chain, climb.last⟩
      | [_], split =>
        cases split
        obtain ⟨present, covers⟩ := covers.resolve_left yields
        obtain ⟨low, rising, climb⟩ := climbs [] previous types rfl present
        obtain rfl : low = previous := by simpa using climb.start
        exact ⟨low, rising, by simp, covers, climb.later, climb.chain, climb.last⟩
      | _ :: _ :: before, split =>
        cases split
        exact later (.inl rfl) before type after rfl yields
    | right covers =>
      refine .inr fun before type after split yields => ?_
      match before, split with
      | [], split =>
        cases split
        obtain ⟨present, overtaken⟩ := covers.resolve_left yields
        obtain ⟨low, rising, climb⟩ := climbs [] second types rfl present
        obtain rfl : low = second := by simpa using climb.start
        refine ⟨previous, low :: rising, by simp, .inl rfl, climb.later.cons_cons _, ?_, ?_⟩
        · exact .cons_cons overtaken climb.chain
        · exact List.getLast?_cons_cons.trans climb.last
      | [_], split =>
        cases split
        obtain ⟨low, rising, climb⟩ := climbs [] second types rfl yields
        obtain rfl : low = second := by simpa using climb.start
        exact ⟨low, rising, by simp, climb.covers, climb.later, climb.chain, climb.last⟩
      | _ :: _ :: before, split =>
        cases split
        exact later (.inr rfl) before type after rfl yields
    | neither => exact .inl (Option.some.inj (same.trans rest.any))

/-- Where steps compose, the last join is above the type that the climb starts from. -/
theorem Climb.reaches (climb : Climb above apart before type after low rising result)
    (composes : (low :: rising).IsChain fun lower upper =>
      above upper lower → above lower type → above upper type) :
    result = type ∨ above result type := by
  obtain ⟨-, covers, -, chain, last⟩ := climb
  induction rising generalizing low with
  | nil =>
    cases last
    exact covers
  | cons upper rising ih =>
    obtain ⟨overtaken, chain⟩ := List.isChain_cons_cons.mp chain
    obtain ⟨step, composes⟩ := List.isChain_cons_cons.mp composes
    refine ih composes (.inr ?_) chain (List.getLast?_cons_cons.symm.trans last)
    rcases covers with rfl | covers
    · exact overtaken.1
    · exact step overtaken.1 covers

theorem Climb.mono {wider looser : TypeRef → TypeRef → Prop}
    (climb : Climb above apart before type after low rising result)
    (widen : ∀ sup sub, above sup sub → wider sup sub)
    (loosen : ∀ sup sub, apart sup sub → looser sup sub) :
    Climb wider looser before type after low rising result where
  start := climb.start
  covers := climb.covers.imp_right (widen _ _)
  later := climb.later
  chain := climb.chain.imp fun _ _ step => step.imp (widen _ _) (loosen _ _)
  last := climb.last

/-- Two types are related to their join at once. -/
theorem Joins.above_of_pair (joins : Joins above apart none types (some result))
    (short : types.length ≤ 2) :
    ∀ type ∈ types, type ≠ .void → result = type ∨ above result type := by
  cases joins with
  | @first first rest _ joins =>
    cases joins with
    | done =>
      intro type member _
      exact .inl (List.mem_singleton.mp member).symm
    | @next _ second joined others _ step joins =>
      obtain rfl : others = [] := by
        simp only [List.length_cons] at short
        exact List.length_eq_zero_iff.mp (by omega)
      cases joins
      intro type member yields
      rcases List.mem_pair.mp member with rfl | rfl
      · cases step with
        | left => exact .inl rfl
        | right covers => exact .inr (covers.resolve_left yields).2.1
        | neither left => exact .inr left
      · cases step with
        | left covers => exact (covers.resolve_left yields).2
        | right => exact .inl rfl
        | neither _ right => exact .inr right

end

/-! What the test of subtyping answers, in programs that have more types. -/

theorem ClassHierarchy.isSupertype_any (hierarchy : ClassHierarchy) (sub : TypeRef) :
    hierarchy.isSupertype .any sub = pure true := by
  unfold ClassHierarchy.isSupertype relationDepth ClassHierarchy.isSupertypeWithin triviallyRelated
  by_cases same : TypeRef.any = sub
  · rw [if_pos same]
    rfl
  · rw [if_neg same]
    rfl

theorem ClassHierarchy.isSupertype_self (hierarchy : ClassHierarchy) (type : TypeRef) :
    hierarchy.isSupertype type type = pure true := by
  unfold ClassHierarchy.isSupertype relationDepth ClassHierarchy.isSupertypeWithin triviallyRelated
  rw [if_pos rfl]
  rfl

namespace Program
variable {before middle after program : Program} {answer : Bool} {sup sub : TypeRef}

/-- Types are entered, and nothing else changes. -/
structure Enters (before after : Program) : Prop where
  pool : before.pool.Growth after.pool
  symbols : after.symbols = before.symbols

theorem Enters.trans (first : before.Enters middle) (second : middle.Enters after) :
    before.Enters after :=
  ⟨first.pool.trans second.pool, second.symbols.trans first.symbols⟩

theorem Enters.refl (valid : program.pool.Valid) : program.Enters program := ⟨valid.growth, rfl⟩

/-- The trees of the two types are in the relation of subtyping. -/
def Relates (program : Program) (depth : Nat) (sup sub : TypeRef) : Prop :=
  (program.symbols.hierarchy.unfold program.pool).Supertype program.pool.boundTrees depth
    (program.pool.tree sup) (program.pool.tree sub)

/-- Two types of the pool that are related or not, as long as types can be numbered. -/
structure Compares (program : Program) (answer : Bool) (sup sub : TypeRef) : Prop where
  supHere : program.pool.Has sup
  subHere : program.pool.Has sub
  told : program.pool.Small → (answer = true ↔ program.Relates relationDepth sup sub)

/-- The first type is above the second one. -/
abbrev Above (program : Program) : TypeRef → TypeRef → Prop := program.Compares true

/-- The first type is not above the second one. -/
abbrev Apart (program : Program) : TypeRef → TypeRef → Prop := program.Compares false

/-- The test decides whether a value of the second type may be used where the first one is
expected. -/
def Decides (program : Program) (answer : Bool) (sup sub : TypeRef) : Prop :=
  ∃ result pool, (program.symbols.hierarchy.isSupertype sup sub).run program.pool =
    .ok (result, pool) ∧ (pool.Small → result = answer)

/-- The program tells that a value of the second type may be used where the first one is
expected. -/
abbrev Admits (program : Program) : TypeRef → TypeRef → Prop := program.Decides true

/-- The program tells that it may not. -/
abbrev Refuses (program : Program) : TypeRef → TypeRef → Prop := program.Decides false

theorem Compares.decides (compared : program.Compares answer sup sub) (sound : program.Sound) :
    program.Decides answer sup sub := by
  have held := sound.symbols.hierarchy sound.pool
  obtain ⟨result, pool, ran, growth, told⟩ :=
    ClassHierarchy.isSupertype_tells sound.pool held compared.supHere compared.subHere sound.pool
  refine ⟨result, pool, ran, fun small => Bool.eq_iff_iff.mpr ?_⟩
  exact (told small).trans (compared.told (growth.small small)).symm

theorem Above.related (above : program.Above sup sub) (small : program.pool.Small) :
    program.Relates relationDepth sup sub :=
  (above.told small).mp rfl

theorem Above.of_related (supHere : program.pool.Has sup) (subHere : program.pool.Has sub)
    (related : program.pool.Small → program.Relates relationDepth sup sub) :
    program.Above sup sub :=
  ⟨supHere, subHere, fun small => iff_of_true rfl (related small)⟩

/-- Every type is admitted where the widest one is expected, or the type itself. -/
theorem admits_of_eq (same : sup = .any ∨ sup = sub) : program.Admits sup sub := by
  have asked : program.symbols.hierarchy.isSupertype sup sub = pure true := by
    rcases same with rfl | rfl
    · exact ClassHierarchy.isSupertype_any _ sub
    · exact ClassHierarchy.isSupertype_self _ sup
  exact ⟨true, program.pool, by rw [asked]; rfl, fun _ => rfl⟩

/-- The widest type is above all types. -/
theorem above_any (valid : program.pool.Valid) (held : program.pool.Has sub) :
    program.Above .any sub :=
  .of_related valid.has_any held fun _ =>
    .inl (.inr (.inl (by simp [valid.tree_any, TypeTree.Lenient])))

/-- The relation is that of the trees, which a larger pool has as well. -/
theorem Enters.compared (enters : before.Enters after) (sound : before.Sound)
    (compared : before.Compares answer sup sub) : after.Compares answer sup sub := by
  refine ⟨enters.pool.has compared.supHere, enters.pool.has compared.subHere, fun small => ?_⟩
  have held := sound.symbols.hierarchy sound.pool
  unfold Relates
  rw [enters.symbols, held.unfold_eq sound.pool enters.pool, enters.pool.boundTrees_eq sound.pool,
    enters.pool.tree_eq sound.pool compared.supHere,
    enters.pool.tree_eq sound.pool compared.subHere]
  exact compared.told (enters.pool.small small)

end Program

namespace StageM.Works
open Workspace

/-- What is known of every end besides. -/
theorem and {α : Type} {total : Prop} {frame : Workspace → Workspace → Prop} {action : StageM α}
    {work : Workspace} {post other : α → Workspace → Prop}
    (works : Works total frame action work post) (also : Ensures action work other) :
    Works total frame action work fun result after => post result after ∧ other result after :=
  fun sound => ((works sound).and also).mono fun _ _ facts =>
    ⟨facts.1.1, facts.1.2.1, facts.1.2.2, facts.2⟩

end StageM.Works

theorem Workspace.Leads.enters {change : CompilationUnit → CompilationUnit → Prop}
    {before after : Workspace} (led : before.Leads change after) (sound : after.Sound) :
    before.toProgram.Enters after.toProgram :=
  ⟨led.growth sound, led.symbols⟩

namespace BodyM
open Workspace StageM

variable {total : Prop} {work : Workspace}

/-- An answer is that of every later program. -/
theorem isSupertype_compares {first second : TypeRef} (firstHere : work.pool.Has first)
    (secondHere : work.pool.Has second) :
    Asks total (StageM.withClasses (·.isSupertype first second)) work fun answer after =>
      after.toProgram.Compares answer first second ∧ (first = .any → answer = true) := by
  refine StageM.Works.ofSound fun sound => StageM.Works.and ?_ ?_
  · have asked :=
      ClassHierarchy.isSupertype_tells sound.valid sound.hierarchy firstHere secondHere
    refine (StageM.Works.withClasses (asked.works total)).mono
      fun answer after led soundAfter told => ?_
    have enters := led.enters soundAfter
    refine ⟨enters.pool.has firstHere, enters.pool.has secondHere, fun small => ?_⟩
    have compared : work.toProgram.Compares answer first second :=
      ⟨firstHere, secondHere, fun _ => told small⟩
    exact (enters.compared sound.program compared).told small
  · rintro answer after ran rfl
    rw [StageM.withClasses] at ran
    simp only [ClassHierarchy.isSupertype_any] at ran
    cases ran
    rfl

/-- The join is that of every later program. -/
theorem join_joined {first second : TypeRef} (firstHere : work.pool.Has first)
    (secondHere : work.pool.Has second) :
    Asks total (join first second) work fun type after => after.pool.Has type ∧
      ∀ program, after.toProgram.Enters program →
        Joined program.Above program.Apart first second type := by
  refine StageM.Works.ofSound fun sound => ?_
  unfold join
  split
  · rename_i equal
    refine StageM.Works.pure ⟨firstHere, fun _ _ => .left ?_⟩
    by_cases yields : second = .void
    · exact .inl yields
    · have same := equal.resolve_right yields
      exact .inr ⟨same ▸ yields, .inl same⟩
  rename_i differ
  have present : second ≠ .void := fun same => differ (.inr same)
  split
  · rename_i same
    exact StageM.Works.pure ⟨secondHere, fun _ _ => .right (.inl same) (same ▸ nofun)⟩
  rename_i yields
  refine StageM.Works.bind (isSupertype_compares firstHere secondHere)
    fun wider between led soundBetween told => ?_
  have growth := led.growth soundBetween
  cases wider with
  | true =>
    refine StageM.Works.pure ⟨growth.has firstHere, fun program enters =>
      .left (.inr ⟨yields, .inr ?_⟩)⟩
    exact enters.compared soundBetween.program told.1
  | false =>
    have narrow : first ≠ .any := fun same => Bool.false_ne_true (told.2 same)
    refine StageM.Works.bind (isSupertype_compares (growth.has secondHere) (growth.has firstHere))
      fun narrower after more soundAfter facts => ?_
    have whole := growth.trans (more.growth soundAfter)
    cases narrower with
    | true =>
      refine StageM.Works.pure ⟨whole.has secondHere, fun program enters =>
        .right (.inr ⟨present, ?_, ?_⟩) narrow⟩
      · exact enters.compared soundAfter.program facts.1
      · exact ((more.enters soundAfter).trans enters).compared soundBetween.program told.1
    | false =>
      refine StageM.Works.pure ⟨soundAfter.valid.has_any, fun program enters => .neither ?_ ?_⟩
      · exact Program.above_any enters.pool.valid (enters.pool.has (whole.has firstHere))
      · exact Program.above_any enters.pool.valid (enters.pool.has (whole.has secondHere))

end BodyM
end ClassLang
