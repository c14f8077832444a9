import ClassLang.Proofs.Pattern.Analysis

/-! The usefulness test as a recursion without a limit. A specialization widens the row and unfolds
the types of its columns, which may go on forever; what ends the test is that it takes a constructor
out of the rows. So a limit that the number of constructors does not pass changes no answer. -/

namespace ClassLang

namespace TypePool

/-- The first bound of `param` leads through covariant wildcards to `other`. -/
def BoundedBy (pool : TypePool) (param other : ParamRef) : Prop :=
  ∃ bound, pool.upperBound param = .ok bound ∧ pool.Under bound other

variable {pool : TypePool} {type : TypeRef} {param : ParamRef}

theorem Under.declared (under : pool.Under type param) (valid : pool.Valid) :
    pool.Declares param := by
  induction under with
  | var found => exact valid.named _ _ _ found
  | wildcard _ _ declared => exact declared

/-- A rank for the parameters is the same as a graph of bounds without cycles, for a pool declares
finitely many. -/
theorem grounded_iff_acyclic (valid : pool.Valid) : pool.Grounded ↔ Acyclic pool.BoundedBy := by
  constructor
  · rintro ⟨rank, ranked⟩
    exact .of_measure rank fun param other ⟨bound, asked, under⟩ =>
      ranked param bound asked other under
  · intro acyclic
    have declared : ∀ param other, pool.BoundedBy param other →
        other ∈ (Finset.range pool.params.size).map ⟨ParamRef.mk, fun _ _ => ParamRef.mk.inj⟩ := by
      rintro param other ⟨bound, _, under⟩
      exact Finset.mem_map.mpr ⟨other.raw, Finset.mem_range.mpr (under.declared valid), rfl⟩
    obtain ⟨rank, _, lowers⟩ := acyclic.exists_rank _ declared
    exact ⟨rank, fun param bound asked other under => lowers param other ⟨bound, asked, under⟩⟩

end TypePool

/-- Two tests give the same answer wherever the rows hold fewer than `limit` constructors. -/
def UsefulTest.AgreeBelow (limit : Nat) (test other : UsefulTest) : Prop :=
  ∀ rows row types, Row.weight rows row < limit → test rows row types = other rows row types

theorem List.findSomeM?_congr {m : Type → Type} [Monad m] {α β : Type}
    {search other : α → m (Option β)} :
    ∀ {elements : List α}, (∀ element ∈ elements, search element = other element) →
      elements.findSomeM? search = elements.findSomeM? other
  | [], _ => rfl
  | first :: rest, same => by
    have later : rest.findSomeM? search = rest.findSomeM? other :=
      findSomeM?_congr fun element member => same element (List.mem_cons_of_mem _ member)
    rw [List.findSomeM?, List.findSomeM?, same first List.mem_cons_self, later]

namespace ClassHierarchy

variable {hierarchy : ClassHierarchy} {pool : TypePool} {test other : UsefulTest} {limit : Nat}

theorem usefulHead_congr (agree : UsefulTest.AgreeBelow limit test other) {rows : List Row}
    {head : Head} {args : List Shape} {rest : Row} (type : TypeRef) (restTypes : List TypeRef)
    (lighter : Row.weight (rows.filterMap (Row.specialize? head args.length))
      (args ++ rest) < limit) :
    hierarchy.usefulHead test rows head args rest type restTypes =
      hierarchy.usefulHead other rows head args rest type restTypes := by
  unfold usefulHead
  simp only [agree _ _ _ lighter]

/-- A step asks only about rows with fewer constructors. -/
theorem usefulStep_congr (agree : UsefulTest.AgreeBelow limit test other) :
    ∀ (row : Row) (rows : List Row) (types : List TypeRef), Row.weight rows row ≤ limit →
      hierarchy.usefulStep test rows row types = hierarchy.usefulStep other rows row types
  | [], _, _, _ => by rw [usefulStep, usefulStep]
  | .node head args :: rest, rows, types, light => by
    rw [usefulStep, usefulStep]
    exact usefulHead_congr agree _ _ ((Row.weight_node rows head args rest).trans_le light)
  | .wild :: rest, rows, types, light => by
    have byDefault := usefulStep_congr agree rest (rows.filterMap Row.default?) types.tail
      ((Row.weight_default rows rest).trans light)
    rw [usefulStep, usefulStep, byDefault]
    refine bind_congr fun domain => ?_
    cases domain with
    | infinite => rfl
    | finite heads =>
      dsimp only
      split
      · rename_i allUsed
        refine List.findSomeM?_congr fun head member => bind_congr fun argTypes => ?_
        have used : head ∈ rows.filterMap Row.leading? :=
          List.contains_iff_mem.mp (List.all_eq_true.mp allUsed head member)
        refine usefulHead_congr agree _ _ ?_
        rw [List.length_replicate]
        exact (Row.weight_wild used argTypes.length rest).trans_le light
      · rfl

/-- Limits that the constructors do not pass give the same answers. -/
theorem usefulWithin_agree : ∀ {few many : Nat}, few ≤ many →
    UsefulTest.AgreeBelow (few + 1) (hierarchy.usefulWithin few) (hierarchy.usefulWithin many)
  | 0, 0, _ => fun _ _ _ _ => rfl
  | 0, many + 1, _ => fun rows row types light => by
    have nothing : UsefulTest.AgreeBelow 0 (fun _ _ _ => throw .cyclic)
        (hierarchy.usefulWithin many) :=
      fun _ _ _ below => absurd below (Nat.not_lt_zero _)
    exact usefulStep_congr nothing row rows types (Nat.le_of_lt_succ light)
  | few + 1, many + 1, fewer => fun rows row types light =>
    usefulStep_congr (usefulWithin_agree (Nat.le_of_succ_le_succ fewer)) row rows types
      (Nat.le_of_lt_succ light)

theorem usefulWithin_eq_useful {rows : List Row} {row : Row} {levels : Nat}
    (enough : Row.weight rows row ≤ levels) (types : List TypeRef) :
    hierarchy.usefulWithin levels rows row types = hierarchy.useful rows row types :=
  (usefulWithin_agree enough rows row types (Nat.lt_succ_self _)).symm

/-- The test calls itself on the rows that remain, with no limit. -/
theorem useful_eq_step (rows : List Row) (row : Row) (types : List TypeRef) :
    hierarchy.useful rows row types = hierarchy.usefulStep hierarchy.useful rows row types := by
  have agree : UsefulTest.AgreeBelow (Row.weight rows row)
      (hierarchy.usefulWithin (Row.weight rows row))
      hierarchy.useful :=
    fun _ _ types lighter => usefulWithin_eq_useful lighter.le types
  calc hierarchy.useful rows row types
      = hierarchy.usefulWithin (Row.weight rows row + 1) rows row types :=
        (usefulWithin_eq_useful (Nat.le_succ _) types).symm
    _ = hierarchy.usefulStep (hierarchy.usefulWithin (Row.weight rows row)) rows row types := rfl
    _ = hierarchy.usefulStep hierarchy.useful rows row types :=
      usefulStep_congr agree row rows types le_rfl

/-- Where no parameter is bounded by itself, the test ends for all rows and columns, whatever the
classes: recursive ones, and sealed ones with no classes permitted. It is the recursion with no
limit, and every limit of at least as many levels as there are constructors in the rows gives the
answer. -/
theorem useful_terminates (valid : pool.Valid) (held : hierarchy.HeldBy pool)
    (acyclic : Acyclic pool.BoundedBy) (rows : List Row) (row : Row) {types : List TypeRef}
    (columns : ∀ type ∈ types, pool.Has type) :
    hierarchy.useful rows row types = hierarchy.usefulStep hierarchy.useful rows row types ∧
      Completes (hierarchy.useful rows row types) pool fun answer after =>
        ∀ levels, Row.weight rows row ≤ levels →
          (hierarchy.usefulWithin levels rows row types).run pool = .ok (answer, after) := by
  have grounded : pool.Grounded := (TypePool.grounded_iff_acyclic valid).mpr acyclic
  obtain ⟨answer, after, ran, -⟩ :=
    (useful_works valid held (fun _ : True => grounded) rows row valid.growth columns
      valid).completes trivial
  refine ⟨useful_eq_step rows row types, answer, after, ran, fun levels enough => ?_⟩
  rw [usefulWithin_eq_useful enough]
  exact ran

/-- A class with a component of that class, and an abstract sealed class that permits none. -/
def nestingClasses : ClassHierarchy where
  superclass _ := none
  interfaces _ := []
  typeParams _ := []
  variants name := if name = "Never" then some [] else none
  isAbstract name := name == "Never"
  components name := if name = "Node" then [⟨7⟩] else []
  classes := []

/-- `T` is bounded by `? extends U` and `U` by `Node`. -/
def nestingPool : TypePool :=
  .ofEntries
    #[.any, .void, .int, .float, .bool, .char, .string, .class_ "Node", .class_ "Never",
      .var ⟨0⟩ .invariant, .var ⟨1⟩ .invariant, .wildcard .covariant ⟨10⟩]
    #[⟨"T", "Box", .invariant, [⟨11⟩]⟩, ⟨"U", "Box", .invariant, [⟨7⟩]⟩]

theorem nestingPool_acyclic : Acyclic nestingPool.BoundedBy := by
  refine .of_measure (fun param => 2 - param.raw) ?_
  rintro ⟨raw⟩ other ⟨bound, asked, under⟩
  match raw with
  | 0 =>
    cases asked
    cases under with
    | var found => cases found
    | wildcard found below =>
      cases found
      cases below with
      | var found =>
        cases found
        decide
      | wildcard found => cases found
  | 1 =>
    cases asked
    cases under with
    | var found => cases found
    | wildcard found => cases found
  | raw + 2 => cases asked

theorem nestingClasses_heldBy : nestingClasses.HeldBy nestingPool := by
  refine ⟨by simp [nestingClasses, supertypes], fun name type member => ?_,
    by simp [nestingClasses], by simp [nestingClasses, supertypes]⟩
  have node : type = ⟨7⟩ := by
    simp only [nestingClasses] at member
    split at member
    · exact List.mem_singleton.mp member
    · cases member
  rw [node]
  decide

/-- Three constructors in the rows are three levels at most: the values left out below `T` are
nested twice. No value is left out of the sealed class. -/
theorem useful_terminates_nesting :
    (∃ answer after, (∀ levels, 3 ≤ levels →
        (nestingClasses.usefulWithin levels
          [[.node (.class_ "Node") [.node (.class_ "Node") [.wild]], .node (.bool true) []]]
          [.wild, .wild] [⟨9⟩, .bool]).run nestingPool = .ok (answer, after)) ∧
      answer = some [.node (.class_ "Node") [.node (.class_ "Node") [.wild]],
        .node (.bool false) []]) ∧
    ∃ answer after, (∀ levels, 0 ≤ levels →
        (nestingClasses.usefulWithin levels [] [.wild] [⟨8⟩]).run nestingPool =
          .ok (answer, after)) ∧
      answer = none := by
  have valid : nestingPool.Valid := by decide
  obtain ⟨-, answer, after, ran, settled⟩ :=
    useful_terminates valid nestingClasses_heldBy nestingPool_acyclic
    [[.node (.class_ "Node") [.node (.class_ "Node") [.wild]], .node (.bool true) []]]
      [.wild, .wild]
    (by decide : ∀ type ∈ [(⟨9⟩ : TypeRef), .bool], nestingPool.Has type)
  obtain ⟨-, none_, later, ranNone, settledNone⟩ := useful_terminates valid nestingClasses_heldBy
    nestingPool_acyclic [] [.wild] (by decide : ∀ type ∈ [(⟨8⟩ : TypeRef)], nestingPool.Has type)
  refine ⟨⟨answer, after, settled, ?_⟩, none_, later, settledNone, ?_⟩
  · cases ran
    rfl
  · cases ranNone
    rfl

end ClassHierarchy
end ClassLang
