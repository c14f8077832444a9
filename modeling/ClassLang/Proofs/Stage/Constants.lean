import ClassLang.Proofs.Source.Meaning
import ClassLang.Proofs.Stage.Evolution

/-! The last stage: constants are folded to the end, the arena that is left is well-formed again,
and all its expressions mean what they meant. Every slot keeps or lowers the rank of what it holds;
a folded value has the lowest. -/

namespace ClassLang

/-- The slots of a node hold what they must, and its arms have patterns. -/
def ExprKind.Fits (holds : ExprRef → Prop) (patterns : Nat) : ExprKind → Prop
  | .ifElse cond thenBranch elseBranch =>
    holds cond ∧ holds thenBranch ∧ (elseBranch = .missing ∨ holds elseBranch)
  | .matchOn scrutinee arms =>
    holds scrutinee ∧ ∀ arm ∈ arms, arm.pattern < patterns ∧ holds arm.body
  | kind => ∀ ref ∈ kind.children, holds ref

theorem ExprKind.Fits.mono {weak strong : ExprRef → Prop} {patterns : Nat} {kind : ExprKind}
    (fits : kind.Fits strong patterns) (weaken : ∀ ref, strong ref → weak ref) :
    kind.Fits weak patterns := by
  cases kind with
  | ifElse cond thenBranch elseBranch =>
    exact ⟨weaken _ fits.1, weaken _ fits.2.1, fits.2.2.imp_right (weaken _)⟩
  | matchOn scrutinee arms =>
    exact ⟨weaken _ fits.1, fun arm member =>
      ⟨(fits.2 arm member).1, weaken _ (fits.2 arm member).2⟩⟩
  | _ => exact fun ref member => weaken ref (fits ref member)

/-- What a node gives depends on what the slots that fit give. -/
theorem ExprKind.Fits.outcome_eq {holds : ExprRef → Prop} {patterns : Nat} {kind : ExprKind}
    (fits : kind.Fits holds patterns) {names : Name → Option Literal}
    {first second : ExprRef → Outcome} (absent : first .missing = second .missing)
    (same : ∀ ref, holds ref → first ref = second ref) :
    kind.outcome names first = kind.outcome names second := by
  cases kind with
  | unary op operand => exact outcome_unary_congr (same _ (fits _ List.mem_cons_self))
  | binary op left right =>
    exact outcome_binary_congr (same _ (fits _ List.mem_cons_self))
      (same _ (fits right (by simp [ExprKind.children])))
  | ifElse cond thenBranch elseBranch =>
    refine outcome_ifElse_congr (same _ fits.1) (same _ fits.2.1) ?_
    rcases fits.2.2 with rfl | held
    · exact absent
    · exact same _ held
  | block items =>
    exact outcome_block_congr
      (List.forall₂_same.mpr fun item member => same item (fits item member))
  | _ => rfl

namespace Arena

/-- The slot holds an expression of the arena whose rank is below a bound. -/
def Below (arena : Arena) (rank : Nat → Nat) (bound : Nat) (ref : ExprRef) : Prop :=
  ∃ index < arena.size, ref = .node index ∧ rank index < bound

/-- Every slot lowers the rank, and positions that are not taken have the lowest. -/
structure Ranked (arena : Arena) (rank : Nat → Nat) : Prop where
  fits : ∀ (index : Nat) (expr : Expr), arena.exprs[index]? = some expr →
    expr.kind.Fits (arena.Below rank (rank index)) arena.patterns.size
  fresh : ∀ index, arena.size ≤ index → rank index = 0

/-- Expressions may have been added; those there were give what they gave, and the patterns are the
same. -/
structure Continues (rank : Nat → Nat) (before after : Arena) : Prop where
  size : before.size ≤ after.size
  patterns : after.patterns = before.patterns
  means : ∀ names depth, ∀ index < before.size, rank index < depth →
    after.valueWithin names depth (.node index) = before.valueWithin names depth (.node index)

/-- The slot `result` holds an expression below a bound that gives what `ref` gave. -/
structure Renews (rank : Nat → Nat) (bound : Nat) (before : Arena) (ref : ExprRef) (after : Arena)
    (result : ExprRef) : Prop where
  below : after.Below rank bound result
  means : ∀ names depth, bound ≤ depth →
    after.valueWithin names depth result = before.valueWithin names depth ref

variable {arena before middle after : Arena} {rank : Nat → Nat} {index bound : Nat}
  {ref result : ExprRef}

theorem Continues.refl (arena : Arena) : arena.Continues rank arena :=
  ⟨Nat.le_refl _, rfl, fun _ _ _ _ _ => rfl⟩

theorem Continues.trans {first second third : Arena} (earlier : first.Continues rank second)
    (later : second.Continues rank third) : first.Continues rank third :=
  ⟨Nat.le_trans earlier.size later.size, later.patterns.trans earlier.patterns,
    fun names depth index inside deep =>
      (later.means names depth index (Nat.lt_of_lt_of_le inside earlier.size) deep).trans
        (earlier.means names depth index inside deep)⟩

theorem Below.grow (below : before.Below rank bound ref) (continues : before.Continues rank after) :
    after.Below rank bound ref := by
  obtain ⟨index, inside, same, lower⟩ := below
  exact ⟨index, Nat.lt_of_lt_of_le inside continues.size, same, lower⟩

theorem Below.mono {weak : Nat} (below : arena.Below rank bound ref) (weaken : bound ≤ weak) :
    arena.Below rank weak ref :=
  below.imp fun _ facts => ⟨facts.1, facts.2.1, Nat.lt_of_lt_of_le facts.2.2 weaken⟩

/-- What a slot holds gives the same later on. -/
theorem Below.means (below : before.Below rank bound ref) (continues : before.Continues rank after)
    (names : Name → Option Literal) {depth : Nat} (deep : bound ≤ depth) :
    after.valueWithin names depth ref = before.valueWithin names depth ref := by
  obtain ⟨index, inside, rfl, lower⟩ := below
  exact continues.means names depth index inside (Nat.lt_of_lt_of_le lower deep)

namespace Renews

theorem itself (below : arena.Below rank bound ref) : Renews rank bound arena ref arena ref :=
  ⟨below, fun _ _ _ => rfl⟩

theorem mono {weak : Nat} (renews : Renews rank bound before ref after result)
    (weaken : bound ≤ weak) : Renews rank weak before ref after result :=
  ⟨renews.below.mono weaken, fun names depth deep =>
    renews.means names depth (Nat.le_trans weaken deep)⟩

theorem grow (renews : Renews rank bound before ref middle result)
    (continues : middle.Continues rank after) : Renews rank bound before ref after result :=
  ⟨renews.below.grow continues, fun names depth deep =>
    (renews.below.means continues names deep).trans (renews.means names depth deep)⟩

theorem since (renews : Renews rank bound middle ref after result)
    (below : before.Below rank bound ref) (continues : before.Continues rank middle) :
    Renews rank bound before ref after result :=
  ⟨renews.below, fun names depth deep =>
    (renews.means names depth deep).trans (below.means continues names deep)⟩

end Renews

/-- A rank that every slot lowers, lowest where nothing is. -/
theorem WellFormed.exists_rank (wellFormed : arena.WellFormed) : ∃ rank : Nat → Nat,
    (∀ index < arena.size, rank index < arena.size) ∧
    (∀ index, arena.size ≤ index → rank index = 0) ∧
      ∀ parent child, arena.HasChild parent child → rank child < rank parent := by
  obtain ⟨rank, bounded, lowers⟩ := wellFormed.acyclic.exists_rank_below wellFormed.children
  refine ⟨fun index => if index < arena.size then rank index else 0, fun index inside => ?_,
    fun index outside => if_neg (Nat.not_lt.mpr outside), fun parent child step => ?_⟩
  · simp only [if_pos inside, bounded index inside]
  · have inside : parent < arena.size := by
      obtain ⟨expr, found, _⟩ := step
      exact (Array.getElem?_eq_some_iff.mp found).1
    simp only [if_pos inside, if_pos (wellFormed.children parent child step)]
    exact lowers parent child step

theorem WellFormed.exists_ranked (wellFormed : arena.WellFormed) :
    ∃ rank, (∀ index < arena.size, rank index < arena.size) ∧ arena.Ranked rank := by
  obtain ⟨rank, bounded, fresh, lowers⟩ := wellFormed.exists_rank
  refine ⟨rank, bounded, fun index expr found => ?_, fresh⟩
  have holds : ∀ child, .node child ∈ expr.kind.children →
      arena.Below rank (rank index) (.node child) := fun child member =>
    have step : arena.HasChild index child := ⟨expr, found, member⟩
    ⟨child, wellFormed.children _ _ step, rfl, lowers _ _ step⟩
  have slot : ∀ ref ∈ expr.kind.required, (ref.isPresent → ref ∈ expr.kind.children) →
      arena.Below rank (rank index) ref := by
    intro ref required member
    obtain ⟨child, _, rfl⟩ := wellFormed.slot found required
    exact holds child (member rfl)
  obtain ⟨kind, span⟩ := expr
  cases kind with
  | ifElse cond thenBranch elseBranch =>
    refine ⟨slot cond (by simp [ExprKind.required]) fun isPresent => ?_,
      slot thenBranch (by simp [ExprKind.required]) fun isPresent => ?_, ?_⟩
    · exact List.mem_filter.mpr ⟨by simp, isPresent⟩
    · exact List.mem_filter.mpr ⟨by simp, isPresent⟩
    · cases elseBranch with
      | missing => exact .inl rfl
      | node third => exact .inr (holds third (List.mem_filter.mpr ⟨by simp, rfl⟩))
  | matchOn scrutinee arms =>
    refine ⟨slot _ List.mem_cons_self fun _ => List.mem_cons_self, fun arm member => ⟨?_, ?_⟩⟩
    · exact wellFormed.armPatterns index scrutinee arms span found arm member
    · have listed : arm.body ∈ scrutinee :: arms.map (·.body) :=
        List.mem_cons_of_mem _ (List.mem_map_of_mem member)
      exact slot _ listed fun _ => listed
  | _ => exact fun ref member => slot ref member fun _ => member

/-- A change of the arena that lets every node give what it gave, as far as its slots do. -/
theorem means_of_outcome
    (each : ∀ (index : Nat) (expr : Expr), arena.exprs[index]? = some expr →
      ∃ changed, after.exprs[index]? = some changed ∧
        changed.kind.Fits (arena.Below rank (rank index)) arena.patterns.size ∧
        ∀ names depth, rank index ≤ depth →
        changed.kind.outcome names (arena.valueWithin names depth) =
          expr.kind.outcome names (arena.valueWithin names depth)) (names : Name → Option Literal) :
    ∀ depth, ∀ index < arena.size, rank index < depth →
      after.valueWithin names depth (.node index) = arena.valueWithin names depth
        (.node index) := by
  intro depth
  induction depth with
  | zero => exact fun _ _ deep => absurd deep (Nat.not_lt_zero _)
  | succ depth ih =>
    intro index inside deep
    have found := Array.getElem?_eq_getElem inside
    obtain ⟨changed, there, fits, outcome⟩ := each index _ found
    simp only [valueWithin, there, found]
    rw [← outcome names depth (Nat.le_of_lt_succ deep)]
    refine fits.outcome_eq (by unfold valueWithin; rfl) ?_
    rintro _ ⟨child, present, rfl, lower⟩
    exact ih child present (by omega)

namespace Ranked
variable (ranked : arena.Ranked rank)
include ranked

/-- The depth does not count as long as it exceeds the rank. -/
theorem valueWithin_eq (names : Name → Option Literal) :
    ∀ (depth other index : Nat), rank index < depth → rank index < other →
      arena.valueWithin names depth (.node index) = arena.valueWithin names other (.node index)
  | depth + 1, other + 1, index, deep, deepOther => by
    unfold valueWithin
    split
    · rename_i expr found
      refine (ranked.fits index expr found).outcome_eq (by unfold valueWithin; rfl) ?_
      rintro _ ⟨child, _, rfl, lower⟩
      exact valueWithin_eq names depth other child (by omega) (by omega)
    · rfl

/-- What a slot holds has a lower rank. -/
theorem child_below {child : Nat} (step : arena.HasChild index child) :
    child < arena.size ∧ rank child < rank index := by
  obtain ⟨⟨kind, span⟩, found, member⟩ := step
  have fits := ranked.fits index _ found
  have below : arena.Below rank (rank index) (.node child) := by
    cases kind with
    | ifElse cond thenBranch elseBranch =>
      have listed := (List.mem_filter.mp member).1
      simp only [List.mem_cons, List.not_mem_nil, or_false] at listed
      rcases listed with rfl | rfl | rfl
      · exact fits.1
      · exact fits.2.1
      · exact fits.2.2.resolve_left (by simp)
    | matchOn scrutinee arms =>
      rcases List.mem_cons.mp member with same | body
      · exact same ▸ fits.1
      · obtain ⟨arm, listed, same⟩ := List.mem_map.mp body
        exact same ▸ (fits.2 arm listed).2
    | _ => exact fits _ member
  obtain ⟨_, inside, same, lower⟩ := below
  cases same
  exact ⟨inside, lower⟩

/-- An arena with the patterns of a well-formed one is well-formed if slots lower a rank. -/
theorem wellFormed (old : before.WellFormed) (patterns : arena.patterns = before.patterns) :
    arena.WellFormed where
  present index expr found ref member := by
    have fits := ranked.fits index expr found
    have held : ∀ ref, arena.Below rank (rank index) ref → ref ≠ .missing := by
      rintro _ ⟨_, _, rfl, _⟩
      simp
    obtain ⟨kind, span⟩ := expr
    cases kind with
    | ifElse cond thenBranch elseBranch =>
      simp only [ExprKind.required, List.mem_cons, List.not_mem_nil, or_false] at member
      rcases member with rfl | rfl
      · exact held _ fits.1
      · exact held _ fits.2.1
    | matchOn scrutinee arms =>
      rcases List.mem_cons.mp member with same | body
      · exact same ▸ held _ fits.1
      · obtain ⟨arm, listed, same⟩ := List.mem_map.mp body
        exact same ▸ held _ (fits.2 arm listed).2
    | _ => exact held _ (fits _ member)
  children _ _ step := (ranked.child_below step).1
  acyclic := .of_measure rank fun _ _ step => (ranked.child_below step).2
  armPatterns index _ _ _ found arm member := ((ranked.fits index _ found).2 arm member).1
  parts index part step := by
    rw [patterns]
    refine old.parts index part ?_
    obtain ⟨pattern, found, member⟩ := step
    exact ⟨pattern, patterns ▸ found, member⟩
  acyclicParts := by
    have same : arena.HasPart = before.HasPart := by
      funext index part
      simp only [HasPart, patterns]
    rw [same]
    exact old.acyclicParts

/-- A literal is added. -/
theorem alloc (value : Literal) (span : Span) :
    arena.Continues rank (arena.alloc (.literal value) span).2 ∧
      (arena.alloc (.literal value) span).2.Ranked rank := by
  have continues : arena.Continues rank (arena.alloc (.literal value) span).2 := by
    refine ⟨by simp [Arena.alloc, Arena.size], rfl, fun names => means_of_outcome ?_ names⟩
    intro index expr found
    have inside := (Array.getElem?_eq_some_iff.mp found).1
    refine ⟨expr, ?_, ranked.fits index expr found, fun _ _ _ => rfl⟩
    rw [Arena.alloc, Array.getElem?_push, if_neg (Nat.ne_of_lt inside), found]
  refine ⟨continues, fun index expr found => ?_, fun index outside => ranked.fresh index (by
    have := continues.size
    omega)⟩
  simp only [Arena.alloc, Array.getElem?_push] at found
  split at found
  · cases found
    intro ref member
    cases member
  · exact (ranked.fits index expr found).mono fun _ below => below.grow continues

/-- The kind of a node is replaced by one that gives the same. -/
theorem setKind {expr : Expr} {kind : ExprKind} (found : arena.exprs[index]? = some expr)
    (fits : kind.Fits (arena.Below rank (rank index)) arena.patterns.size)
    (outcome : ∀ names depth, rank index ≤ depth →
      kind.outcome names (arena.valueWithin names depth) = expr.kind.outcome names
        (arena.valueWithin names depth)) :
    ∃ after, arena.setKind (.node index) kind = .ok after ∧ arena.Continues rank after ∧
      after.Ranked rank ∧ after.exprs[index]? = some { expr with kind } := by
  have sizes :
      Arena.size { arena with exprs := arena.exprs.setIfInBounds index { expr with kind } } =
      arena.size := by simp [Arena.size]
  have inside := (Array.getElem?_eq_some_iff.mp found).1
  have continues : arena.Continues rank
      { arena with exprs := arena.exprs.setIfInBounds index { expr with kind } } := by
    refine ⟨Nat.le_of_eq sizes.symm, rfl, fun names => means_of_outcome ?_ names⟩
    intro other node read
    by_cases same : index = other
    · subst same
      cases found.symm.trans read
      exact ⟨{ expr with kind }, by simp [inside], fits, outcome⟩
    · exact ⟨node, by simp [same, read], ranked.fits other node read, fun _ _ _ => rfl⟩
  refine ⟨_, by simp [Arena.setKind, found], continues, ⟨fun other node read => ?_,
    fun other outside => ranked.fresh other (Nat.le_trans (Nat.le_of_eq sizes.symm) outside)⟩,
    by simp [inside]⟩
  rw [Array.getElem?_setIfInBounds] at read
  split at read
  · rename_i same
    subst same
    cases read
    exact fits.mono fun _ below => below.grow continues
  · exact (ranked.fits other node read).mono fun _ below => below.grow continues

end Ranked

/-- The value of a node in terms of those of its slots, without a depth. -/
theorem WellFormed.value_eq (wellFormed : arena.WellFormed) {expr : Expr}
    (found : arena.exprs[index]? = some expr) (names : Name → Option Literal) :
    arena.value names (.node index) = expr.kind.outcome names (arena.value names) := by
  obtain ⟨rank, bounded, ranked⟩ := wellFormed.exists_ranked
  have low := bounded index (Array.getElem?_eq_some_iff.mp found).1
  conv_lhs => simp only [value, valueWithin, found]
  refine (ranked.fits index expr found).outcome_eq (by unfold value valueWithin; rfl) ?_
  rintro _ ⟨child, _, rfl, lower⟩
  exact ranked.valueWithin_eq names _ _ child (by omega) (by omega)

end Arena

/-- From an arena whose slots lower the rank the action ends, the arena it leaves is such an arena
again, and `post` holds. -/
def FoldM.Works (rank : Nat → Nat) (action : FoldM α) (state : FoldState)
    (post : α → Arena → Prop) : Prop :=
  state.arena.Ranked rank → Completes action state fun result after =>
    state.arena.Continues rank after.arena ∧ after.arena.Ranked rank ∧ post result after.arena

namespace FoldM
open Arena

variable {rank : Nat → Nat} {state : FoldState} {bound index : Nat} {kind : ExprKind}

theorem Works.pure {result : α} {post : α → Arena → Prop} (holds : post result state.arena) :
    Works rank (Pure.pure result) state post :=
  fun ranked => Completes.pure ⟨.refl _, ranked, holds⟩

theorem Works.bind {action : FoldM α} {next : α → FoldM β} {middle : α → Arena → Prop}
    {post : β → Arena → Prop} (first : Works rank action state middle)
    (rest : ∀ result between, state.arena.Continues rank between.arena →
      middle result between.arena → Works rank (next result) between post) :
        Works rank (action >>= next) state post := by
  intro ranked
  refine Completes.bind ((first ranked).mono ?_)
  rintro result between ⟨continues, rankedBetween, promised⟩
  refine (rest result between continues promised rankedBetween).mono ?_
  rintro value after ⟨more, rankedAfter, holds⟩
  exact ⟨continues.trans more, rankedAfter, holds⟩

theorem Works.get {next : FoldState → FoldM β} {post : β → Arena → Prop}
    (rest : Works rank (next state) state post) : Works rank (MonadState.get >>= next) state post :=
  fun ranked => Completes.bind (Completes.get (rest ranked))

theorem Works.lift {answer : Except Abort α} {value : α} {next : α → FoldM β}
    {post : β → Arena → Prop} (ran : answer = .ok value)
    (rest : Works rank (next value) state post) : Works rank (liftM answer >>= next) state post :=
  fun ranked => Completes.bind (Completes.lift ran (rest ranked))

theorem Works.mono {action : FoldM α} {weak strong : α → Arena → Prop}
    (works : Works rank action state strong)
    (weaken : ∀ result after, strong result after → weak result after) :
    Works rank action state weak :=
  fun ranked => (works ranked).mono fun _ _ holds => ⟨holds.1, holds.2.1, weaken _ _ holds.2.2⟩

/-- The rank may be used. -/
theorem Works.ofRanked {action : FoldM β} {post : β → Arena → Prop}
    (works : state.arena.Ranked rank → Works rank action state post) :
    Works rank action state post :=
  fun ranked => works ranked ranked

theorem Works.mapM {action : α → FoldM β} {elements : List α} {holds : α → β → Arena → Prop}
    (stable : ∀ element result before after, Continues rank before after →
      holds element result before → holds element result after)
    (each : ∀ element ∈ elements, ∀ between : FoldState, state.arena.Continues rank between.arena →
      Works rank (action element) between (holds element)) :
    Works rank (elements.mapM action) state fun results after =>
      List.Forall₂ (fun element result => holds element result after) elements results := by
  induction elements generalizing state with
  | nil => exact pure .nil
  | cons first rest ih =>
    rw [List.mapM_cons]
    refine bind (each first List.mem_cons_self state (.refl _))
      fun result between continues promised => ?_
    refine bind (ih fun element member after more => each element (List.mem_cons_of_mem _ member)
      after (continues.trans more)) fun results after more later => ?_
    exact pure (.cons (stable _ _ _ _ more promised) later)

/-- The node `folded` fits below a bound and gives what `kind` gave. -/
structure Restores (rank : Nat → Nat) (bound patterns : Nat) (before : Arena) (kind : ExprKind)
    (after : Arena) (folded : ExprKind) : Prop where
  fits : folded.Fits (after.Below rank bound) patterns
  outcome : ∀ names depth, bound ≤ depth → folded.outcome names (after.valueWithin names depth) =
    kind.outcome names (before.valueWithin names depth)

theorem mem_of_forall₂ {α β : Type} {relation : α → β → Prop} {holds : β → Prop} {elements : List α}
    {results : List β} (related : List.Forall₂ relation elements results)
    (each : ∀ element result, relation element result → holds result) :
    ∀ result ∈ results, holds result := by
  intro result member
  obtain ⟨element, _, promised⟩ := exists_mem_of_forall₂ related.flip member
  exact each element result promised

/-- The action replaces every expression below the bound by what gives the same. -/
structure Renewing (rank : Nat → Nat) (bound : Nat) (replace : ExprRef → FoldM ExprRef) : Prop where
  nothing : replace .missing = Pure.pure .missing
  each : ∀ ref (between : FoldState), between.arena.Below rank bound ref →
    Works rank (replace ref) between fun result after =>
      Renews rank bound between.arena ref after result

namespace Renewing
variable {replace : ExprRef → FoldM ExprRef} {between : FoldState} {patterns : Nat}

/-- The children of a node of this kind are replaced so that it gives the same. -/
abbrev Maps (rank : Nat → Nat) (bound patterns : Nat) (replace : ExprRef → FoldM ExprRef)
    (kind : ExprKind) (state : FoldState) : Prop :=
  Works rank (kind.mapChildrenM replace) state fun folded after =>
    Restores rank bound patterns state.arena kind after folded

variable (renewing : Renewing rank bound replace)
include renewing

theorem child {ref : ExprRef} (inside : state.arena.Below rank bound ref)
    (continues : state.arena.Continues rank between.arena) :
    Works rank (replace ref) between fun result after =>
      Renews rank bound state.arena ref after result :=
  (renewing.each ref between (inside.grow continues)).mono fun _ _ renews =>
    renews.since inside continues

theorem list {refs : List ExprRef} (inside : ∀ ref ∈ refs, state.arena.Below rank bound ref)
    (continues : state.arena.Continues rank between.arena) :
    Works rank (refs.mapM replace) between fun results after =>
      List.Forall₂ (fun ref result => Renews rank bound state.arena ref after result)
        refs results :=
  Works.mapM (fun _ _ _ _ more renews => renews.grow more)
    fun ref member _ more => renewing.child (inside ref member) (continues.trans more)

theorem call {receiver : Option ExprRef} {method : Name} {args : List ExprRef}
    (fits : (ExprKind.call receiver method args).Fits (state.arena.Below rank bound) patterns) :
    Maps rank bound patterns replace (.call receiver method args) state := by
  have argsInside : ∀ arg ∈ args, state.arena.Below rank bound arg :=
    fun arg member => fits arg (List.mem_append_right _ member)
  have own : Works rank (receiver.mapM replace) state fun result after =>
      ∀ folded ∈ result, after.Below rank bound folded := by
    cases receiver with
    | none => exact Works.pure (by simp)
    | some receiver =>
      simp only [Option.mapM_some, map_eq_pure_bind]
      refine Works.bind (renewing.child (fits _ (by simp [ExprKind.children])) (.refl _))
        fun folded _ _ renews => Works.pure (by simpa using renews.below)
  refine Works.bind own fun receiver between continues held => ?_
  refine Works.bind (renewing.list argsInside continues) fun folded after more renewed => ?_
  refine Works.pure ⟨fun ref member => ?_, fun _ _ _ => rfl⟩
  rcases List.mem_append.mp member with first | later
  · exact (held ref (Option.mem_toList.mp first)).grow more
  · exact mem_of_forall₂ renewed (fun _ _ renews => renews.below) ref later

theorem binary {op : BinaryOp} {left right : ExprRef}
    (fits : (ExprKind.binary op left right).Fits (state.arena.Below rank bound) patterns) :
    Maps rank bound patterns replace (.binary op left right) state := by
  have leftInside := fits left (by simp [ExprKind.children])
  have rightInside := fits right (by simp [ExprKind.children])
  refine Works.bind (renewing.child leftInside (.refl _))
    fun first between continues renewsLeft => ?_
  refine Works.bind (renewing.child rightInside continues) fun second after more renewsRight => ?_
  have renewsLeft := renewsLeft.grow more
  refine Works.pure ⟨fun ref member => ?_, fun names depth deep => ?_⟩
  · rcases List.mem_cons.mp member with rfl | later
    · exact renewsLeft.below
    · rw [List.mem_singleton.mp later]
      exact renewsRight.below
  · exact ExprKind.outcome_binary_congr (renewsLeft.means names depth deep)
      (renewsRight.means names depth deep)

/-- A branch that is not written stays so. -/
theorem ifElse {cond thenBranch elseBranch : ExprRef}
    (fits : (ExprKind.ifElse cond thenBranch elseBranch).Fits
      (state.arena.Below rank bound) patterns) :
    Maps rank bound patterns replace (.ifElse cond thenBranch elseBranch) state := by
  obtain ⟨condInside, thenInside, elseInside⟩ := fits
  refine Works.bind (renewing.child condInside (.refl _))
    fun first middle continues renewsCond => ?_
  refine Works.bind (renewing.child thenInside continues) fun second later more renewsThen => ?_
  have otherwise : Works rank (replace elseBranch) later fun result after =>
      elseBranch = .missing ∧ result = .missing ∨
        Renews rank bound state.arena elseBranch after result := by
    rcases elseInside with rfl | inside
    · rw [renewing.nothing]
      exact Works.pure (.inl ⟨rfl, rfl⟩)
    · exact (renewing.child inside (continues.trans more)).mono fun _ _ => .inr
  refine Works.bind otherwise fun third after last either => Works.pure ?_
  have renewsCond := renewsCond.grow (more.trans last)
  have renewsThen := renewsThen.grow last
  refine ⟨⟨renewsCond.below, renewsThen.below, either.imp (·.2) (·.below)⟩,
    fun names depth deep => ?_⟩
  refine ExprKind.outcome_ifElse_congr (renewsCond.means names depth deep)
    (renewsThen.means names depth deep) ?_
  rcases either with ⟨rfl, rfl⟩ | renews
  · unfold valueWithin
    rfl
  · exact renews.means names depth deep

theorem matchOn {scrutinee : ExprRef} {arms : List MatchArm}
    (fits : (ExprKind.matchOn scrutinee arms).Fits (state.arena.Below rank bound) patterns) :
    Maps rank bound patterns replace (.matchOn scrutinee arms) state := by
  obtain ⟨scrutineeInside, armsInside⟩ := fits
  refine Works.bind (renewing.child scrutineeInside (.refl _))
    fun first between continues renews => ?_
  have bodies : Works rank (arms.mapM fun arm => do
      let body ← replace arm.body
      return { arm with body }) between fun folded after =>
        List.Forall₂ (fun _ arm => arm.pattern < patterns ∧ after.Below rank bound arm.body) arms
          folded := by
    refine Works.mapM (fun _ _ _ _ more facts => ⟨facts.1, facts.2.grow more⟩)
      fun arm member later more => ?_
    obtain ⟨pattern, body⟩ := armsInside arm member
    refine Works.bind (renewing.child body (continues.trans more)) fun folded _ _ renews => ?_
    exact Works.pure ⟨pattern, renews.below⟩
  refine Works.bind bodies fun folded after more forall₂ => Works.pure ⟨?_, fun _ _ _ => rfl⟩
  exact ⟨renews.below.grow more, mem_of_forall₂ forall₂ fun _ _ holds => holds⟩

/-- The children of a node are replaced by what gives the same. -/
theorem maps (fits : kind.Fits (state.arena.Below rank bound) patterns) :
    Maps rank bound patterns replace kind state := by
  cases kind with
  | literal | ident | this | error =>
    exact Works.pure ⟨fun _ member => (by cases member), fun _ _ _ => rfl⟩
  | field | letIn =>
    refine Works.bind (renewing.child (fits _ List.mem_cons_self) (.refl _))
      fun folded _ _ renews => ?_
    exact Works.pure ⟨by simpa [ExprKind.Fits, ExprKind.children] using renews.below,
      fun _ _ _ => rfl⟩
  | unary op operand =>
    refine Works.bind (renewing.child (fits _ List.mem_cons_self) (.refl _))
      fun folded _ _ renews => ?_
    exact Works.pure ⟨by simpa [ExprKind.Fits, ExprKind.children] using renews.below,
      fun names depth deep => ExprKind.outcome_unary_congr (renews.means names depth deep)⟩
  | new type args =>
    refine Works.bind (renewing.list fits (.refl _)) fun folded _ _ renewed => ?_
    exact Works.pure ⟨mem_of_forall₂ renewed fun _ _ renews => renews.below, fun _ _ _ => rfl⟩
  | block items =>
    refine Works.bind (renewing.list fits (.refl _)) fun folded _ _ renewed => ?_
    refine Works.pure ⟨mem_of_forall₂ renewed fun _ _ renews => renews.below,
      fun names depth deep => ?_⟩
    exact ExprKind.outcome_block_congr
      (renewed.flip.imp fun _ _ renews => renews.means names depth deep)
  | call => exact renewing.call fits
  | binary => exact renewing.binary fits
  | ifElse => exact renewing.ifElse fits
  | matchOn => exact renewing.matchOn fits

end Renewing

/-- A new literal is the last node, and has the type of the one that it replaces. -/
theorem replaceBy_run {state after : FoldState} {result : ExprRef} {value : Literal}
    (ran : (replaceBy index value).run state = .ok (result, after)) :
    ∃ span, state.arena.alloc (.literal value) span = (result, after.arena) ∧
      after.types = match state.types.get? index with
        | some type => state.types.insert state.arena.size type
        | none => state.types := by
  unfold replaceBy at ran
  rw [StateT.run_bind, StateT.run_get, pure_bind, StateT.run_bind] at ran
  cases answered : state.arena.span (.node index) with
  | error fault =>
    rw [answered] at ran
    cases ran
  | ok span =>
    rw [answered] at ran
    cases ran
    exact ⟨span, rfl, rfl⟩

theorem replaceBy_works (inside : index < state.arena.size) (value : Literal) :
    Works rank (replaceBy index value) state fun result after => after.Below rank 1 result ∧
      ∀ names depth, 0 < depth → after.valueWithin names depth result = .ok (.literal value) := by
  intro ranked
  obtain ⟨expr, found⟩ : ∃ expr, state.arena.exprs[index]? = some expr :=
    ⟨_, Array.getElem?_eq_getElem inside⟩
  have spanned : state.arena.span (.node index) = .ok expr.span := by
    simp [Arena.span, expr_eq found, Except.map]
  obtain ⟨continues, rankedAfter⟩ := ranked.alloc value expr.span
  refine Completes.bind (Completes.get (Completes.bind (Completes.lift spanned ?_)))
  refine ⟨_, _, rfl, continues, rankedAfter, ⟨state.arena.size, by simp [Arena.size], rfl, ?_⟩, ?_⟩
  · rw [ranked.fresh _ (Nat.le_refl _)]
    exact Nat.one_pos
  · rintro names (_ | depth) deep
    · exact absurd deep (Nat.lt_irrefl 0)
    · simp [Arena.size, valueWithin, ExprKind.outcome]

theorem literal?_eq {arena : Arena} {ref : ExprRef} (below : arena.Below rank bound ref) :
    ∃ answer, arena.literal? ref = .ok answer ∧ ∀ value, answer = some value →
      ∀ names depth, 0 < depth → arena.valueWithin names depth ref = .ok (.literal value) := by
  obtain ⟨index, inside, rfl, _⟩ := below
  obtain ⟨⟨kind, span⟩, found⟩ : ∃ expr, arena.exprs[index]? = some expr :=
    ⟨_, Array.getElem?_eq_getElem inside⟩
  have read : arena.kind (.node index) = .ok kind := by simp [Arena.kind, expr_eq found, Except.map]
  cases kind with
  | literal value =>
    refine ⟨some value, by simp [Arena.literal?, read], ?_⟩
    rintro _ ⟨⟩ names (_ | depth) deep
    · exact absurd deep (Nat.lt_irrefl 0)
    · simp [valueWithin, found, ExprKind.outcome]
  | _ => exact ⟨none, by simp [Arena.literal?, read], by simp⟩

/-- The node gives what one of this kind gives of its children, which fit below it. -/
structure Expresses (rank : Nat → Nat) (index patterns : Nat) (kind : ExprKind)
    (state : FoldState) : Prop where
  inside : index < state.arena.size
  fits : kind.Fits (state.arena.Below rank (rank index)) patterns
  gives : ∀ names depth, rank index ≤ depth →
    state.arena.valueWithin names (depth + 1) (.node index) = kind.outcome names
      (state.arena.valueWithin names depth)

namespace Expresses
variable {patterns : Nat}

/-- What the action answers has no higher rank than the node and gives the same. -/
abbrev Simplifies (rank : Nat → Nat) (index : Nat) (action : FoldM ExprRef)
    (state : FoldState) : Prop :=
  Works rank action state fun result after =>
    Renews rank (rank index + 1) state.arena (.node index) after result

theorem kept (expresses : Expresses rank index patterns kind state) :
    Simplifies rank index (Pure.pure (.node index)) state :=
  Works.pure (.itself ⟨index, expresses.inside, rfl, Nat.lt_succ_self _⟩)

theorem replaced (expresses : Expresses rank index patterns kind state) {value : Literal}
    (ran : ∀ names depth, rank index ≤ depth →
      kind.outcome names (state.arena.valueWithin names depth) = .ok (.literal value)) :
    Simplifies rank index (replaceBy index value) state := by
  refine (replaceBy_works expresses.inside value).mono fun _ after ⟨below, literal⟩ =>
    ⟨below.mono (by omega), ?_⟩
  rintro names (_ | depth) deep
  · exact absurd deep (Nat.not_succ_le_zero _)
  · have deep := Nat.le_of_succ_le_succ deep
    rw [literal names (depth + 1) (Nat.succ_pos _), expresses.gives names depth deep,
      ran names depth deep]

/-- A branch is taken with its own depth, which exceeds its rank as well. -/
theorem taken (expresses : Expresses rank index patterns kind state) {ref : ExprRef}
    (below : state.arena.Below rank (rank index) ref)
    (same : ∀ names depth, rank index ≤ depth →
      kind.outcome names (state.arena.valueWithin names depth) = state.arena.valueWithin names depth
        ref) : Simplifies rank index (Pure.pure ref) state := by
  refine Works.ofRanked fun ranked => Works.pure ⟨below.mono (Nat.le_succ _), ?_⟩
  rintro names (_ | depth) deep
  · exact absurd deep (Nat.not_succ_le_zero _)
  · have deep := Nat.le_of_succ_le_succ deep
    rw [expresses.gives names depth deep, same names depth deep]
    obtain ⟨child, _, rfl, lower⟩ := below
    exact ranked.valueWithin_eq names _ _ child (by omega) (by omega)

theorem ifElse {cond thenBranch elseBranch : ExprRef}
    (expresses : Expresses rank index patterns (.ifElse cond thenBranch elseBranch) state) :
    Simplifies rank index (simplify index (.ifElse cond thenBranch elseBranch)) state := by
  obtain ⟨condInside, thenInside, elseInside⟩ := expresses.fits
  obtain ⟨answer, read, literal⟩ := literal?_eq condInside
  obtain ⟨_, _, _, positive⟩ := condInside
  refine Works.get (Works.lift read ?_)
  split
  · refine expresses.taken thenInside fun names depth deep => ?_
    simp only [ExprKind.outcome, literal _ rfl names depth (by omega)]
    rfl
  · rcases elseInside with rfl | inside
    · exact expresses.kept
    · split
      · refine expresses.taken inside fun names depth deep => ?_
        simp only [ExprKind.outcome, literal _ rfl names depth (by omega)]
        rfl
      · exact expresses.kept
  · exact expresses.kept

theorem binary {op : BinaryOp} {left right : ExprRef}
    (expresses : Expresses rank index patterns (.binary op left right) state) :
    Simplifies rank index (simplify index (.binary op left right)) state := by
  have leftInside := expresses.fits left (by simp [ExprKind.children])
  have rightInside := expresses.fits right (by simp [ExprKind.children])
  obtain ⟨first, readFirst, literalFirst⟩ := literal?_eq leftInside
  obtain ⟨second, readSecond, literalSecond⟩ := literal?_eq rightInside
  obtain ⟨_, _, _, positive⟩ := leftInside
  refine Works.get (Works.lift readFirst ?_)
  cases first with
  | none => exact expresses.kept
  | some first =>
    refine Works.lift readSecond ?_
    cases second with
    | none => exact expresses.kept
    | some second =>
      dsimp only
      split
      · rename_i value found
        refine expresses.replaced fun names depth deep => ?_
        exact ExprKind.outcome_binary found (literalFirst _ rfl names depth (by omega))
          (literalSecond _ rfl names depth (by omega))
      · exact expresses.kept

theorem unary {op : UnaryOp} {operand : ExprRef}
    (expresses : Expresses rank index patterns (.unary op operand) state) :
    Simplifies rank index (simplify index (.unary op operand)) state := by
  have operandInside := expresses.fits operand (by simp [ExprKind.children])
  obtain ⟨value, read, literal⟩ := literal?_eq operandInside
  obtain ⟨_, _, _, positive⟩ := operandInside
  refine Works.get (Works.lift read ?_)
  cases value with
  | none => exact expresses.kept
  | some value =>
    dsimp only
    split
    · rename_i result found
      refine expresses.replaced fun names depth deep => ?_
      exact ExprKind.outcome_unary found (literal _ rfl names depth (by omega))
    · exact expresses.kept

/-- What stands for a node whose children fit has no higher rank and gives the same. -/
theorem simplifies (expresses : Expresses rank index patterns kind state) :
    Simplifies rank index (simplify index kind) state := by
  cases kind with
  | ifElse => exact expresses.ifElse
  | binary => exact expresses.binary
  | unary => exact expresses.unary
  | _ => exact Works.get expresses.kept

end Expresses

theorem foldWithin_missing (depth : Nat) : foldWithin depth .missing = Pure.pure .missing := by
  cases depth <;> rfl

/-- Folding ends at every depth above the rank, with an expression that gives the same. -/
theorem foldWithin_works : ∀ (depth index : Nat) (state : FoldState), index < state.arena.size →
    rank index < depth → Works rank (foldWithin depth (.node index)) state fun result after =>
      Renews rank (rank index + 1) state.arena (.node index) after result
  | 0, _, _, _, deep => absurd deep (Nat.not_lt_zero _)
  | depth + 1, index, state, inside, deep => by
    refine Works.ofRanked fun ranked => ?_
    obtain ⟨expr, found⟩ : ∃ expr, state.arena.exprs[index]? = some expr :=
      ⟨_, Array.getElem?_eq_getElem inside⟩
    have ran : state.arena.kind (.node index) = .ok expr.kind := by
      simp [Arena.kind, expr_eq found, Except.map]
    have own : state.arena.Below rank (rank index + 1) (.node index) :=
      ⟨index, inside, rfl, Nat.lt_succ_self _⟩
    -- A child has a lower rank, so the depth suffices for it, and what replaces it is as low.
    have children : Works rank (expr.kind.mapChildrenM (foldWithin depth)) state fun folded after =>
        Restores rank (rank index) state.arena.patterns.size state.arena expr.kind after
          folded := by
      refine Renewing.maps ⟨foldWithin_missing depth, ?_⟩ (ranked.fits index expr found)
      rintro _ between ⟨child, there, rfl, lower⟩
      exact (foldWithin_works depth child between there (by omega)).mono fun _ _ renews =>
        renews.mono lower
    unfold foldWithin
    refine Works.get (Works.lift ran (Works.bind children ?_))
    intro folded between continues restores
    have insideBetween := Nat.lt_of_lt_of_le inside continues.size
    have gives : ∀ names depth, rank index ≤ depth →
        between.arena.valueWithin names (depth + 1) (.node index) =
          folded.outcome names (between.arena.valueWithin names depth) := by
      intro names depth deep
      rw [restores.outcome names depth deep,
        continues.means names (depth + 1) index inside (Nat.lt_succ_of_le deep)]
      simp [valueWithin, found]
    dsimp only
    split
    · refine Works.ofRanked fun rankedBetween => Works.get ?_
      obtain ⟨changed, there⟩ : ∃ changed, between.arena.exprs[index]? = some changed :=
        ⟨_, Array.getElem?_eq_getElem insideBetween⟩
      have outcome : ∀ names depth, rank index ≤ depth →
          folded.outcome names (between.arena.valueWithin names depth) =
            changed.kind.outcome names (between.arena.valueWithin names depth) := by
        intro names depth deep
        rw [← gives names depth deep]
        simp [valueWithin, there]
      obtain ⟨arena, replaced, more, rankedAfter, written⟩ :=
        rankedBetween.setKind there (continues.patterns ▸ restores.fits) outcome
      have replacing : Works rank (modify fun state : FoldState => { state with arena }) between
          fun _ after => after = arena :=
        fun _ => Completes.modify ⟨more, rankedAfter, rfl⟩
      refine Works.lift replaced (Works.bind replacing ?_)
      rintro _ after _ rfl
      have expresses : Expresses rank index state.arena.patterns.size folded after :=
        ⟨Nat.lt_of_lt_of_le insideBetween more.size, restores.fits.mono fun _ below =>
          below.grow more,
          fun names depth _ => by simp [valueWithin, written]⟩
      exact expresses.simplifies.mono fun _ _ renews => renews.since own (continues.trans more)
    · have expresses : Expresses rank index state.arena.patterns.size folded between :=
        ⟨insideBetween, restores.fits, gives⟩
      exact expresses.simplifies.mono fun _ _ renews => renews.since own continues

/-- Folding the tree of a slot ends in a well-formed arena, with an expression of it that evaluates
to the same, as do all expressions there were. -/
theorem fold_completes (wellFormed : state.arena.WellFormed) (inside : index < state.arena.size) :
    Completes (fold (.node index)) state fun result after => after.arena.WellFormed ∧
      state.arena.size ≤ after.arena.size ∧ (∃ folded < after.arena.size, result = .node folded) ∧
      ∀ names, after.arena.value names result = state.arena.value names (.node index) ∧
        ∀ other < state.arena.size,
          after.arena.value names (.node other) = state.arena.value names (.node other) := by
  obtain ⟨rank, bounded, ranked⟩ := wellFormed.exists_ranked
  have works : Works rank (fold (.node index)) state fun result after =>
      Renews rank (rank index + 1) state.arena (.node index) after result :=
    Works.get (foldWithin_works _ index state inside (Nat.lt_succ_of_lt (bounded index inside)))
  refine (works ranked).mono ?_
  rintro _ after ⟨continues, rankedAfter, ⟨folded, there, rfl, lower⟩, means⟩
  -- The arena may have grown, and with it the depth; it exceeded the ranks before.
  have deeper : ∀ names other, rank other < state.arena.size →
      state.arena.valueWithin names (after.arena.size + 1) (.node other) =
        state.arena.value names (.node other) := fun names other low =>
    ranked.valueWithin_eq names _ _ other (by have := continues.size; omega) (by omega)
  have low := bounded index inside
  refine ⟨rankedAfter.wellFormed wellFormed continues.patterns, continues.size,
    ⟨folded, there, rfl⟩,
    fun names => ⟨?_, fun other present => ?_⟩⟩
  · rw [← deeper names index low]
    exact means names _ (by have := continues.size; omega)
  · have lowOther := bounded other present
    rw [← deeper names other lowOther]
    exact continues.means names _ other present (by have := continues.size; omega)

/-- Folding preserves values. It ends with an expression that evaluates to what the root did, or
fails as it did, and so does every expression that was there before. -/
theorem fold_preserves_value {arena : Arena} (wellFormed : arena.WellFormed) (types : IdMap TypeRef)
    (root : Nat) (inside : root < arena.size) :
    ∃ result final, (fold (.node root)).run { arena, types } = .ok (result, final) ∧
      ∀ names, final.arena.value names result = arena.value names (.node root) ∧
        ∀ index < arena.size,
          final.arena.value names (.node index) = arena.value names (.node index) := by
  have folds : Completes (fold (.node root)) { arena, types } _ := fold_completes wellFormed inside
  obtain ⟨result, final, ran, _, _, _, same⟩ := folds
  exact ⟨result, final, ran, same⟩

/-- `(if 1 < 2 then x else 1 / 0) + x`, with both names at one node. -/
def sharedName : Arena where
  exprs := #[⟨.literal (.int 1), .dummy⟩, ⟨.literal (.int 2), .dummy⟩,
    ⟨.binary .lt (.node 0) (.node 1), .dummy⟩, ⟨.ident "x", .dummy⟩, ⟨.literal (.int 0), .dummy⟩,
    ⟨.binary .div (.node 0) (.node 4), .dummy⟩, ⟨.ifElse (.node 2) (.node 3) (.node 5), .dummy⟩,
    ⟨.binary .add (.node 6) (.node 3), .dummy⟩]

theorem sharedName_wellFormed : sharedName.WellFormed :=
  Arena.Ordered.wellFormed (by constructor <;> decide)

theorem fold_preserves_value_shared : ∃ result final,
    (fold (.node 7)).run { arena := sharedName, types := {} } = .ok (result, final) ∧
      final.arena.value (fun _ => some (.int 5)) result = .ok (.literal (.int 10)) ∧
      final.arena.value (fun _ => some (.int 5)) (.node 5) = .error .divisionByZero := by
  obtain ⟨result, final, ran, same⟩ := fold_preserves_value sharedName_wellFormed {} 7 (by decide)
  obtain ⟨root, others⟩ := same fun _ => some (.int 5)
  exact ⟨result, final, ran, root.trans rfl, (others 5 (by decide)).trans rfl⟩

end FoldM

theorem Member.setBody_progress {member : Member} {body : ExprRef} :
    (member.setBody body).progress = member.progress := by
  unfold Member.setBody
  split <;> rfl

theorem Member.setBody_body {member : Member} {old body : ExprRef}
    (hasBody : member.body = some old) : (member.setBody body).body = some body := by
  cases detail : member.detail <;> simp_all [Member.setBody, Member.body]

namespace StageM

variable {total : Prop} {work : Workspace} {id : Nat} {member : Member}

/-- Folding changes only the expressions, their types and the body of the member. -/
theorem foldConstants_runs (found : work.unit.members.members[id]? = some member)
    (wellFormed : total → work.unit.arena.WellFormed)
    (inside : total → member.BodyIn work.unit.arena) :
    Runs total (foldConstants id) work fun _ after => ∃ arena exprTypes later,
      after = { work with unit := { work.unit with
        arena, exprTypes, members := work.unit.members.set id later } } ∧
      later.progress = member.progress ∧ (total → arena.WellFormed ∧
        work.unit.arena.size ≤ arena.size ∧ later.BodyIn arena) := by
  refine Runs.bind ((Completes.get ?_).runs total)
  refine Runs.bind (Works.lift_runs (fun _ => ⟨member, MemberArena.get_eq found⟩)
    fun read same => ?_)
  cases (MemberArena.get_eq found).symm.trans same
  cases hasBody : member.body with
  | none =>
    refine Runs.pure ⟨work.unit.arena, work.unit.exprTypes, member, ?_, rfl,
      fun sure => ⟨wellFormed sure, Nat.le_refl _, inside sure⟩⟩
    rw [MemberArena.set_self found]
  | some body =>
    have folds : total → Completes (FoldM.fold body)
        { arena := work.unit.arena, types := work.unit.exprTypes } fun root final =>
          final.arena.WellFormed ∧ work.unit.arena.size ≤ final.arena.size ∧
            ∃ folded < final.arena.size, root = .node folded := by
      intro sure
      obtain ⟨index, there, rfl⟩ := inside sure body hasBody
      exact (FoldM.fold_completes (wellFormed sure) there).mono fun _ _ facts =>
        ⟨facts.1, facts.2.1, facts.2.2.1⟩
    refine Runs.bind (Works.lift_runs (fun sure => ?_) ?_)
    · obtain ⟨root, final, ran, _⟩ := folds sure
      exact ⟨(root, final), ran⟩
    rintro ⟨root, final⟩ ran
    have both : total → final.arena.WellFormed ∧ work.unit.arena.size ≤ final.arena.size ∧
        ∃ folded < final.arena.size, root = .node folded := by
      intro sure
      obtain ⟨_, _, again, holds⟩ := folds sure
      rw [again] at ran
      cases ran
      exact holds
    refine Runs.bind ((Completes.modify ?_).runs total)
    split
    · refine (Completes.modify ⟨final.arena, final.types, member.setBody root, rfl,
        Member.setBody_progress, fun sure => ?_⟩).runs total
      obtain ⟨formed, grown, folded, there, rfl⟩ := both sure
      refine ⟨formed, grown, fun other present => ⟨folded, there, ?_⟩⟩
      rw [Member.setBody_body hasBody] at present
      exact (Option.some.inj present).symm
    · rename_i same
      refine Runs.pure ⟨final.arena, final.types, member, ?_, rfl, fun sure => ?_⟩
      · rw [MemberArena.set_self found]
      · obtain ⟨formed, grown, folded, there, rfl⟩ := both sure
        refine ⟨formed, grown, fun other present => ⟨folded, there, ?_⟩⟩
        rw [hasBody] at present
        rw [← Option.some.inj present, ← not_not.mp same]

end StageM
end ClassLang
