import ClassLang.Proofs.Stage.Bodies
import ClassLang.Proofs.Stage.ConfinedBodies
import ClassLang.Proofs.Stage.Joins
import ClassLang.Proofs.Stage.Visits

/-! The second stage visits every body: it goes through the slots of a node in order, then finds the
type of the node from those of the slots, and records it. -/

namespace ClassLang
open Relation

/-- The types that an operation may have, given those of its operands. -/
def BinaryOp.Yields (op : BinaryOp) (left right type : TypeRef) : Prop :=
  if op.isLogical = true ∨ op.isComparison = true then type = .bool else type = .any ∨ type = left ∨
    type = right

def UnaryOp.Yields (op : UnaryOp) (operand type : TypeRef) : Prop :=
  if op = .not then type = .bool else type = .any ∨ type = operand

/-- The type of a node with branches is their join, and that of an operation follows from its
operands. Of the other nodes nothing is said, but for literals. -/
def ExprKind.TypedBy (above apart : TypeRef → TypeRef → Prop) : Arena.TypeRule
  | .literal value, _, type => type = value.type
  | .binary op _ _, [left, right], type => op.Yields left right type
  | .unary op _, [operand], type => op.Yields operand type
  | .ifElse _ _ .missing, _, type => type = .void
  | .ifElse _ _ (.node _), [_, thenType, elseType], type =>
    Joins above apart none [thenType, elseType] (some type)
  | .matchOn _ _, _ :: bodies, type =>
    ∃ result, Joins above apart none bodies result ∧ type = result.getD .void
  | _, _, _ => True

/-- The rule by which the program types nodes. -/
abbrev Program.typeRule (program : Program) : Arena.TypeRule :=
  ExprKind.TypedBy program.Above program.Apart

namespace StageM.Works

/-- A step that records no type. -/
theorem quiet {α : Type} {total : Prop} {frame : Workspace → Workspace → Prop} {action : StageM α}
    {work : Workspace} {post : α → Workspace → Prop}
    (works : Works total frame action work post) (id : Nat)
    (confined : Confined .resolveTypes id action) :
    Works total frame action work fun result after =>
      post result after ∧ after.unit.exprTypes = work.unit.exprTypes :=
  works.and fun result after ran =>
    ((confined work).2 result after ran).1.unit.exprTypes nofun nofun

end StageM.Works

namespace BodyM
open TypePool Workspace CompilationUnit StageM

variable {work first between after : Workspace} {locals : Locals} {site : BodySite} {arena : Arena}
    {depth : Nat}
  {refs others : List ExprRef} {types more : List TypeRef} {ref : ExprRef} {type : TypeRef}

theorem Works.and {α : Type} {total : Prop} {action : BodyM α} {post other : α → Workspace → Prop}
    (earlier : BodyM.Works total action locals work post)
    (later : BodyM.Works total action locals work other) : BodyM.Works total action locals work
    fun result after => post result after ∧ other result after :=
  fun held sound => ((earlier held sound).and (later held sound).ensures).mono fun _ _ facts =>
    ⟨facts.1.1, facts.1.2.1, facts.1.2.2.1, facts.1.2.2.2, facts.2.2.2.2⟩

/-- Between the two workspaces the slots were visited, in the eyes of every later program. -/
def Trail (arena : Arena) (depth : Nat) (first after : Workspace) (refs : List ExprRef)
    (types : List TypeRef) : Prop :=
  ∀ program, after.toProgram.Enters program →
    Arena.Visits (arena.Visit program.typeRule depth) refs types first.unit.exprTypes
      after.unit.exprTypes

namespace Trail

/-- No slot was visited. -/
theorem quiet (same : after.unit.exprTypes = work.unit.exprTypes) :
    Trail arena depth work after [] [] :=
  fun _ _ => same ▸ .nil _

theorem trans (former : Trail arena depth first between refs types)
    (enters : between.toProgram.Enters after.toProgram)
    (latter : Trail arena depth between after others more) :
    Trail arena depth first after (refs ++ others) (types ++ more) :=
  fun program later => (former program (enters.trans later)).append (latter program later)

/-- Nothing is visited after the slots. -/
theorem still (trail : Trail arena depth first between refs types)
    (enters : between.toProgram.Enters after.toProgram)
    (same : after.unit.exprTypes = between.unit.exprTypes) :
    Trail arena depth first after refs types := by
  have whole := trail.trans enters (.quiet same)
  rwa [List.append_nil, List.append_nil] at whole

/-- Nothing is visited before the slots. -/
theorem wait (same : between.unit.exprTypes = first.unit.exprTypes)
    (trail : Trail arena depth between after refs types) :
    Trail arena depth first after refs types :=
  fun program later => same ▸ trail program later

end Trail

/-- Resolving a slot later than `base` visits it. -/
def Tracks (arena : Arena) (depth : Nat) (resolve : ExprRef → BodyM TypeRef) (base : Workspace)
    (ref : ExprRef) : Prop :=
  ∀ (locals : Locals) (work : Workspace), base.Leads Records work →
    BodyM.Works False (resolve ref) locals work fun type after =>
      after.pool.Has type ∧ Trail arena depth work after [ref] [type]

section
variable {base : Workspace} {resolve : ExprRef → BodyM TypeRef}

theorem items_tracks :
    ∀ (list : List ExprRef) (type : TypeRef) (locals : Locals) (work : Workspace),
    base.Leads Records work → work.pool.Has type →
    (∀ item ∈ list, Tracks arena depth resolve base item) →
    BodyM.Works False (items resolve list type) locals work fun type after =>
      after.pool.Has type ∧ ∃ types, Trail arena depth work after list types
  | [], _, _, _, _, held, _ => Works.pure ⟨held, [], .quiet rfl⟩
  | item :: rest, _, locals, work, led, _, tracks => by
    refine Works.bind (tracks item List.mem_cons_self locals work led) ?_
    rintro type _ between toBetween _ ⟨typeHere, trail⟩
    refine (items_tracks rest type _ between (trans_of _ led toBetween) typeHere fun other member =>
      tracks other (List.mem_cons_of_mem _ member)).mono ?_
    rintro result after toAfter soundAfter ⟨resultHere, types, later⟩
    exact ⟨resultHere, _, trail.trans (toAfter.enters soundAfter) later⟩

theorem mapM_tracks : ∀ (list : List ExprRef) (locals : Locals) (work : Workspace),
    base.Leads Records work → (∀ item ∈ list, Tracks arena depth resolve base item) →
    BodyM.Works False (list.mapM resolve) locals work fun types after =>
      (∀ type ∈ types, after.pool.Has type) ∧ Trail arena depth work after list types
  | [], _, _, _, _ => Works.pure ⟨by simp, .quiet rfl⟩
  | item :: rest, locals, work, led, tracks => by
    rw [List.mapM_cons]
    refine Works.bind (tracks item List.mem_cons_self locals work led) ?_
    rintro type _ between toBetween _ ⟨typeHere, trail⟩
    refine Works.bind (mapM_tracks rest _ between (trans_of _ led toBetween) fun other member =>
      tracks other (List.mem_cons_of_mem _ member)) ?_
    rintro types _ after toAfter soundAfter ⟨typesHere, later⟩
    refine Works.pure ⟨fun other member => ?_, trail.trans (toAfter.enters soundAfter) later⟩
    rcases List.mem_cons.mp member with rfl | inRest
    · exact (toAfter.growth soundAfter).has typeHere
    · exact typesHere other inRest

theorem forM_tracks : ∀ (list : List ExprRef) (locals : Locals) (work : Workspace),
    base.Leads Records work → (∀ item ∈ list, Tracks arena depth resolve base item) →
    BodyM.Works False (list.forM fun item => discard (resolve item)) locals work fun _ after =>
      ∃ types, Trail arena depth work after list types
  | [], _, _, _, _ => Works.pure ⟨[], .quiet rfl⟩
  | item :: rest, locals, work, led, tracks => by
    have resolving : BodyM.Works False (discard (resolve item)) locals work fun _ after =>
        ∃ type, Trail arena depth work after [item] [type] := by
      change BodyM.Works False ((fun _ => ()) <$> resolve item) locals work _
      rw [map_eq_pure_bind]
      exact Works.bind (tracks item List.mem_cons_self locals work led)
        fun _ _ _ _ _ facts => Works.pure ⟨_, facts.2⟩
    refine Works.bind resolving fun _ _ between toBetween _ ⟨type, trail⟩ => ?_
    refine (forM_tracks rest _ between (trans_of _ led toBetween) fun other member =>
      tracks other (List.mem_cons_of_mem _ member)).mono ?_
    rintro _ after toAfter soundAfter ⟨types, later⟩
    exact ⟨_, trail.trans (toAfter.enters soundAfter) later⟩

/-- The body of an arm is visited, and its type is joined with those before. -/
theorem armType_tracks (led : base.Leads Records first) {arm : MatchArm} {bound : Locals}
    {previous : Option TypeRef} (held : ∀ type ∈ previous, first.pool.Has type)
    (boundHere : bound.HeldBy first.pool) (tracks : Tracks arena depth resolve base arm.body) :
    BodyM.Works False (armType resolve arm bound previous) locals first fun joined after =>
      after.pool.Has joined ∧ ∃ type, Trail arena depth first after [arm.body] [type] ∧
        ∀ (result : Option TypeRef) (types : List TypeRef) (program : Program),
          after.toProgram.Enters program →
          Joins program.Above program.Apart (some joined) types result →
            Joins program.Above program.Apart previous (type :: types) result := by
  refine Works.bind (withBound_works boundHere (tracks (bound.reverse ++ locals) first led)) ?_
  rintro type _ second toSecond soundSecond ⟨typeHere, trail⟩
  cases previous with
  | none => exact Works.pure ⟨typeHere, type, trail, fun _ _ _ _ joins => .first joins⟩
  | some earlier =>
    have earlierHere := (toSecond.growth soundSecond).has (held earlier rfl)
    refine (Works.lift (StageM.Works.asking (join_joined earlierHere typeHere))).mono ?_
    rintro joined after toAfter soundAfter ⟨sameUnit, joinedHere, join⟩
    exact ⟨joinedHere, type, trail.still (toAfter.enters soundAfter) (congrArg exprTypes sameUnit),
      fun _ _ program enters joins => .next (join program enters) joins⟩

/-- The bodies of arms are visited in order, and their types are joined. -/
theorem arms_tracks {subject : TypeRef} (held : base.pool.Has subject) :
    ∀ (branches : List MatchArm) (previous : Option TypeRef) (locals : Locals) (work : Workspace),
      base.Leads Records work → (∀ type ∈ previous, work.pool.Has type) →
      (∀ arm ∈ branches, Tracks arena depth resolve base arm.body) →
      BodyM.Works False (arms resolve subject branches previous) locals work fun result after =>
        ∃ types, Trail arena depth work after (branches.map (·.body)) types ∧
          ∀ program, after.toProgram.Enters program →
            Joins program.Above program.Apart previous types result.2
  | [], previous, _, _, _, _, _ => Works.pure ⟨[], .quiet rfl, fun _ _ => .done previous⟩
  | arm :: rest, previous, locals, work, led, inPool, tracks => by
    refine Works.ofSound fun sound => ?_
    have ready : work.Ready False := ⟨False.elim, False.elim⟩
    have inside : False → arm.pattern < work.unit.arena.patterns.size := False.elim
    have prepared := (prepareArm_works ready inside ((led.growth sound).has held)).quiet 0
      (prepareArm_confined arm subject)
    refine Works.bind (Works.lift prepared) ?_
    rintro pattern locals first toFirst soundFirst ⟨typed, unchanged⟩
    have joining : ∀ (bound locals : Locals), bound.HeldBy first.pool →
        BodyM.Works False (armType resolve arm bound previous >>= fun joined =>
          arms resolve subject rest (some joined) >>= fun later =>
            pure (({ pattern, span := arm.span } : GroupArm) :: later.1, later.2)) locals first
          fun result after => ∃ types,
            Trail arena depth work after ((arm :: rest).map (·.body)) types ∧
            ∀ program, after.toProgram.Enters program →
            Joins program.Above program.Apart previous types result.2 := by
      intro bound locals boundHere
      refine Works.bind (armType_tracks (trans_of _ led toFirst)
        (fun type member => (toFirst.growth soundFirst).has (inPool type member)) boundHere
        (tracks arm List.mem_cons_self)) ?_
      rintro joined _ between toBetween soundBetween ⟨joinedHere, type, trail, joining⟩
      refine Works.bind (arms_tracks held rest (some joined) _ between
        (trans_of _ led (trans_of _ toFirst toBetween)) (by simpa using joinedHere)
        fun branch member => tracks branch (List.mem_cons_of_mem _ member)) ?_
      rintro ⟨later, final⟩ _ after toAfter soundAfter ⟨types, laterTrail, joins⟩
      refine Works.pure ⟨type :: types,
        .wait unchanged (trail.trans (toAfter.enters soundAfter) laterTrail),
        fun program enters => ?_⟩
      exact joining final types program ((toAfter.enters soundAfter).trans enters)
        (joins program enters)
    cases pattern with
    | none => exact joining [] locals (by simp [Locals.HeldBy])
    | some id =>
      refine Works.bind (Works.lift (bindings_works soundFirst (typed id rfl).tree)) ?_
      rintro answer _ _ _ _ ⟨rfl, answerHere⟩
      exact joining answer _ answerHere

end

/-! Operations. -/

theorem expectNumeric_ensures (op : BinaryOp) (left right : TypeRef × Span) (work : Workspace) :
    Ensures (expectNumeric op [left, right]) work fun numeric _ => numeric = true →
      (left.1 = .int ∨ left.1 = .float) ∧ (right.1 = .int ∨ right.1 = .float) := by
  refine Ensures.bind fun _ _ _ => Ensures.pure fun none => ?_
  have numeric (operand : TypeRef × Span) (listed : operand ∈ [left, right]) : operand.1 = .int ∨
      operand.1 = .float := by
    have kept := List.filter_eq_nil_iff.mp (List.isEmpty_iff.mp none) operand listed
    have accepted : isNumeric op operand.1 = true := by simpa using kept
    unfold isNumeric at accepted
    rcases Bool.or_eq_true_iff.mp accepted with int | float
    · exact .inl (beq_iff_eq.mp int)
    · exact .inr (beq_iff_eq.mp (Bool.and_eq_true_iff.mp float).1)
  exact ⟨numeric left List.mem_cons_self, numeric right (List.mem_cons_of_mem _ List.mem_cons_self)⟩

theorem arithmetic_yields {op : BinaryOp} (logical : op.isLogical = false)
    (left right : TypeRef × Span) (lenient : Bool) (work : Workspace) :
    Ensures (if lenient then return if op.isComparison then .bool else .any
      else if op = .add ∧ (left.1 = .string ∨ right.1 = .string) then return .string
      else do
        let numeric ← expectNumeric op [left, right]
        if op.isComparison then return .bool
        else if !numeric then return .any
        else return if left.1 = .float ∨ right.1 = .float then .float else .int : StageM TypeRef)
      work fun type _ => op.Yields left.1 right.1 type := by
  have truth (compares : op.isComparison = true) : op.Yields left.1 right.1 .bool := by
    simp [BinaryOp.Yields, compares]
  have value {type : TypeRef} (compares : op.isComparison = false)
      (either : type = .any ∨ type = left.1 ∨ type = right.1) : op.Yields left.1 right.1 type := by
    simpa [BinaryOp.Yields, logical, compares] using either
  cases compares : op.isComparison with
  | true =>
    split
    · exact Ensures.pure (truth compares)
    split
    · rename_i sum
      rw [sum.1] at compares
      cases compares
    · exact Ensures.bind fun _ _ _ => Ensures.pure (truth compares)
  | false =>
    split
    · exact Ensures.pure (value compares (.inl rfl))
    split
    · rename_i sum
      exact Ensures.pure (value compares (.inr (sum.2.imp Eq.symm Eq.symm)))
    · refine Ensures.bind
        ((expectNumeric_ensures op left right work).mono fun numeric _ facts => ?_)
      cases numeric with
      | false => exact Ensures.pure (value compares (.inl rfl))
      | true =>
        obtain ⟨leftNumber, _⟩ := facts rfl
        refine Ensures.pure (value compares (.inr ?_))
        split
        · rename_i float
          exact float.imp Eq.symm Eq.symm
        · rename_i float
          exact .inl (leftNumber.resolve_right fun same => float (.inl same)).symm

theorem binary_yields (op : BinaryOp) (left right : TypeRef × Span) (work : Workspace) :
    Ensures (binary op left right) work fun type _ => op.Yields left.1 right.1 type := by
  unfold binary
  split
  · rename_i logical
    refine Ensures.bind fun _ _ _ => ?_
    refine Ensures.bind fun _ _ _ => ?_
    refine Ensures.pure ?_
    simp [BinaryOp.Yields, logical]
  rename_i logical
  split
  · rename_i equality
    refine Ensures.pure ?_
    rcases equality with rfl | rfl <;> rfl
  refine Ensures.bind fun leftLenient first _ => ?_
  cases leftLenient with
  | true => exact arithmetic_yields (Bool.eq_false_of_not_eq_true logical) left right true first
  | false =>
    exact Ensures.bind fun lenient second _ =>
      arithmetic_yields (Bool.eq_false_of_not_eq_true logical) left right lenient second

theorem unary_yields (op : UnaryOp) (operand : TypeRef) (span : Span) (work : Workspace) :
    Ensures (unary op operand span) work fun type _ => op.Yields operand type := by
  refine Ensures.bind fun lenient _ _ => ?_
  cases lenient with
  | true =>
    refine Ensures.pure ?_
    cases op with
    | not => rfl
    | neg | bitNot => exact .inr rfl
  | false =>
    cases op with
    | not => exact Ensures.bind fun _ _ _ => Ensures.pure rfl
    | neg | bitNot =>
      rw [if_neg Bool.false_ne_true]
      dsimp only
      split
      · exact Ensures.pure (.inr rfl)
      · exact Ensures.bind fun _ _ _ => Ensures.pure (.inl rfl)

/-! Nodes. -/

/-- The slots of a node were visited in order, and its type follows from theirs. -/
structure Traverses (arena : Arena) (depth : Nat) (first : Workspace) (kind : ExprKind)
    (type : TypeRef) (after : Workspace) : Prop where
  here : after.pool.Has type
  slots : ∃ types, Trail arena depth first after kind.slots types ∧
    ∀ program, after.toProgram.Enters program → program.typeRule kind types type

section
variable {resolve : ExprRef → BodyM TypeRef} {index : Nat} {kind : ExprKind} {span : Span}

theorem call_traverses {receiver : Option ExprRef} {method : Name} {args : List ExprRef}
    (held : site.HeldBy work.pool) (tracks : ∀ ref : ExprRef, Tracks arena depth resolve work ref) :
    BodyM.Works False (node site resolve index ⟨.call receiver method args, span⟩) locals work
      (Traverses arena depth work (.call receiver method args)) := by
  have calling : ∀ (type : TypeRef) (locals : Locals) (first : Workspace) (before : List TypeRef),
      work.Leads Records first → first.pool.Has type →
      Trail arena depth work first receiver.toList before → BodyM.Works False (do
        let args ← args.mapM resolve
        call site index type method args span) locals first
          (Traverses arena depth work (.call receiver method args)) := by
    intro type locals first before led inPool trail
    refine Works.bind (mapM_tracks args locals first led fun arg _ => tracks arg) ?_
    rintro types _ second more soundSecond ⟨typesHere, argsTrail⟩
    refine (Works.lift ((call_works ((more.growth soundSecond).has inPool) method typesHere).quiet 0
      (call_confined _ _ _ _ _))).mono ?_
    rintro result after last soundAfter ⟨resultHere, same⟩
    exact ⟨resultHere, _, (trail.trans (more.enters soundSecond) argsTrail).still
      (last.enters soundAfter) same,
      fun _ _ => trivial⟩
  unfold node
  cases receiver with
  | none => exact calling site.classType locals work [] (refl_of _ _) held.classType (.quiet rfl)
  | some receiver =>
    refine Works.bind (tracks receiver locals work (refl_of _ _)) ?_
    rintro type locals first led _ ⟨inPool, trail⟩
    exact calling type locals first [type] led inPool trail

theorem binary_traverses {op : BinaryOp} {left right : ExprRef}
    (tracks : ∀ ref : ExprRef, Tracks arena depth resolve work ref) :
    BodyM.Works False (node site resolve index ⟨.binary op left right, span⟩) locals work
      (Traverses arena depth work (.binary op left right)) := by
  unfold node
  refine Works.bind (tracks left locals work (refl_of _ _)) ?_
  rintro leftType locals first led _ ⟨leftHere, leftTrail⟩
  refine Works.bind (tracks right locals first led) ?_
  rintro rightType _ second more soundSecond ⟨rightHere, rightTrail⟩
  refine Works.bind (Works.lift (StageM.Works.asking (spanOf_works False.elim))) ?_
  rintro rightSpan _ third toThird soundThird ⟨sameThird, _⟩
  refine Works.bind (Works.lift (StageM.Works.asking (spanOf_works False.elim))) ?_
  rintro leftSpan _ fourth toFourth soundFourth ⟨sameFourth, _⟩
  have growth := (toThird.growth soundThird).trans (toFourth.growth soundFourth)
  have leftThere := growth.has ((more.growth soundSecond).has leftHere)
  have rightThere := growth.has rightHere
  have asked : Asks False (binary op (leftType, leftSpan) (rightType, rightSpan)) fourth
      fun type after => after.pool.Has type ∧ op.Yields leftType rightType type :=
    (binary_asks op leftThere rightThere).and (binary_yields op _ _ fourth)
  refine (Works.lift (StageM.Works.asking asked)).mono ?_
  rintro result after last soundAfter ⟨sameAfter, resultHere, yields⟩
  have trail := leftTrail.trans (more.enters soundSecond) rightTrail
  have toEnd := trans_of (Leads Records) toThird (trans_of _ toFourth last)
  exact ⟨resultHere, _, trail.still (toEnd.enters soundAfter)
    (congrArg exprTypes (sameAfter.trans (sameFourth.trans sameThird))), fun _ _ => yields⟩

theorem unary_traverses {op : UnaryOp} {operand : ExprRef}
    (tracks : ∀ ref : ExprRef, Tracks arena depth resolve work ref) :
    BodyM.Works False (node site resolve index ⟨.unary op operand, span⟩) locals work
      (Traverses arena depth work (.unary op operand)) := by
  unfold node
  refine Works.bind (tracks operand locals work (refl_of _ _)) ?_
  rintro type _ first led _ ⟨held, trail⟩
  refine Works.bind (Works.lift (StageM.Works.asking (spanOf_works False.elim))) ?_
  rintro span _ second more soundSecond ⟨sameSecond, _⟩
  have asked : Asks False (unary op type span) second fun result after =>
      after.pool.Has result ∧ op.Yields type result :=
    (unary_asks op ((more.growth soundSecond).has held) span).and (unary_yields op type span second)
  refine (Works.lift (StageM.Works.asking asked)).mono ?_
  rintro result after last soundAfter ⟨sameAfter, resultHere, yields⟩
  have toEnd := trans_of (Leads Records) more last
  exact ⟨resultHere, _, trail.still (toEnd.enters soundAfter)
    (congrArg exprTypes (sameAfter.trans sameSecond)),
    fun _ _ => yields⟩

theorem ifElse_traverses {cond thenBranch elseBranch : ExprRef}
    (tracks : ∀ ref : ExprRef, Tracks arena depth resolve work ref) :
    BodyM.Works False (node site resolve index ⟨.ifElse cond thenBranch elseBranch, span⟩) locals
      work (Traverses arena depth work (.ifElse cond thenBranch elseBranch)) := by
  unfold node
  refine Works.bind (tracks cond locals work (refl_of _ _)) ?_
  rintro condType _ first led _ ⟨condHere, condTrail⟩
  refine Works.bind (Works.lift (StageM.Works.asking (spanOf_works False.elim))) ?_
  rintro span _ second toSecond soundSecond ⟨sameSecond, _⟩
  refine Works.bind
    (Works.lift (StageM.Works.asking (expect_asks (soundSecond.valid.has_primitive rfl)
    ((toSecond.growth soundSecond).has condHere) span))) ?_
  rintro _ _ third toThird soundThird ⟨sameThird, _⟩
  have upToThird := trans_of (Leads Records) led (trans_of _ toSecond toThird)
  have condThird := condTrail.still ((trans_of (Leads Records) toSecond toThird).enters soundThird)
    (congrArg exprTypes (sameThird.trans sameSecond))
  refine Works.bind (tracks thenBranch _ third upToThird) ?_
  rintro thenType _ fourth toFourth soundFourth ⟨thenHere, thenTrail⟩
  have upToFourth := trans_of _ upToThird toFourth
  have trail := condThird.trans (toFourth.enters soundFourth) thenTrail
  split
  · rename_i missing
    subst missing
    -- an empty slot is visited too, and counts as `void`
    have nothing : Trail arena depth fourth fourth [.missing] [.void] :=
      fun program _ => .single (by cases depth <;> exact ⟨rfl, rfl⟩)
    exact Works.pure ⟨soundFourth.valid.has_primitive rfl, _,
      trail.trans (.refl soundFourth.valid) nothing, fun _ _ => rfl⟩
  · rename_i present
    refine Works.bind (tracks elseBranch _ fourth upToFourth) ?_
    rintro elseType _ fifth toFifth soundFifth ⟨elseHere, elseTrail⟩
    refine (Works.lift
      (StageM.Works.asking (join_joined ((toFifth.growth soundFifth).has thenHere) elseHere))).mono
      ?_
    rintro result after last soundAfter ⟨sameAfter, resultHere, joined⟩
    have whole := (trail.trans (toFifth.enters soundFifth) elseTrail).still (last.enters soundAfter)
      (congrArg exprTypes sameAfter)
    refine ⟨resultHere, _, whole, fun program enters => ?_⟩
    cases elseBranch with
    | missing => exact absurd rfl present
    | node => exact .first (.next (joined program enters) (.done _))

theorem matchOn_traverses {scrutinee : ExprRef} {branches : List MatchArm}
    (found : work.unit.arena.exprs[index]? = some ⟨.matchOn scrutinee branches, span⟩)
    (visits : VisitsSlots False resolve work (.matchOn scrutinee branches))
    (tracks : ∀ ref : ExprRef, Tracks arena depth resolve work ref) :
    BodyM.Works False (node site resolve index ⟨.matchOn scrutinee branches, span⟩) locals work
      (Traverses arena depth work (.matchOn scrutinee branches)) := by
  unfold node
  refine Works.bind (tracks scrutinee locals work (refl_of _ _)) ?_
  rintro subject _ first led soundFirst ⟨subjectHere, trail⟩
  refine Works.bind
    ((arms_works ⟨False.elim, False.elim⟩ soundFirst.valid subjectHere branches none _ first
    (refl_of _ _) (by simp) False.elim fun arm member locals later more => visits arm.body
      (fun _ => List.mem_cons_of_mem _ (List.mem_map_of_mem member)) locals later
      (trans_of _ led more)).and
    (arms_tracks subjectHere branches none _ first (refl_of _ _) (by simp)
      fun arm _ locals later more => tracks arm.body locals later (trans_of _ led more))) ?_
  rintro ⟨typed, result⟩ _ second toSecond soundSecond
    ⟨⟨armsTyped, resultHere, _⟩, types, armsTrail, joins⟩
  have same : Ensures (StageM.modifyUnit fun unit => { unit with
      matchGroups := unit.matchGroups.insert index { subject, arms := typed, span } }) second
        fun _ after =>
      after.unit.exprTypes = second.unit.exprTypes := by
    intro _ _ ran
    cases ran
    rfl
  have recording := (@recordArms_works False second index scrutinee branches subject typed span span
    ((toSecond.growth soundSecond).has subjectHere) armsTyped
    ((trans_of _ led toSecond).unit.arena ▸ found)).and same
  refine Works.bind (Works.lift recording) ?_
  rintro _ _ third toThird soundThird ⟨_, same⟩
  have whole := trail.trans ((trans_of (Leads Records) toSecond toThird).enters soundThird)
    (armsTrail.still (toThird.enters soundThird) same)
  refine Works.pure ⟨?_, _, whole, fun program enters =>
    ⟨result, joins program ((toThird.enters soundThird).trans enters), rfl⟩⟩
  cases result with
  | none => exact soundThird.valid.has_primitive rfl
  | some type => exact (toThird.growth soundThird).has (resultHere type rfl)

theorem letIn_traverses {name : Name} {written : TypeExpr} {init : ExprRef}
    (held : site.HeldBy work.pool) (tracks : ∀ ref : ExprRef, Tracks arena depth resolve work ref) :
    BodyM.Works False (node site resolve index ⟨.letIn name written init, span⟩) locals work
      (Traverses arena depth work (.letIn name written init)) := by
  unfold node
  refine Works.bind (tracks init locals work (refl_of _ _)) ?_
  rintro initType locals first led soundFirst ⟨initHere, trail⟩
  have declaring : ∀ {declared : TypeRef} {locals : Locals} {second : Workspace},
      first.Leads Records second → second.pool.Has declared →
        second.unit.exprTypes = first.unit.exprTypes → BodyM.Works False (do
        modify ((name, declared) :: ·)
        return .void : BodyM TypeRef) locals second
          (Traverses arena depth work (.letIn name written init)) :=
    fun more inPool same => declare_works inPool fun soundSecond =>
      ⟨soundSecond.valid.has_primitive rfl, [initType], trail.still (more.enters soundSecond) same,
        fun _ _ => trivial⟩
  have checking : BodyM.Works False (do
      let declared ← site.resolve written
      expect declared initType (← spanOf init)
      modify ((name, declared) :: ·)
      return .void : BodyM TypeRef) locals first
        (Traverses arena depth work (.letIn name written init)) := by
    have scope := (held.grow (led.growth soundFirst)).scope
    refine Works.bind (Works.lift ((TypeSite.resolve_works written first scope).quiet 0
      (TypeSite.resolve_confined written))) ?_
    rintro declared _ second toSecond soundSecond ⟨⟨⟨declaredHere, _⟩, _⟩, sameSecond⟩
    refine Works.bind (Works.lift (StageM.Works.asking (spanOf_works False.elim))) ?_
    rintro span _ third toThird soundThird ⟨sameThird, _⟩
    have growth := toThird.growth soundThird
    refine Works.bind (Works.lift (StageM.Works.asking (expect_asks (growth.has declaredHere)
      (growth.has ((toSecond.growth soundSecond).has initHere)) span))) ?_
    rintro _ locals fourth toFourth soundFourth ⟨sameFourth, _⟩
    exact declaring (trans_of _ toSecond (trans_of _ toThird toFourth))
      ((toFourth.growth soundFourth).has (growth.has declaredHere))
      ((congrArg exprTypes (sameFourth.trans sameThird)).trans sameSecond)
  cases written with
  | infer => exact declaring (refl_of _ _) initHere rfl
  | _ => exact checking

/-- Whatever a node is, resolving it traverses it. -/
theorem node_traverses (held : site.HeldBy work.pool)
    (found : work.unit.arena.exprs[index]? = some ⟨kind, span⟩)
    (visits : VisitsSlots False resolve work kind)
    (tracks : ∀ ref : ExprRef, Tracks arena depth resolve work ref) :
    BodyM.Works False (node site resolve index ⟨kind, span⟩) locals work
      (Traverses arena depth work kind) := by
  refine Works.ofSound fun sound => ?_
  cases kind with
  | literal value =>
    exact Works.pure ⟨sound.valid.has_primitive (by cases value <;> rfl), [], .quiet rfl,
      fun _ _ => rfl⟩
  | ident name =>
    refine Works.get fun localsHere => (Works.lift ((ident_works held localsHere name).quiet 0
      (ident_confined _ _ _ _))).mono ?_
    rintro type after _ _ ⟨inPool, same⟩
    exact ⟨inPool, [], .quiet same, fun _ _ => trivial⟩
  | this => exact Works.pure ⟨held.classType, [], .quiet rfl, fun _ _ => trivial⟩
  | error => exact Works.pure ⟨sound.valid.has_any, [], .quiet rfl, fun _ _ => trivial⟩
  | field receiver name =>
    refine Works.bind (tracks receiver locals work (refl_of _ _)) ?_
    rintro type _ first led _ ⟨inPool, trail⟩
    refine (Works.lift ((field_works inPool name).quiet 0 (field_confined _ _ _ _))).mono ?_
    rintro result after more soundAfter ⟨resultHere, same⟩
    exact ⟨resultHere, [type], trail.still (more.enters soundAfter) same, fun _ _ => trivial⟩
  | new type args =>
    refine Works.bind (forM_tracks args locals work (refl_of _ _) fun arg _ => tracks arg) ?_
    rintro _ _ first led soundFirst ⟨types, trail⟩
    refine (Works.lift ((newInstance_works (held.grow (led.growth soundFirst)) type).quiet 0
      (newInstance_confined _ _ _))).mono ?_
    rintro result after more soundAfter ⟨resultHere, same⟩
    exact ⟨resultHere, types, trail.still (more.enters soundAfter) same, fun _ _ => trivial⟩
  | block list =>
    refine (Works.withScope
      (items_tracks list .void locals work (refl_of _ _) (sound.valid.has_primitive rfl)
      fun item _ => tracks item)).mono ?_
    rintro type after _ _ ⟨inPool, types, trail⟩
    exact ⟨inPool, types, trail, fun _ _ => trivial⟩
  | call => exact call_traverses held tracks
  | binary => exact binary_traverses tracks
  | unary => exact unary_traverses tracks
  | ifElse => exact ifElse_traverses tracks
  | matchOn => exact matchOn_traverses found visits tracks
  | letIn => exact letIn_traverses held tracks

end

/-- Resolving a slot visits the tree below it. -/
theorem resolveWithin_tracks : ∀ (depth : Nat) (ref : ExprRef) (locals : Locals) (work : Workspace),
    work.unit.arena = arena → site.HeldBy work.pool →
    BodyM.Works False (resolveWithin site depth ref) locals work
      fun type after => after.pool.Has type ∧ Trail arena depth work after [ref] [type]
  | depth, .missing, locals, work, _, _ => by
    unfold resolveWithin
    refine Works.ofSound fun sound =>
      Works.pure ⟨sound.valid.has_primitive rfl, fun program _ => .single ?_⟩
    cases depth <;> exact ⟨rfl, rfl⟩
  | 0, .node index, _, _, _, _ => fun _ => StageM.Works.fails id
  | depth + 1, .node index, locals, work, inArena, held => by
    refine Works.ofSound fun sound => ?_
    refine Works.bind (Works.lift (readExpr_works False.elim)) ?_
    rintro expr locals _ _ _ ⟨rfl, found⟩
    have visits : VisitsSlots False (resolveWithin site depth) work expr.kind := by
      intro ref _ locals later led
      refine Works.ofSound fun soundLater => ?_
      have lowers : False → ∀ parent child, arena.HasChild parent child → child < arena.size ∧
          0 < 0 := False.elim
      exact resolveWithin_works lowers depth ref locals later (led.unit.arena.trans inArena)
        ⟨False.elim, False.elim⟩ (held.grow (led.growth soundLater)) False.elim
    have tracks : ∀ ref : ExprRef, Tracks arena depth (resolveWithin site depth) work ref := by
      intro ref locals later led
      refine Works.ofSound fun soundLater => ?_
      exact resolveWithin_tracks depth ref locals later (led.unit.arena.trans inArena)
        (held.grow (led.growth soundLater))
    refine Works.bind (node_traverses held found visits tracks) ?_
    rintro type _ after led soundAfter ⟨inPool, types, trail, typed⟩
    refine Works.bind (Works.lift (recordType_works inPool)) ?_
    rintro _ _ _ _ _ rfl
    refine Works.pure ⟨inPool, fun program enters => .single ?_⟩
    exact ⟨expr, types, _, inArena ▸ found, trail program enters, typed program enters, rfl⟩

/-- Resolving a slot of the unit. -/
theorem resolve_tracks (held : site.HeldBy work.pool) :
    BodyM.Works False (resolve site ref) locals work fun type after =>
      ∃ depth, Trail work.unit.arena depth work after [ref] [type] := by
  refine Works.bind (Works.lift arenaSize_works) ?_
  rintro size locals _ _ _ ⟨rfl, _⟩
  exact (resolveWithin_tracks (size + 1) ref locals work rfl held).mono fun _ _ _ _ facts =>
    ⟨_, facts.2⟩

end BodyM

namespace StageM
open BodyM TypePool Workspace CompilationUnit

variable {work : Workspace} {id : Nat} {member : Member}

/-- The second stage on one member visits its body. -/
theorem resolveBody_visits (found : work.unit.members.members[id]? = some member)
    (typed : work.unit.Typed work.pool) :
    Works False (Leads Evolves) (resolveBody id) work fun _ after =>
      ∃ depth types, Trail work.unit.arena depth work after member.body.toList types := by
  refine Works.ofSound fun _ => ?_
  refine Works.bind ((resolveAnnotations_works found).quiet id resolveAnnotations_confined) ?_
  rintro _ first led sound ⟨⟨later, kept⟩, unchanged⟩
  have present := kept.present found
  have typedFirst := kept.unitTyped found typed (led.growth sound).within
  refine Works.get (Works.lift False.elim fun read same => ?_)
  cases (MemberArena.get_eq present).symm.trans same
  rw [← kept.follows.body]
  cases hasBody : later.body with
  | none => exact Works.pure ⟨0, [], .quiet unchanged⟩
  | some body =>
    obtain ⟨top, class_, reached, there⟩ := sound.laid.classOf_eq present
    refine Works.lift False.elim fun read same => ?_
    cases reached.symm.trans same
    refine Works.lift False.elim fun scope same => ?_
    cases (sound.laid.forMember_eq present).symm.trans same
    have held := bodySite_held sound typedFirst present there class_.name
      (later.suppressesWarnings || class_.suppressesWarnings)
    have resolving : Works False (Leads Evolves) _ first _ := Works.widen
      ((BodyM.resolve_tracks held (params_held typedFirst present)).mono
        fun result after more _ facts => (⟨more, result.1, facts.2⟩ : first.Leads Records after ∧
          ∃ type depth, Trail first.unit.arena depth first after [body] [type]))
      fun _ more => more.widen fun _ _ => Records.evolves
    refine Works.bind resolving ?_
    rintro _ after _ _ ⟨_, type, depth, trail⟩
    exact Works.pure ⟨depth, [type], .wait unchanged (led.unit.arena ▸ trail)⟩

end StageM
end ClassLang
