import ClassLang.Proofs.Stage.Arms

/-! The second stage: resolving a body reaches every expression in it, gives each a type of the pool
and each match a group of typed arms. -/

namespace ClassLang

namespace BodyM
open TypePool Workspace CompilationUnit StageM

variable {total : Prop} {work : Workspace} {locals : Locals} {site : BodySite}

section
variable {base : Workspace} {resolve : ExprRef → BodyM TypeRef}

theorem items_works : ∀ (list : List ExprRef) (type : TypeRef) (locals : Locals) (work : Workspace),
    base.Leads Records work → work.pool.Has type →
    (∀ item ∈ list, Visits total resolve base item) →
    BodyM.Works total (items resolve list type) locals work fun type after =>
      after.pool.Has type ∧ ∀ item ∈ list, after.unit.HasGroups item
  | [], _, _, _, _, held, _ => Works.pure ⟨held, by simp⟩
  | item :: rest, _, locals, work, led, _, visits => by
    refine Works.bind (visits item List.mem_cons_self locals work led) ?_
    rintro type _ between toBetween _ ⟨typeHere, visited⟩
    refine (items_works rest type _ between (trans_of _ led toBetween) typeHere fun other member =>
      visits other (List.mem_cons_of_mem _ member)).mono ?_
    rintro result after toAfter _ ⟨resultHere, later⟩
    refine ⟨resultHere, fun other member => ?_⟩
    rcases List.mem_cons.mp member with rfl | inRest
    · exact visited.keep toAfter.unit.evolves
    · exact later other inRest

/-- Slots are resolved one after the other. -/
theorem mapM_works : ∀ (list : List ExprRef) (locals : Locals) (work : Workspace),
    base.Leads Records work → (∀ item ∈ list, Visits total resolve base item) →
    BodyM.Works total (list.mapM resolve) locals work fun types after =>
      (∀ type ∈ types, after.pool.Has type) ∧ ∀ item ∈ list, after.unit.HasGroups item
  | [], _, _, _, _ => Works.pure ⟨by simp, by simp⟩
  | item :: rest, locals, work, led, visits => by
    rw [List.mapM_cons]
    refine Works.bind (visits item List.mem_cons_self locals work led) ?_
    rintro type _ between toBetween _ ⟨typeHere, visited⟩
    refine Works.bind (mapM_works rest _ between (trans_of _ led toBetween) fun other member =>
      visits other (List.mem_cons_of_mem _ member)) ?_
    rintro types _ after toAfter soundAfter ⟨typesHere, later⟩
    refine Works.pure ⟨fun other member => ?_, fun other member => ?_⟩
    · rcases List.mem_cons.mp member with rfl | inRest
      · exact (toAfter.growth soundAfter).has typeHere
      · exact typesHere other inRest
    · rcases List.mem_cons.mp member with rfl | inRest
      · exact visited.keep toAfter.unit.evolves
      · exact later other inRest

/-- Slots are resolved for their groups only. -/
theorem forM_works : ∀ (list : List ExprRef) (locals : Locals) (work : Workspace),
    base.Leads Records work → (∀ item ∈ list, Visits total resolve base item) →
    BodyM.Works total (list.forM fun item => discard (resolve item)) locals work fun _ after =>
      ∀ item ∈ list, after.unit.HasGroups item
  | [], _, _, _, _ => Works.pure (by simp)
  | item :: rest, locals, work, led, visits => by
    have resolving : BodyM.Works total (discard (resolve item)) locals work fun _ after =>
        after.unit.HasGroups item := by
      change BodyM.Works total ((fun _ => ()) <$> resolve item) locals work _
      rw [map_eq_pure_bind]
      exact Works.bind (visits item List.mem_cons_self locals work led)
        fun _ _ _ _ _ facts => Works.pure facts.2
    refine Works.bind resolving fun _ _ between toBetween _ visited => ?_
    refine (forM_works rest _ between (trans_of _ led toBetween) fun other member =>
      visits other (List.mem_cons_of_mem _ member)).mono ?_
    intro _ after toAfter _ later other member
    rcases List.mem_cons.mp member with rfl | inRest
    · exact visited.keep toAfter.unit.evolves
    · exact later other inRest

end

/-- The arms of a match are recorded. -/
theorem recordGroup_works {index : Nat} {group : MatchGroup}
    (held : group.HeldBy work.pool work.unit.patterns)
    (copies : ∀ scrutinee arms span,
      work.unit.arena.exprs[index]? = some ⟨.matchOn scrutinee arms, span⟩ →
      group.Copies work.unit.arena work.unit.patterns arms) :
    StageM.Works total (Leads Records) (StageM.modifyUnit fun unit =>
        { unit with matchGroups := unit.matchGroups.insert index group }) work
      fun _ after => (after.unit.matchGroups.get? index).isSome := by
  refine StageM.Works.ofSound fun sound => ?_
  refine (StageM.Works.record ⟨rfl, .refl _, fun other isSome => ?_⟩ { sound.recorded with
    groups := fun other entry found => ?_
    copies := fun other entry scrutinee arms span found read => ?_ }).mono ?_
  · rw [IdMap.get?_insert]
    split
    · rfl
    · exact isSome
  · rw [IdMap.get?_insert] at found
    split at found
    · cases found
      exact held
    · exact sound.recorded.groups other entry found
  · rw [IdMap.get?_insert] at found
    split at found
    · rename_i same
      cases found
      exact copies scrutinee arms span (same ▸ read)
    · exact sound.recorded.copies other entry scrutinee arms span found read
  · rintro _ after _ _ rfl
    rw [IdMap.get?_insert, if_pos rfl]
    rfl

/-- A group is recorded whose arms were typed. -/
theorem recordArms_works {index : Nat} {scrutinee : ExprRef} {branches : List MatchArm}
    {subject : TypeRef} {arms : List GroupArm} {span place : Span}
    (subjectHere : work.pool.Has subject)
    (typed : ∀ id, some id ∈ arms.map (·.pattern) → ∃ arm ∈ branches, work.unit.TypesArm arm id)
    (found : work.unit.arena.exprs[index]? = some ⟨.matchOn scrutinee branches, span⟩) :
    StageM.Works total (Leads Records) (StageM.modifyUnit fun unit => { unit with
        matchGroups := unit.matchGroups.insert index { subject, arms, span := place } }) work
      fun _ after => (after.unit.matchGroups.get? index).isSome := by
  refine recordGroup_works ⟨subjectHere, fun id member => ?_⟩
    fun other written span read id member => ?_
  · obtain ⟨_, _, typesArm⟩ := typed id member
    exact typesArm.tree
  · rw [found] at read
    cases read
    obtain ⟨arm, present, typesArm⟩ := typed id member
    exact ⟨arm, present, typesArm.takes⟩

/-! Nodes. -/

/-- A node is resolved: its type is in the pool, it has a group if it is a match, and every match
below has one. -/
structure Covers (index : Nat) (kind : ExprKind) (type : TypeRef) (after : Workspace) : Prop where
  here : after.pool.Has type
  own : after.unit.arena.IsMatch index → (after.unit.matchGroups.get? index).isSome
  below : ∀ child ∈ kind.children, after.unit.HasGroups child

/-- The slots of a node can be resolved, whenever that comes. -/
def VisitsSlots (total : Prop) (resolve : ExprRef → BodyM TypeRef) (base : Workspace)
    (kind : ExprKind) : Prop :=
  ∀ ref : ExprRef, (ref.isPresent = true → ref ∈ kind.children) → Visits total resolve base ref

/-- A local of a known type is declared. -/
theorem declare_works {name : Name} {declared : TypeRef} {post : TypeRef → Workspace → Prop}
    (inPool : work.pool.Has declared) (rest : work.Sound → post .void work) :
    BodyM.Works total (do
      modify ((name, declared) :: ·)
      return .void : BodyM TypeRef) locals work post := by
  refine Works.ofSound fun sound =>
    Works.modify (fun held entry member => ?_) (Works.pure (rest sound))
  rcases List.mem_cons.mp member with rfl | old
  · exact inPool
  · exact held entry old

section
variable {after : Workspace} {resolve : ExprRef → BodyM TypeRef} {index : Nat} {kind : ExprKind}
    {span : Span}
  {type : TypeRef}

/-- A node that is no match needs no group of its own. -/
theorem Covers.plain (found : work.unit.arena.exprs[index]? = some ⟨kind, span⟩)
    (other : ∀ scrutinee arms, kind ≠ .matchOn scrutinee arms) (led : work.Leads Records after)
    (held : after.pool.Has type) (below : ∀ child ∈ kind.children, after.unit.HasGroups child) :
    Covers index kind type after := by
  refine ⟨held, ?_, below⟩
  rintro ⟨scrutinee, arms, span, read⟩
  rw [led.unit.arena, found] at read
  cases read
  exact absurd rfl (other scrutinee arms)

/-- A slot that must be filled is filled. -/
theorem required_filled (ready : work.Ready total)
    (found : work.unit.arena.exprs[index]? = some ⟨kind, span⟩) {ref : ExprRef}
    (member : ref ∈ kind.required) (led : work.Leads Records after) (sure : total) :
    ∃ child < after.unit.arena.size, ref = .node child := by
  rw [led.unit.arena]
  exact (ready.arena sure).slot found member

theorem call_covers {receiver : Option ExprRef} {method : Name} {args : List ExprRef}
    (held : site.HeldBy work.pool)
    (found : work.unit.arena.exprs[index]? = some ⟨.call receiver method args, span⟩)
    (visits : VisitsSlots total resolve work (.call receiver method args)) :
    BodyM.Works total (node site resolve index ⟨.call receiver method args, span⟩) locals work
      (Covers index (.call receiver method args)) := by
  have calling : ∀ (type : TypeRef) (locals : Locals) (first : Workspace),
      work.Leads Records first → first.pool.Has type →
      (∀ ref ∈ receiver.toList, first.unit.HasGroups ref) → BodyM.Works total (do
        let args ← args.mapM resolve
        call site index type method args span) locals first
          (Covers index (.call receiver method args)) := by
    intro type locals first led inPool visited
    refine Works.bind (mapM_works args locals first led fun arg member =>
      visits arg fun _ => List.mem_append_right _ member) ?_
    rintro types _ second more soundSecond ⟨typesHere, argsVisited⟩
    refine (Works.lift (call_works ((more.growth soundSecond).has inPool) method typesHere)).mono ?_
    intro result after last _ resultHere
    refine .plain found nofun (trans_of _ led (trans_of _ more last)) resultHere
      fun child member => ?_
    rcases List.mem_append.mp member with own | arg
    · exact ((visited child own).keep more.unit.evolves).keep last.unit.evolves
    · exact (argsVisited child arg).keep last.unit.evolves
  unfold node
  cases receiver with
  | none => exact calling site.classType locals work (refl_of _ _) held.classType (by simp)
  | some receiver =>
    refine Works.bind (visits receiver (by simp [ExprKind.children]) locals work (refl_of _ _)) ?_
    rintro type locals first led _ ⟨inPool, visited⟩
    exact calling type locals first led inPool (by simpa using visited)

theorem binary_covers {op : BinaryOp} {left right : ExprRef} (ready : work.Ready total)
    (found : work.unit.arena.exprs[index]? = some ⟨.binary op left right, span⟩)
    (visits : VisitsSlots total resolve work (.binary op left right)) :
    BodyM.Works total (node site resolve index ⟨.binary op left right, span⟩) locals work
      (Covers index (.binary op left right)) := by
  unfold node
  refine Works.bind (visits left (by simp [ExprKind.children]) locals work (refl_of _ _)) ?_
  rintro leftType locals first led _ ⟨leftHere, leftVisited⟩
  refine Works.bind (visits right (by simp [ExprKind.children]) locals first led) ?_
  rintro rightType _ second more soundSecond ⟨rightHere, rightVisited⟩
  have toSecond := trans_of _ led more
  refine Works.bind (Works.lift (spanOf_works (required_filled ready found (by
    simp [ExprKind.required, ExprKind.children]) toSecond)))
      fun rightSpan _ third toThird soundThird _ => ?_
  refine Works.bind (Works.lift (spanOf_works (required_filled ready found (by
    simp [ExprKind.required, ExprKind.children]) (trans_of _ toSecond toThird))))
    fun leftSpan _ fourth toFourth soundFourth _ => ?_
  have growth := (toThird.growth soundThird).trans (toFourth.growth soundFourth)
  refine (Works.lift (StageM.Works.asks (binary_asks op
    (growth.has ((more.growth soundSecond).has leftHere)) (growth.has rightHere)))).mono ?_
  intro result after last _ resultHere
  have toEnd := trans_of (Leads Records) toThird (trans_of _ toFourth last)
  refine .plain found nofun (trans_of _ toSecond toEnd) resultHere ?_
  simpa [ExprKind.children] using ⟨(leftVisited.keep more.unit.evolves).keep toEnd.unit.evolves,
    rightVisited.keep toEnd.unit.evolves⟩

theorem unary_covers {op : UnaryOp} {operand : ExprRef} (ready : work.Ready total)
    (found : work.unit.arena.exprs[index]? = some ⟨.unary op operand, span⟩)
    (visits : VisitsSlots total resolve work (.unary op operand)) :
    BodyM.Works total (node site resolve index ⟨.unary op operand, span⟩) locals work
      (Covers index (.unary op operand)) := by
  unfold node
  refine Works.bind (visits operand (by simp [ExprKind.children]) locals work (refl_of _ _)) ?_
  rintro type _ first led _ ⟨held, visited⟩
  refine Works.bind (Works.lift (spanOf_works (required_filled ready found (by
    simp [ExprKind.required, ExprKind.children]) led))) fun span _ second more soundSecond _ => ?_
  refine (Works.lift
    (StageM.Works.asks (unary_asks op ((more.growth soundSecond).has held) span))).mono ?_
  intro result after last _ resultHere
  have toEnd := trans_of (Leads Records) more last
  refine .plain found nofun (trans_of _ led toEnd) resultHere ?_
  simpa [ExprKind.children] using visited.keep toEnd.unit.evolves

theorem ifElse_covers {cond thenBranch elseBranch : ExprRef} (ready : work.Ready total)
    (found : work.unit.arena.exprs[index]? = some ⟨.ifElse cond thenBranch elseBranch, span⟩)
    (visits : VisitsSlots total resolve work (.ifElse cond thenBranch elseBranch)) :
    BodyM.Works total (node site resolve index ⟨.ifElse cond thenBranch elseBranch, span⟩) locals
      work (Covers index (.ifElse cond thenBranch elseBranch)) := by
  have present : ∀ {ref : ExprRef}, ref ∈ [cond, thenBranch, elseBranch] → ref.isPresent = true →
      ref ∈ (ExprKind.ifElse cond thenBranch elseBranch).children :=
    fun member filled => List.mem_filter.mpr ⟨member, filled⟩
  have slots : ∀ {unit : CompilationUnit}, unit.HasGroups cond → unit.HasGroups thenBranch →
      unit.HasGroups elseBranch → ∀ child ∈ (ExprKind.ifElse cond thenBranch elseBranch).children,
        unit.HasGroups child := by
    intro unit condVisited thenVisited elseVisited child member
    obtain ⟨listed, _⟩ := List.mem_filter.mp member
    simp only [List.mem_cons, List.not_mem_nil, or_false] at listed
    rcases listed with rfl | rfl | rfl
    · exact condVisited
    · exact thenVisited
    · exact elseVisited
  unfold node
  refine Works.bind (visits cond (present (by simp)) locals work (refl_of _ _)) ?_
  rintro condType _ first led _ ⟨condHere, condVisited⟩
  refine Works.bind
    (Works.lift (spanOf_works (required_filled ready found (by simp [ExprKind.required]) led)))
    fun span _ second toSecond soundSecond _ => ?_
  refine Works.bind
    (Works.lift (StageM.Works.asks (expect_asks (soundSecond.valid.has_primitive rfl)
    ((toSecond.growth soundSecond).has condHere) span))) fun _ locals third toThird _ _ => ?_
  have upToThird := trans_of (Leads Records) led (trans_of _ toSecond toThird)
  refine Works.bind (visits thenBranch (present (by simp)) locals third upToThird) ?_
  rintro thenType locals fourth toFourth soundFourth ⟨thenHere, thenVisited⟩
  have upToFourth := trans_of _ upToThird toFourth
  have condFourth :=
    condVisited.keep (trans_of (Leads Records) toSecond (trans_of _ toThird toFourth)).unit.evolves
  split
  · rename_i missing
    exact Works.pure (.plain found nofun upToFourth (soundFourth.valid.has_primitive rfl)
      (slots condFourth thenVisited (missing ▸ fourth.unit.hasGroups_missing)))
  · refine Works.bind (visits elseBranch (present (by simp)) locals fourth upToFourth) ?_
    rintro elseType _ fifth toFifth soundFifth ⟨elseHere, elseVisited⟩
    refine (Works.lift (StageM.Works.asks (join_asks ((toFifth.growth soundFifth).has thenHere)
      elseHere))).mono fun result after last _ resultHere => ?_
    have toEnd := trans_of (Leads Records) toFifth last
    exact .plain found nofun (trans_of _ upToFourth toEnd) resultHere
      (slots (condFourth.keep toEnd.unit.evolves) (thenVisited.keep toEnd.unit.evolves)
        (elseVisited.keep last.unit.evolves))

theorem matchOn_covers {scrutinee : ExprRef} {branches : List MatchArm} (ready : work.Ready total)
    (found : work.unit.arena.exprs[index]? = some ⟨.matchOn scrutinee branches, span⟩)
    (visits : VisitsSlots total resolve work (.matchOn scrutinee branches)) :
    BodyM.Works total (node site resolve index ⟨.matchOn scrutinee branches, span⟩) locals work
      (Covers index (.matchOn scrutinee branches)) := by
  refine Works.ofSound fun sound => ?_
  unfold node
  refine Works.bind (visits scrutinee (by simp [ExprKind.children]) locals work (refl_of _ _)) ?_
  rintro subject locals first led soundFirst ⟨subjectHere, visited⟩
  have inArena : total → ∀ arm ∈ branches, arm.pattern < first.unit.arena.patterns.size := by
    intro sure arm member
    rw [led.unit.arena]
    exact (ready.arena sure).armPatterns index scrutinee branches span found arm member
  have bodies : ∀ arm ∈ branches, Visits total resolve first arm.body := by
    intro arm member locals later more
    refine visits arm.body (fun _ => ?_) locals later (trans_of _ led more)
    exact List.mem_cons_of_mem _ (List.mem_map_of_mem member)
  refine Works.bind (arms_works (ready.led sound.valid led soundFirst led.unit.arena)
    soundFirst.valid subjectHere branches none locals first (refl_of _ _) (by simp) inArena bodies)
    ?_
  rintro ⟨typed, result⟩ _ second toSecond soundSecond ⟨armsTyped, resultHere, armsVisited⟩
  have whole := trans_of _ led toSecond
  refine Works.bind
    (Works.lift (recordArms_works ((toSecond.growth soundSecond).has subjectHere) armsTyped
    (whole.unit.arena ▸ found))) ?_
  rintro _ _ third toThird soundThird recorded
  refine Works.pure ⟨?_, fun _ => recorded, fun child member => ?_⟩
  · cases result with
    | none => exact soundThird.valid.has_primitive rfl
    | some type => exact (toThird.growth soundThird).has (resultHere type rfl)
  · rcases List.mem_cons.mp member with rfl | inArms
    · exact (visited.keep toSecond.unit.evolves).keep toThird.unit.evolves
    · obtain ⟨arm, present, rfl⟩ := List.mem_map.mp inArms
      exact (armsVisited arm present).keep toThird.unit.evolves

theorem letIn_covers {name : Name} {written : TypeExpr} {init : ExprRef} (ready : work.Ready total)
    (held : site.HeldBy work.pool)
    (found : work.unit.arena.exprs[index]? = some ⟨.letIn name written init, span⟩)
    (visits : VisitsSlots total resolve work (.letIn name written init)) :
    BodyM.Works total (node site resolve index ⟨.letIn name written init, span⟩) locals work
      (Covers index (.letIn name written init)) := by
  unfold node
  refine Works.bind (visits init (by simp [ExprKind.children]) locals work (refl_of _ _)) ?_
  rintro initType locals first led soundFirst ⟨initHere, visited⟩
  have declaring : ∀ {declared : TypeRef} {locals : Locals} {second : Workspace},
      first.Leads Records second → second.pool.Has declared → BodyM.Works total (do
        modify ((name, declared) :: ·)
        return .void : BodyM TypeRef) locals second (Covers index (.letIn name written init)) :=
    fun more inPool => declare_works inPool fun soundSecond =>
      .plain found nofun (trans_of _ led more) (soundSecond.valid.has_primitive rfl)
        (by simpa [ExprKind.children] using visited.keep more.unit.evolves)
  have checking : BodyM.Works total (do
      let declared ← site.resolve written
      expect declared initType (← spanOf init)
      modify ((name, declared) :: ·)
      return .void : BodyM TypeRef) locals first (Covers index (.letIn name written init)) := by
    have scope := (held.grow (led.growth soundFirst)).scope
    refine Works.bind (Works.lift (TypeSite.resolve_works written first scope)) ?_
    rintro declared _ second toSecond soundSecond ⟨⟨declaredHere, _⟩, _⟩
    refine Works.bind (Works.lift (spanOf_works (required_filled ready found (by
      simp [ExprKind.required, ExprKind.children]) (trans_of _ led toSecond))))
      fun span _ third toThird soundThird _ => ?_
    have growth := toThird.growth soundThird
    refine Works.bind (Works.lift (StageM.Works.asks (expect_asks (growth.has declaredHere)
      (growth.has ((toSecond.growth soundSecond).has initHere)) span)))
      fun _ locals fourth toFourth soundFourth _ => ?_
    exact declaring (trans_of _ toSecond (trans_of _ toThird toFourth))
      ((toFourth.growth soundFourth).has (growth.has declaredHere))
  cases written with
  | infer => exact declaring (refl_of _ _) initHere
  | _ => exact checking

/-- The type of one node, when its slots can be resolved. -/
theorem node_works (ready : work.Ready total) (held : site.HeldBy work.pool)
    (found : work.unit.arena.exprs[index]? = some ⟨kind, span⟩)
    (visits : VisitsSlots total resolve work kind) :
    BodyM.Works total (node site resolve index ⟨kind, span⟩) locals work (Covers index kind) := by
  refine Works.ofSound fun sound => ?_
  cases kind with
  | literal value =>
    exact Works.pure (.plain found nofun (refl_of _ _)
      (sound.valid.has_primitive (by cases value <;> rfl)) (by simp [ExprKind.children]))
  | ident name =>
    refine Works.get fun localsHere => (Works.lift (ident_works held localsHere name)).mono ?_
    exact fun type after led _ inPool => .plain found nofun led inPool (by simp [ExprKind.children])
  | this =>
    exact Works.pure (.plain found nofun (refl_of _ _) held.classType (by simp [ExprKind.children]))
  | error =>
    exact Works.pure
      (.plain found nofun (refl_of _ _) sound.valid.has_any (by simp [ExprKind.children]))
  | field receiver name =>
    refine Works.bind (visits receiver (by simp [ExprKind.children]) locals work (refl_of _ _)) ?_
    rintro type _ first led _ ⟨inPool, visited⟩
    refine (Works.lift (field_works inPool name)).mono fun result after more _ resultHere => ?_
    refine .plain found nofun (trans_of _ led more) resultHere ?_
    simpa [ExprKind.children] using visited.keep more.unit.evolves
  | new type args =>
    refine Works.bind (forM_works args locals work (refl_of _ _) fun arg member =>
      visits arg fun _ => member) fun _ _ first led soundFirst visited => ?_
    refine (Works.lift (newInstance_works (held.grow (led.growth soundFirst)) type)).mono ?_
    intro result after more _ resultHere
    exact .plain found nofun (trans_of _ led more) resultHere
      fun child member => (visited child member).keep more.unit.evolves
  | block list =>
    have resolving := items_works list .void locals work (refl_of _ _)
      (sound.valid.has_primitive rfl) fun item member => visits item fun _ => member
    refine (Works.withScope resolving).mono ?_
    rintro type after led _ ⟨inPool, visited⟩
    exact .plain found nofun led inPool visited
  | call => exact call_covers held found visits
  | binary => exact binary_covers ready found visits
  | unary => exact unary_covers ready found visits
  | ifElse => exact ifElse_covers ready found visits
  | matchOn => exact matchOn_covers ready found visits
  | letIn => exact letIn_covers ready held found visits

end

/-- A node of the arena is read. -/
theorem readExpr_works {index : Nat} (inside : total → index < work.unit.arena.size) :
    StageM.Works total (Leads Records) (StageM.inspect (·.unit.arena.expr (.node index))) work
      fun expr after => work = after ∧ work.unit.arena.exprs[index]? = some expr :=
  StageM.Works.answer (fun sure => ⟨_, Arena.expr_eq (Array.getElem?_eq_getElem (inside sure))⟩)
    fun _ read => ⟨rfl, Arena.lookup_of_expr read⟩

theorem arenaSize_works : StageM.Works total (Leads Records)
    (StageM.inspect fun work => Except.ok work.unit.arena.size) work fun size after =>
      work = after ∧ size = work.unit.arena.size :=
  StageM.Works.answer (fun _ => ⟨_, rfl⟩) fun size read => by
    cases read
    exact ⟨rfl, rfl⟩

/-- The type of an expression is recorded. -/
theorem recordType_works {index : Nat} {type : TypeRef} (held : work.pool.Has type) :
    StageM.Works total (Leads Records)
      (StageM.modifyUnit fun unit => { unit with exprTypes := unit.exprTypes.insert index type })
      work fun _ after =>
        after =
          { work with
            unit := { work.unit with exprTypes := work.unit.exprTypes.insert index type } } := by
  refine StageM.Works.ofSound fun sound =>
    StageM.Works.record ⟨rfl, .refl _, fun _ isSome => isSome⟩
      { sound.recorded with types := fun other recorded read => ?_ }
  rw [IdMap.get?_insert] at read
  split at read
  · cases read
    exact held
  · exact sound.recorded.types other recorded read

/-- The expression is read, its type is recorded, and every match below gets a group. -/
theorem resolveWithin_works {arena : Arena} {rank : Nat → Nat}
    (lowers : total → ∀ parent child, arena.HasChild parent child →
      child < arena.size ∧ rank child < rank parent) :
    ∀ (depth : Nat) (ref : ExprRef) (locals : Locals) (work : Workspace),
      work.unit.arena = arena → work.Ready total → site.HeldBy work.pool →
      (total → ∀ index, ref = .node index → index < arena.size ∧ rank index < depth) →
      BodyM.Works total (resolveWithin site depth ref) locals work fun type after =>
        after.pool.Has type ∧ after.unit.HasGroups ref
  | depth, .missing, locals, work, _, _, _, _ => by
    unfold resolveWithin
    exact Works.ofSound fun sound =>
      Works.pure ⟨sound.valid.has_primitive rfl, work.unit.hasGroups_missing⟩
  | 0, .node index, _, _, _, _, _, deep => by
    refine fun _ => StageM.Works.fails fun sure => ?_
    exact absurd (deep sure index rfl).2 (Nat.not_lt_zero _)
  | depth + 1, .node index, locals, work, inArena, ready, held, deep => by
    refine Works.ofSound fun sound => ?_
    refine Works.bind (Works.lift (readExpr_works fun sure => inArena ▸ (deep sure index rfl).1)) ?_
    rintro expr locals _ _ _ ⟨rfl, found⟩
    have visits : VisitsSlots total (resolveWithin site depth) work expr.kind := by
      intro ref child locals later led
      refine Works.ofSound fun soundLater => ?_
      refine resolveWithin_works lowers depth ref locals later (led.unit.arena.trans inArena)
        (ready.led sound.valid led soundLater led.unit.arena) (held.grow (led.growth soundLater))
        fun sure position same => ?_
      subst same
      obtain ⟨inside, lower⟩ := lowers sure index position ⟨expr, inArena ▸ found, child rfl⟩
      exact ⟨inside, Nat.lt_of_lt_of_le lower (Nat.le_of_lt_succ (deep sure index rfl).2)⟩
    refine Works.bind (node_works ready held found visits) ?_
    rintro type _ after led soundAfter covers
    refine Works.bind (Works.lift (recordType_works covers.here)) ?_
    rintro _ _ _ recording _ rfl
    refine Works.pure ⟨covers.here, ?_⟩
    exact (hasGroups_node (led.unit.arena ▸ found) covers.own covers.below).keep
      recording.unit.evolves

/-- Resolving a slot of the arena. -/
theorem resolve_works (ready : work.Ready total) (held : site.HeldBy work.pool) {ref : ExprRef}
    (inside : total → ∃ index < work.unit.arena.size, ref = .node index) :
    BodyM.Works total (resolve site ref) locals work fun type after =>
      after.pool.Has type ∧ after.unit.HasGroups ref := by
  refine Works.bind (Works.lift arenaSize_works) ?_
  rintro _ locals _ _ _ ⟨rfl, rfl⟩
  by_cases sure : total
  · obtain ⟨index, below, rfl⟩ := inside sure
    have wellFormed := ready.arena sure
    obtain ⟨rank, bounded, lowers⟩ := wellFormed.acyclic.exists_rank_below wellFormed.children
    refine resolveWithin_works (fun _ parent child step => ⟨wellFormed.children parent child step,
      lowers parent child step⟩) _ _ locals work rfl ready held fun _ other same => ?_
    cases same
    exact ⟨below, Nat.lt_succ_of_lt (bounded index below)⟩
  · have never : total → ∀ parent child, work.unit.arena.HasChild parent child →
        child < work.unit.arena.size ∧ 0 < 0 := fun holds => absurd holds sure
    exact resolveWithin_works never _ ref locals work rfl ready held fun holds => absurd holds sure

end BodyM

namespace StageM
open TypePool Workspace CompilationUnit

variable {total : Prop} {work : Workspace} {id : Nat} {member : Member}

theorem resolveAnnotationUse_asks (entry : AnnotationUse) :
    Asks total (resolveAnnotationUse entry) work fun _ _ => True := by
  have unknown : Asks total (do
      report { code := .unknownAnnotationClass, span := entry.span, args := [entry.name] }
      return entry : StageM AnnotationUse) work fun _ _ => True :=
    Works.bind (Works.report rfl) fun _ _ _ _ _ => Works.pure trivial
  unfold resolveAnnotationUse
  split
  · exact Works.pure trivial
  · refine Works.get ?_
    dsimp only
    split
    · split
      · exact Works.pure trivial
      · exact unknown
    · exact unknown

/-- What the second stage leaves of a member: it stands where it stood and has the types it had. -/
structure Keeps (before after : Workspace) (id : Nat) (member later : Member) : Prop where
  members : after.unit.members = before.unit.members.set id later
  follows : member.Follows later
  progress : later.progress = member.progress
  typed : ∀ pool, member.Typed pool → later.Typed pool

theorem Keeps.present {before after : Workspace} {later : Member}
    (kept : Keeps before after id member later)
    (found : before.unit.members.members[id]? = some member) :
    after.unit.members.members[id]? = some later := by
  rw [kept.members, MemberArena.lookup_set found, if_pos rfl]

theorem Keeps.unitTyped {before after : Workspace} {later : Member}
    (kept : Keeps before after id member later)
    (found : before.unit.members.members[id]? = some member) (typed : before.unit.Typed before.pool)
    (within : before.pool.Within after.pool) : after.unit.Typed after.pool := by
  intro other entry read
  rw [kept.members, MemberArena.lookup_set found] at read
  split at read
  · cases read
    exact kept.typed _ ((typed id member found).grow within)
  · exact (typed other entry read).grow within

/-- A body stands in the scope of its member, in a class with a type. -/
theorem bodySite_held (sound : work.Sound) (typed : work.unit.Typed work.pool)
    (present : work.unit.members.members[id]? = some member) {top : Nat} {class_ : Member}
    (there : work.unit.members.members[top]? = some class_) (className : Name) (suppress : Bool) :
    BodySite.HeldBy
      { scope := work.unit.scopeOf member, member := id, className,
        classType := class_.type, suppress }
      work.pool :=
  ⟨sound.laid.scope_declared present, (typed top class_ there).type⟩

/-- A body starts with the parameters of its member. -/
theorem params_held (typed : work.unit.Typed work.pool)
    (present : work.unit.members.members[id]? = some member) :
    Locals.HeldBy (member.params.map fun param => (param.name, param.type)).reverse work.pool := by
  intro entry bound
  obtain ⟨param, listed, rfl⟩ := List.mem_map.mp (List.mem_reverse.mp bound)
  exact (typed id member present).params param listed

theorem resolveAnnotations_works (found : work.unit.members.members[id]? = some member) :
    Works total (Leads Evolves) (resolveAnnotations id) work fun _ after =>
      ∃ later, Keeps work after id member later := by
  refine Works.inspect (fun _ => ⟨member, MemberArena.get_eq found⟩) fun read same => ?_
  rw [MemberArena.get_eq found] at same
  cases same
  have annotating : ∀ (entries : List AnnotationUse) (between : Workspace),
      Asks total (entries.mapM resolveAnnotationUse) between fun _ _ => True := fun _ _ =>
    (Works.mapM (fun _ _ _ _ _ known => known) fun entry _ _ _ _ =>
      resolveAnnotationUse_asks entry).mono fun _ _ _ _ _ => trivial
  have setting : ∀ (annotations : List AnnotationUse) (detail : MemberDetail) (between : Workspace),
      between.unit = work.unit → member.Follows { member with annotations, detail } →
      (∀ pool, member.Typed pool → Member.Typed { member with annotations, detail } pool) →
      Works total (Leads Evolves) (setMember id { member with annotations, detail }) between
        fun _ after => ∃ later, Keeps work after id member later := by
    intro annotations detail between same follows typed
    refine (Works.setMember (same ▸ found) follows).mono ?_
    rintro _ after _ _ rfl
    exact ⟨_, by rw [same], follows, rfl, typed⟩
  refine Works.bind (Works.asking (annotating member.annotations work)) ?_
  rintro annotations first _ _ ⟨sameUnit, _⟩
  dsimp only
  cases detail : member.detail with
  | method typeParams params body =>
    have each : Asks total (params.mapM fun param => do
        return { param with annotations := ← param.annotations.mapM resolveAnnotationUse }) first
        fun results _ => ∀ result ∈ results, ∃ param ∈ params, result.type = param.type := by
      refine Works.mapM (fun _ _ _ _ _ answers => answers) fun param present between _ _ => ?_
      exact Works.bind (annotating param.annotations between)
        fun _ _ _ _ _ => Works.pure ⟨param, present, rfl⟩
    refine Works.bind (Works.asking each) ?_
    rintro results second _ _ ⟨sameAgain, types⟩
    refine setting annotations _ second (sameAgain.trans sameUnit) ?_ fun pool typed => ?_
    · constructor <;> simp [Member.typeParams, Member.members, Member.body, detail]
    · refine ⟨typed.type, fun result present => ?_, by simp [Member.supertypes]⟩
      obtain ⟨param, listed, same⟩ := types result present
      rw [same]
      exact typed.params param (by simpa [Member.params, detail] using listed)
  | field init | class_ =>
    refine setting annotations _ first sameUnit ?_ fun pool typed => ⟨typed.type, ?_, ?_⟩
    · constructor <;> simp [Member.typeParams, Member.members, Member.body, detail]
    · simp [Member.params]
    · have above := typed.supertypes
      simp only [Member.supertypes, detail] at above ⊢
      exact above

/-- The second stage on one member. -/
theorem resolveBody_works (found : work.unit.members.members[id]? = some member)
    (typed : work.unit.Typed work.pool) (ready : work.Ready total)
    (inside : total → member.BodyIn work.unit.arena) :
    Works total (Leads Evolves) (resolveBody id) work fun _ after =>
      ∃ later, Keeps work after id member later ∧
        ∀ body ∈ member.body, after.unit.HasGroups body := by
  refine Works.ofSound fun soundStart => ?_
  refine Works.bind (resolveAnnotations_works found) ?_
  rintro _ first led sound ⟨later, kept⟩
  have present := kept.present found
  have typedFirst := kept.unitTyped found typed (led.growth sound).within
  refine Works.get ?_
  refine Works.lift (fun _ => ⟨later, MemberArena.get_eq present⟩) fun read same => ?_
  rw [MemberArena.get_eq present] at same
  cases same
  unfold Member.BodyIn at inside
  rw [← kept.follows.body] at inside ⊢
  cases hasBody : later.body with
  | none => exact Works.pure ⟨later, kept, by simp⟩
  | some body =>
    obtain ⟨top, class_, reached, there⟩ := sound.laid.classOf_eq present
    refine Works.lift (fun _ => ⟨class_, reached⟩) fun read same => ?_
    rw [reached] at same
    cases same
    refine Works.lift (fun _ => ⟨_, sound.laid.forMember_eq present⟩) fun scope same => ?_
    rw [sound.laid.forMember_eq present] at same
    cases same
    have readyFirst := ready.led soundStart.valid led sound led.unit.arena
    have resolving := BodyM.resolve_works readyFirst
      (bodySite_held sound typedFirst present there class_.name
        (later.suppressesWarnings || class_.suppressesWarnings))
      (fun sure => led.unit.arena ▸ inside sure body hasBody) (params_held typedFirst present)
    have records : Works total (Leads Evolves) _ first _ := Works.widen
      (resolving.mono fun _ _ more _ facts => (⟨more, facts.2.2⟩ : first.Leads Records _ ∧ _))
      fun _ more => more.widen fun _ _ => Records.evolves
    refine Works.bind records ?_
    rintro _ after _ _ ⟨more, groups⟩
    refine Works.pure ⟨later, ⟨more.unit.members.trans kept.members, kept.follows, kept.progress,
      kept.typed⟩, fun other same => ?_⟩
    cases same
    exact groups

end StageM
end ClassLang
