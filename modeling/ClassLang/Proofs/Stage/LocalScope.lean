import ClassLang.Proofs.Source.OpenLets
import ClassLang.Proofs.Source.Preorder
import ClassLang.Proofs.Stage.Bodies
import ClassLang.Proofs.Stage.ConfinedBodies

/-! The locals of a body are balanced. An expression puts on them what the lets bind that are open
to whatever follows it, and leaves what was there before; the lets and patterns inside a block or an
arm are gone with its end. So it makes no difference whether a scope cuts the locals to their old
number or puts the old ones back. -/

namespace ClassLang

/-- What the let at a position puts on the locals: its name, with the type that is written, else
with the type of what it is initialized with. That type is found in some state that resolving the
body can reach, and it stays recorded for the initializer unless the initializer is visited
again. -/
inductive BodySite.Binds (site : BodySite) (start : Workspace) (nodes : List Nat)
    (types : IdMap TypeRef) : Nat → Name × TypeRef → Prop where
  | inferred {index depth : Nat} {name : Name} {init : ExprRef} {span : Span} {type : TypeRef}
      {locals later : Locals} {before after : Workspace}
      (found : start.unit.arena.exprs[index]? = some ⟨.letIn name .infer init, span⟩)
      (reached : start.Spares .resolve site.member before)
      (ran : ((BodyM.resolveWithin site depth init).run locals).run before =
        .ok ((type, later), after))
      (recorded : ∀ child, init = .node child →
        child ∈ nodes ∧ (nodes.count child = 1 → types.get? child = some type)) :
      site.Binds start nodes types index (name, type)
  | declared {index : Nat} {name : Name} {written : TypeExpr} {init : ExprRef} {span : Span}
      {type : TypeRef} {before after : Workspace}
      (found : start.unit.arena.exprs[index]? = some ⟨.letIn name written init, span⟩)
      (given : written ≠ .infer) (reached : start.Spares .resolve site.member before)
      (ran : (site.resolve written).run before = .ok (type, after)) :
      site.Binds start nodes types index (name, type)

/-- What was bound before more nodes are visited. -/
theorem BodySite.Binds.keep {site : BodySite} {start : Workspace} {nodes all : List Nat}
    {types later : IdMap TypeRef} {position : Nat} {entry : Name × TypeRef}
    (binds : site.Binds start nodes types position entry) (fewer : nodes.Sublist all)
    (kept : ∀ node ∈ nodes, all.count node = 1 → later.get? node = types.get? node) :
    site.Binds start all later position entry := by
  cases binds with
  | declared found given reached ran => exact .declared found given reached ran
  | inferred found reached ran recorded =>
    refine .inferred found reached ran fun child same => ?_
    obtain ⟨listed, stored⟩ := recorded child same
    refine ⟨fewer.subset listed, fun single => ?_⟩
    have atMost := fewer.count_le child
    have atLeast := List.one_le_count_iff.mpr listed
    rw [kept child listed single]
    exact stored (by omega)

/-- The locals have become more by what the lets bind, the last of them innermost, while some nodes
were visited. -/
def BodySite.Pushed (site : BodySite) (start : Workspace) (nodes : List Nat)
    (types : IdMap TypeRef) (lets : Except Abort (List Nat)) (before after : Locals) : Prop :=
  ∃ positions added, lets = .ok positions ∧
    List.Forall₂ (site.Binds start nodes types) positions added ∧ after = added.reverse ++ before

namespace BodySite.Pushed
variable {site : BodySite} {start : Workspace} {nodes others : List Nat}
  {types later : IdMap TypeRef} {lets first second : Except Abort (List Nat)}
  {before between after locals : Locals}

theorem nothing : site.Pushed start nodes types (.ok []) locals locals := ⟨[], [], rfl, .nil, rfl⟩

theorem eq_of_nothing (pushed : site.Pushed start nodes types (.ok []) before after) :
    after = before := by
  obtain ⟨_, _, same, binds, rfl⟩ := pushed
  cases same
  cases binds
  rfl

theorem suffix (pushed : site.Pushed start nodes types lets before after) : before <:+ after := by
  obtain ⟨_, added, _, _, rfl⟩ := pushed
  exact ⟨added.reverse, rfl⟩

theorem keep {all : List Nat} (pushed : site.Pushed start nodes types lets before after)
    (fewer : nodes.Sublist all)
    (kept : ∀ node ∈ nodes, all.count node = 1 → later.get? node = types.get? node) :
    site.Pushed start all later lets before after := by
  obtain ⟨positions, added, read, binds, same⟩ := pushed
  exact ⟨positions, added, read, binds.imp fun _ _ binding => binding.keep fewer kept, same⟩

/-- The nodes in front are visited first. -/
theorem trans (former : site.Pushed start nodes types first before between)
    (untouched : ∀ node, node ∉ others → later.get? node = types.get? node)
    (latter : site.Pushed start others later second between after)
    (joins : ∀ earlier more, first = .ok earlier → second = .ok more →
      lets = .ok (earlier ++ more)) :
    site.Pushed start (nodes ++ others) later lets before after := by
  have front := former.keep (List.sublist_append_left nodes others) fun node listed single =>
    untouched node fun again => by
      have once := List.one_le_count_iff.mpr listed
      have twice := List.one_le_count_iff.mpr again
      rw [List.count_append] at single
      omega
  have back := latter.keep (List.sublist_append_right nodes others) fun _ _ _ => rfl
  obtain ⟨earlier, old, read, bindsOld, rfl⟩ := front
  obtain ⟨more, new, readNew, bindsNew, rfl⟩ := back
  refine ⟨earlier ++ more, old ++ new, joins earlier more read readNew,
    List.rel_append bindsOld bindsNew, ?_⟩
  rw [List.reverse_append, List.append_assoc]

end BodySite.Pushed

/-- Visiting slots records types for their nodes only, and puts on the locals what the lets bind. -/
def BodySite.Opens (site : BodySite) (start : Workspace) (slots : List ExprRef)
    (lets : Except Abort (List Nat)) (locals : Locals) (work : Workspace) (later : Locals)
    (after : Workspace) : Prop :=
  ∃ nodes, start.unit.arena.Unrolled slots nodes ∧
    (∀ node, node ∉ nodes → after.unit.exprTypes.get? node = work.unit.exprTypes.get? node) ∧
    site.Pushed start nodes after.unit.exprTypes lets locals later

namespace BodySite.Opens
variable {site : BodySite} {start work middle after : Workspace} {slots more : List ExprRef}
  {lets first second : Except Abort (List Nat)} {locals between later : Locals}

/-- No slot was visited. -/
theorem still (same : after.unit.exprTypes = work.unit.exprTypes) :
    site.Opens start [] (.ok []) locals work locals after :=
  ⟨[], .nil, fun _ _ => by rw [same], .nothing⟩

theorem trans (former : site.Opens start slots first locals work between middle)
    (latter : site.Opens start more second between middle later after)
    (joins : ∀ earlier more, first = .ok earlier → second = .ok more →
      lets = .ok (earlier ++ more)) :
    site.Opens start (slots ++ more) lets locals work later after := by
  obtain ⟨nodes, unrolled, kept, pushed⟩ := former
  obtain ⟨others, unrolledMore, keptMore, pushedMore⟩ := latter
  refine ⟨nodes ++ others, unrolled.append unrolledMore, fun node outside => ?_,
    pushed.trans keptMore pushedMore joins⟩
  rw [List.mem_append, not_or] at outside
  exact (keptMore node outside.2).trans (kept node outside.1)

/-- The lets that were opened are closed again. -/
theorem closed (opens : site.Opens start slots lets locals work later after) :
    site.Opens start slots (.ok []) locals work locals after := by
  obtain ⟨nodes, unrolled, kept, -⟩ := opens
  exact ⟨nodes, unrolled, kept, .nothing⟩

theorem suffix (opens : site.Opens start slots lets locals work later after) :
    locals <:+ later := by
  obtain ⟨_, _, _, pushed⟩ := opens
  exact pushed.suffix

end BodySite.Opens

namespace Locals
variable {locals : Locals} {name : Name} {type : TypeRef}

/-- The innermost entry of the name has the type. -/
def Innermost (locals : Locals) (name : Name) (type : TypeRef) : Prop :=
  ∃ inner outer, locals = inner ++ (name, type) :: outer ∧ ∀ entry ∈ inner, entry.1 ≠ name

/-- A name that the locals have is resolved to a local. What is resolved to a local is that name,
with the type of its innermost entry. -/
def Decides (locals : Locals) (name : Name) (type : TypeRef)
    (resolution : Option Resolution) : Prop :=
  (name ∈ locals.map Prod.fst → resolution = some (.local_ name)) ∧
    ∀ bound, resolution = some (.local_ bound) → bound = name ∧ locals.Innermost name type

theorem innermost_of_lookup (found : locals.lookup name = some type) :
    locals.Innermost name type := by
  obtain ⟨inner, outer, rfl, apart⟩ := List.lookup_eq_some_iff.mp found
  exact ⟨inner, outer, rfl, fun entry member same => by simpa [same] using apart entry member⟩

theorem decides_of_lookup (found : locals.lookup name = some type) :
    locals.Decides name type (some (.local_ name)) := by
  refine ⟨fun _ => rfl, fun bound same => ?_⟩
  cases same
  exact ⟨rfl, innermost_of_lookup found⟩

theorem decides_of_lookup_none {resolution : Resolution} (unknown : locals.lookup name = none)
    (other : ∀ bound, resolution ≠ .local_ bound) : locals.Decides name type (some resolution) := by
  refine ⟨fun member => ?_, fun bound same => absurd (Option.some.inj same) (other bound)⟩
  obtain ⟨entry, listed, same⟩ := List.mem_map.mp member
  have apart := List.lookup_eq_none_iff.mp unknown entry listed
  simp [same] at apart

end Locals

namespace Locals
variable {inner locals : Locals}

@[simp] theorem truncate_append : Locals.truncate (inner ++ locals) locals.length = locals := by
  simp [truncate]

/-- Cutting to the number of the old locals gives the old locals, if they are still there. -/
theorem truncate_of_suffix {later : Locals} (kept : locals <:+ later) :
    later.truncate locals.length = locals := by
  obtain ⟨inner, rfl⟩ := kept
  exact truncate_append

end Locals

/-- What resolving an expression leaves of the locals. -/
structure BodySite.Balanced (site : BodySite) (depth index : Nat) (locals : Locals)
    (work : Workspace) (result : TypeRef × Locals) (after : Workspace) : Prop where
  pushed : site.Opens work [.node index] (work.unit.arena.openLetsWithin depth (.node index))
    locals work result.2 after
  block : ∀ items span, work.unit.arena.exprs[index]? = some ⟨.block items, span⟩ →
    result.2 = locals
  matchOn : ∀ scrutinee arms span,
    work.unit.arena.exprs[index]? = some ⟨.matchOn scrutinee arms, span⟩ →
      site.Opens work [.node index] (work.unit.arena.openLetsWithin depth scrutinee)
        locals work result.2 after
  ident : ∀ name span, work.unit.arena.exprs[index]? = some ⟨.ident name, span⟩ →
    result.2 = locals ∧ after.unit.exprTypes.get? index = some result.1 ∧
      locals.Decides name result.1 (after.unit.resolutions.get? index)

namespace BodyM
variable {site : BodySite} {start : Workspace} {lets : Except Abort (List Nat)} {depth : Nat}
  {slots more refs others : List ExprRef}

/-- Wherever the action ends, it has visited the slots and put what the lets bind on the locals. -/
def Pushes (site : BodySite) (start : Workspace) (slots : List ExprRef)
    (lets : Except Abort (List Nat)) (action : BodyM α) : Prop :=
  ∀ locals work, start.Spares .resolve site.member work →
    Ensures (action.run locals) work fun result after =>
      start.Spares .resolve site.member after ∧
        site.Opens start slots lets locals work result.2 after

/-- `Pushes` when every let of the slots stays open. -/
abbrev PushesAll (site : BodySite) (start : Workspace) (depth : Nat) (refs : List ExprRef)
    (action : BodyM α) : Prop :=
  Pushes site start refs (start.unit.arena.openLetsOf depth refs) action

namespace Pushes

theorem pure {value : α} : Pushes site start [] (.ok []) (Pure.pure value : BodyM α) :=
  fun _ _ reached => Ensures.pure ⟨reached, .still rfl⟩

/-- An action that does not look at the locals, and records no types. -/
theorem lift {action : StageM α} (confined : StageM.Confined .resolve site.member action)
    (quiet : ∀ work, Ensures action work fun _ after =>
      after.unit.exprTypes = work.unit.exprTypes) :
    Pushes site start [] (.ok []) (liftM action : BodyM α) := by
  intro locals work reached result after ran
  obtain ⟨⟨value, between⟩, lifted, same⟩ := Except.bind_eq_ok ran
  cases same
  exact ⟨reached.trans ((confined work).2 _ _ lifted).1, .still (quiet work _ _ lifted)⟩

/-- An action of every stage. -/
theorem step {action : StageM α} (confined : ∀ stage, StageM.Confined stage site.member action) :
    Pushes site start [] (.ok []) (liftM action : BodyM α) :=
  lift (confined .resolve) fun work result after ran =>
    ((confined .resolveTypes work).2 result after ran).1.unit.exprTypes nofun nofun

theorem get : Pushes site start [] (.ok []) (MonadState.get : BodyM Locals) :=
  fun _ _ reached => Ensures.pure ⟨reached, .still rfl⟩

/-- Two actions in a row, when what they add makes up the whole. -/
theorem seq {first second : Except Abort (List Nat)} {action : BodyM α} {next : α → BodyM β}
    (joins : ∀ earlier later, first = .ok earlier → second = .ok later →
      lets = .ok (earlier ++ later))
    (done : Pushes site start slots first action)
    (rest : ∀ value, Pushes site start more second (next value)) :
    Pushes site start (slots ++ more) lets (action >>= next) := by
  intro locals work reached
  rw [StateT.run_bind]
  refine Ensures.bind fun result between ran => ?_
  obtain ⟨later, opens⟩ := done locals work reached result between ran
  refine (rest result.1 result.2 between later).mono ?_
  exact fun _ _ ends => ⟨ends.1, opens.trans ends.2 joins⟩

theorem bind {action : BodyM α} {next : α → BodyM β} (done : PushesAll site start depth refs action)
    (rest : ∀ value, PushesAll site start depth others (next value)) :
    PushesAll site start depth (refs ++ others) (action >>= next) :=
  seq (fun _ _ => Arena.openLetsOf_append) done rest

/-- What comes before leaves no let open. -/
theorem after {action : BodyM α} {next : α → BodyM β}
    (done : Pushes site start slots (.ok []) action)
    (rest : ∀ value, Pushes site start more lets (next value)) :
    Pushes site start (slots ++ more) lets (action >>= next) :=
  seq (fun _ _ nothing all => by cases nothing; exact all) done rest

/-- What comes behind leaves no let open. -/
theorem before {action : BodyM α} {next : α → BodyM β} (done : Pushes site start slots lets action)
    (rest : ∀ value, Pushes site start more (.ok []) (next value)) :
    Pushes site start (slots ++ more) lets (action >>= next) :=
  seq (fun _ _ all nothing => by cases nothing; rwa [List.append_nil]) done rest

/-- What comes behind visits nothing. -/
theorem ending {action : BodyM α} {next : α → BodyM β} (done : Pushes site start slots lets action)
    (rest : ∀ value, Pushes site start [] (.ok []) (next value)) :
    Pushes site start slots lets (action >>= next) := by
  have whole := done.before rest
  rwa [List.append_nil] at whole

theorem singleton {ref : ExprRef} {action : BodyM α}
    (done : Pushes site start [ref] (start.unit.arena.openLetsWithin depth ref) action) :
    PushesAll site start depth [ref] action := by
  intro locals work reached
  refine (done locals work reached).mono ?_
  rintro _ _ ⟨later, nodes, unrolled, kept, positions, added, read, binds⟩
  exact ⟨later, nodes, unrolled, kept, positions, added, Arena.openLetsOf_singleton read, binds⟩

/-- What a scope adds does not last. -/
theorem withScope {action : BodyM α} (done : Pushes site start slots lets action) :
    Pushes site start slots (.ok []) (BodyM.withScope action) := by
  intro locals work reached result after ran
  obtain ⟨⟨⟨value, final⟩, _⟩, ended, same⟩ := Except.bind_eq_ok ran
  cases same
  obtain ⟨later, opens⟩ := done locals work reached _ _ ended
  refine ⟨later, ?_⟩
  change site.Opens start slots (.ok []) locals work (final.truncate locals.length) after
  rw [Locals.truncate_of_suffix opens.suffix]
  exact opens.closed

end Pushes

section
variable {resolve : ExprRef → BodyM TypeRef}
  (deeper : ∀ ref,
    Pushes site start [ref] (start.unit.arena.openLetsWithin depth ref) (resolve ref))
include deeper

theorem mapM_pushes : ∀ refs : List ExprRef, PushesAll site start depth refs (refs.mapM resolve)
  | [] => .pure
  | ref :: refs => by
    rw [List.mapM_cons]
    exact .bind (deeper ref).singleton fun _ => .ending (mapM_pushes refs) fun _ => .pure

theorem forM_pushes : ∀ refs : List ExprRef,
    PushesAll site start depth refs (refs.forM fun ref => discard (resolve ref))
  | [] => .pure
  | ref :: refs => by
    have resolving : PushesAll site start depth [ref] (discard (resolve ref)) := by
      change PushesAll _ _ _ _ ((fun _ => ()) <$> resolve ref)
      rw [map_eq_pure_bind]
      exact .ending (deeper ref).singleton fun _ => .pure
    exact .bind resolving fun _ => forM_pushes refs

theorem items_pushes : ∀ (items : List ExprRef) (type : TypeRef),
    PushesAll site start depth items (BodyM.items resolve items type)
  | [], _ => .pure
  | item :: rest, _ => .bind (deeper item).singleton fun type => items_pushes rest type

/-- The names of a pattern and the lets of a body last as long as the arm. -/
theorem armType_pushes (arm : MatchArm) (bound : Locals) (result : Option TypeRef) :
    Pushes site start [arm.body] (.ok []) (armType resolve arm bound result) := by
  have body : Pushes site start [arm.body] (.ok []) (withScope do
      modify (bound.reverse ++ ·)
      resolve arm.body) := by
    intro locals work reached result after ran
    obtain ⟨⟨⟨value, final⟩, _⟩, ended, same⟩ := Except.bind_eq_ok ran
    cases same
    obtain ⟨later, nodes, unrolled, kept, pushed⟩ :=
      deeper arm.body (bound.reverse ++ locals) work reached _ _ ended
    refine ⟨later, nodes, unrolled, kept, ?_⟩
    change site.Pushed start nodes after.unit.exprTypes (.ok []) locals
      (final.truncate locals.length)
    rw [Locals.truncate_of_suffix ((List.suffix_append _ _).trans pushed.suffix)]
    exact .nothing
  refine .ending body fun type => ?_
  cases result with
  | none => exact .pure
  | some previous => exact .step fun _ => join_confined previous type

theorem arms_pushes (subject : TypeRef) : ∀ (arms : List MatchArm) (result : Option TypeRef),
    Pushes site start (arms.map (·.body)) (.ok []) (BodyM.arms resolve subject arms result)
  | [], _ => .pure
  | arm :: rest, result => by
    refine .after (.step fun _ => prepareArm_confined arm subject) fun pattern => ?_
    have body (bound : Locals) : Pushes site start ([arm.body] ++ rest.map (·.body)) (.ok [])
        (armType resolve arm bound result >>= fun joined =>
          BodyM.arms resolve subject rest (some joined) >>= fun later =>
            pure ({ pattern, span := arm.span } :: later.1, later.2)) :=
      .after (armType_pushes deeper arm bound result) fun joined =>
        .ending (arms_pushes subject rest (some joined)) fun _ => .pure
    cases pattern with
    | some typed =>
      have reading (stage : Stage) : StageM.Confined stage site.member
          (StageM.inspect (·.unit.patterns.bindings typed)) :=
        StageM.inspect_confined fun _ => PatternStore.bindingsWithin_orderly _ typed
      exact .after (.step reading) body
    | none => exact .after .pure body

/-- The arguments of a call are visited behind its receiver. -/
theorem call_pushes (index : Nat) (receiver : Option ExprRef) (method : Name) (args : List ExprRef)
    (span : Span) : PushesAll site start depth (receiver.toList ++ args)
      (node site resolve index ⟨.call receiver method args, span⟩) := by
  have rest (type : TypeRef) : PushesAll site start depth args (do
      let args ← args.mapM resolve
      call site index type method args span) :=
    .ending (mapM_pushes deeper args) fun types => .step fun _ =>
      call_confined index type method types span
  cases receiver with
  | some receiver => exact .bind (deeper receiver).singleton rest
  | none => exact .after .pure rest

theorem binary_pushes (index : Nat) (op : BinaryOp) (left right : ExprRef) (span : Span) :
    PushesAll site start depth [left, right]
      (node site resolve index ⟨.binary op left right, span⟩) := by
  refine .bind (deeper left).singleton fun leftType => ?_
  refine .ending (deeper right).singleton fun rightType => ?_
  refine .after (.step fun _ => spanOf_confined right) fun rightSpan => ?_
  refine .after (.step fun _ => spanOf_confined left) fun leftSpan => ?_
  exact .step fun _ => binary_confined op (leftType, leftSpan) (rightType, rightSpan)

theorem ifElse_pushes (index : Nat) (cond thenBranch elseBranch : ExprRef) (span : Span) :
    PushesAll site start depth [cond, thenBranch, elseBranch]
      (node site resolve index ⟨.ifElse cond thenBranch elseBranch, span⟩) := by
  refine .bind (deeper cond).singleton fun condType => ?_
  refine .after (.step fun _ => spanOf_confined cond) fun span => ?_
  refine .after (.step fun _ => expect_confined .bool condType span) fun _ => ?_
  refine .bind (deeper thenBranch).singleton fun thenType => ?_
  split
  · rename_i missing
    rw [missing]
    have empty := Arena.openLetsOf_singleton
      (Arena.openLetsWithin_missing start.unit.arena depth)
    rw [PushesAll, empty]
    exact fun _ _ reached => Ensures.pure ⟨reached, [], .missing .nil, fun _ _ => rfl, .nothing⟩
  · exact .ending (deeper elseBranch).singleton fun elseType =>
      .step fun _ => join_confined thenType elseType

/-- Of a match only the lets of the scrutinee stay open. -/
theorem matchOn_pushes (index : Nat) (scrutinee : ExprRef) (arms : List MatchArm) (span : Span) :
    Pushes site start (scrutinee :: arms.map (·.body))
      (start.unit.arena.openLetsOf depth [scrutinee])
      (node site resolve index ⟨.matchOn scrutinee arms, span⟩) := by
  refine .before (deeper scrutinee).singleton fun subject => ?_
  refine .ending (arms_pushes deeper subject arms none) fun typed => ?_
  refine .ending
    (.lift (StageM.modifyUnit_confined fun unit => { CompilationUnit.Spares.refl unit with
    matchGroups := fun other => absurd rfl other
    grouped := fun _ isSome => IdMap.isSome_insert isSome }) fun work _ _ ran => ?_) fun _ => .pure
  cases ran
  rfl

/-- A node that binds nothing itself adds what its open slots add. -/
theorem slots_pushes (index : Nat) {expr : Expr} (free : expr.kind.isLet = false) :
    Pushes site start expr.kind.children (start.unit.arena.openLetsOf depth expr.kind.openSlots)
      (node site resolve index expr) := by
  obtain ⟨kind, span⟩ := expr
  cases kind with
  | literal | this | error => exact .pure
  | ident name =>
    refine .after .get fun locals => ?_
    refine .step fun _ => ?_
    exact ident_confined locals index name span
  | field receiver name =>
    exact .ending (deeper receiver).singleton fun type =>
      .step fun _ => field_confined index type name span
  | call receiver method args => exact call_pushes deeper index receiver method args span
  | new type args =>
    exact .ending (forM_pushes deeper args) fun _ =>
      .step fun _ => newInstance_confined index type span
  | binary op left right => exact binary_pushes deeper index op left right span
  | unary op operand =>
    refine .ending (deeper operand).singleton fun type => ?_
    refine .after (.step fun _ => spanOf_confined operand) fun span => ?_
    exact .step fun _ => unary_confined op type span
  | ifElse cond thenBranch elseBranch =>
    intro locals work reached
    refine (ifElse_pushes deeper index cond thenBranch elseBranch span locals work reached).mono ?_
    rintro _ _ ⟨later, nodes, unrolled, kept, positions, added, read, binds⟩
    exact ⟨later, nodes, unrolled.present, kept, positions, added,
      Arena.openLetsOf_filter_isPresent read, binds⟩
  | matchOn scrutinee arms => exact matchOn_pushes deeper index scrutinee arms span
  | letIn => cases free
  | block list => exact .withScope (items_pushes deeper list .void)

end

theorem ensures_lift {action : StageM α} {next : α → BodyM β} {locals : Locals} {work : Workspace}
    {post : β × Locals → Workspace → Prop}
    (confined : ∀ stage, StageM.Confined stage site.member action)
    (reached : start.Spares .resolve site.member work)
    (rest : ∀ value later, action.run work = .ok (value, later) →
      start.Spares .resolve site.member later → later.unit.exprTypes = work.unit.exprTypes →
        Ensures ((next value).run locals) later post) :
    Ensures ((liftM action >>= next).run locals) work post := by
  rw [StateT.run_bind]
  refine Ensures.bind fun result after ran => ?_
  obtain ⟨⟨value, later⟩, lifted, same⟩ := Except.bind_eq_ok ran
  cases same
  exact rest value after lifted (reached.trans ((confined .resolve work).2 value after lifted).1)
    (((confined .resolveTypes work).2 value after lifted).1.unit.exprTypes nofun nofun)

theorem ensures_read {index : Nat} {next : Expr → BodyM β} {locals : Locals} {work : Workspace}
    {post : β × Locals → Workspace → Prop}
    (rest : ∀ expr, work.unit.arena.exprs[index]? = some expr →
      Ensures ((next expr).run locals) work post) :
    Ensures ((liftM (StageM.inspect (·.unit.arena.expr (.node index))) >>= next).run locals)
      work post := by
  rw [StateT.run_bind]
  refine Ensures.bind fun result after ran => ?_
  obtain ⟨⟨expr, later⟩, lifted, same⟩ := Except.bind_eq_ok ran
  cases same
  obtain ⟨read, rfl⟩ := StageM.lift_eq_ok lifted
  exact rest expr (Arena.lookup_of_expr read)

/-- What is resolved is recorded with the type it is given. -/
theorem resolveWithin_records (depth child : Nat) (locals : Locals) (work : Workspace) :
    Ensures ((resolveWithin site depth (.node child)).run locals) work fun result after =>
      after.unit.exprTypes.get? child = some result.1 := by
  cases depth with
  | zero => exact fun _ _ ran => nomatch ran
  | succ depth =>
    refine ensures_read fun expr _ result after ran => ?_
    obtain ⟨⟨⟨type, later⟩, between⟩, _, recorded⟩ := Except.bind_eq_ok ran
    cases recorded
    exact (IdMap.get?_insert _ _ _ _).trans (if_pos rfl)

/-- A let adds its own entry behind those of what it is initialized with. -/
theorem letIn_pushes {index : Nat} {name : Name} {type : TypeExpr} {init : ExprRef} {span : Span}
    (deeper : Pushes site start [init] (start.unit.arena.openLetsWithin depth init)
      (resolveWithin site depth init))
    (found : start.unit.arena.exprs[index]? = some ⟨.letIn name type init, span⟩) :
    Pushes site start [init] (start.unit.arena.openLetsWithin (depth + 1) (.node index))
      (node site (resolveWithin site depth) index ⟨.letIn name type init, span⟩) := by
  intro locals work reached
  unfold node
  dsimp only
  rw [StateT.run_bind]
  refine Ensures.bind fun result between ran => ?_
  obtain ⟨middle, nodes, unrolled, kept, positions, added, read, binds, same⟩ :=
    deeper locals work reached result between ran
  -- The entry is known once the type of the let is.
  have pushing : ∀ (entry : TypeRef) (later : Workspace),
      start.Spares .resolve site.member later →
      later.unit.exprTypes = between.unit.exprTypes →
      site.Binds start nodes between.unit.exprTypes index (name, entry) →
      Ensures ((do modify ((name, entry) :: ·); return .void : BodyM TypeRef).run result.2) later
        fun result after => start.Spares .resolve site.member after ∧
          site.Opens start [init] (start.unit.arena.openLetsWithin (depth + 1) (.node index))
            locals work result.2 after := by
    intro entry later reached quiet bound final after ended
    cases ended
    rw [← quiet] at kept binds bound
    refine ⟨reached, nodes, unrolled, kept, positions ++ [index], added ++ [(name, entry)],
      Arena.openLetsWithin_node found (Arena.openLetsOf_singleton read),
      List.rel_append binds (.cons bound .nil), ?_⟩
    rw [List.reverse_append, List.append_assoc, ← same]
    rfl
  split
  · refine pushing result.1 between middle rfl (.inferred found reached ran fun child same => ?_)
    subst same
    refine ⟨unrolled.mem_self, fun _ => resolveWithin_records depth child locals work result _ ran⟩
  · rename_i given
    refine ensures_lift (fun _ => TypeSite.resolve_confined type) middle
      fun entry later resolved toLater quietLater => ?_
    refine ensures_lift (fun _ => spanOf_confined init) toLater
      fun initSpan next _ toNext quietNext => ?_
    refine ensures_lift (fun _ => expect_confined entry result.1 initSpan) toNext
      fun _ last _ toLast quietLast => ?_
    exact pushing entry last toLast (quietLast.trans (quietNext.trans quietLater))
      (.declared found given middle resolved)

/-- What a node adds, once its children are visited. -/
theorem node_pushes {index : Nat} {expr : Expr}
    (deeper : ∀ ref, Pushes site start [ref] (start.unit.arena.openLetsWithin depth ref)
      (resolveWithin site depth ref))
    (found : start.unit.arena.exprs[index]? = some expr) :
    Pushes site start expr.kind.children
      (start.unit.arena.openLetsWithin (depth + 1) (.node index))
      (node site (resolveWithin site depth) index expr) := by
  cases bound : expr.kind.isLet with
  | false =>
    intro locals work reached
    refine (slots_pushes deeper index bound locals work reached).mono ?_
    rintro _ _ ⟨later, nodes, unrolled, kept, positions, added, slots, binds, same⟩
    refine ⟨later, nodes, unrolled, kept, positions, added, ?_, binds, same⟩
    rw [Arena.openLetsWithin_node found slots, bound]
    simp
  | true =>
    obtain ⟨kind, span⟩ := expr
    cases kind with
    | letIn name type init => exact letIn_pushes (deeper init) found
    | _ => cases bound

/-- Resolving an expression puts its open lets on the locals. -/
theorem resolveWithin_pushes : ∀ (depth : Nat) (ref : ExprRef),
    Pushes site start [ref] (start.unit.arena.openLetsWithin depth ref)
      (resolveWithin site depth ref)
  | depth, .missing => by
    rw [Arena.openLetsWithin_missing]
    unfold resolveWithin
    exact fun _ _ reached => Ensures.pure ⟨reached, [], .missing .nil, fun _ _ => rfl, .nothing⟩
  | 0, .node index => fun _ _ _ _ _ ran => nomatch ran
  | depth + 1, .node index => by
    have deeper := resolveWithin_pushes depth
    intro locals work reached
    refine ensures_read fun expr found => ?_
    rw [reached.unit.arena (by decide)] at found
    rw [StateT.run_bind]
    refine Ensures.bind fun result between ran final after recorded => ?_
    obtain ⟨later, nodes, unrolled, kept, pushed⟩ :=
      node_pushes deeper found locals work reached result between ran
    cases recorded
    have spared : between.Spares .resolve site.member { between with unit := { between.unit with
        exprTypes := between.unit.exprTypes.insert index result.1 } } :=
      .ofUnit (.recordType index result.1)
    refine ⟨later.trans spared, index :: nodes, ?_, fun other outside => ?_,
      pushed.keep (List.sublist_cons_self index nodes) fun other listed single => ?_⟩
    · have whole := Arena.Unrolled.node found unrolled .nil
      rwa [List.append_nil] at whole
    · rw [List.mem_cons, not_or] at outside
      exact ((IdMap.get?_insert _ _ _ _).trans (if_neg (Ne.symm outside.1))).trans
        (kept other outside.2)
    · have differ : index ≠ other := by
        rintro rfl
        have twice := List.one_le_count_iff.mpr listed
        rw [List.count_cons_self] at single
        omega
      exact (IdMap.get?_insert _ _ _ _).trans (if_neg differ)

/-- Run `action` and put the locals back that there were before it. -/
def putBack {α : Type} (action : BodyM α) : BodyM α := do
  let outer ← get
  let result ← action
  set outer
  return result

/-- The scope of an action that only adds locals can be closed either way. -/
theorem withScope_eq_putBack {action : BodyM α}
    (adds : ∀ locals work, Ensures (action.run locals) work fun result _ => locals <:+ result.2) :
    withScope action = putBack action := by
  funext locals work
  change (do
      let ended ← action locals work
      pure ((ended.1.1, ended.1.2.truncate locals.length), ended.2) : Except Abort _) = (do
      let ended ← action locals work
      pure ((ended.1.1, locals), ended.2))
  rcases ran : action locals work with fault | ⟨⟨value, final⟩, after⟩
  · rfl
  · have kept := adds locals work (value, final) after ran
    change Except.ok ((value, final.truncate locals.length), after) = _
    rw [Locals.truncate_of_suffix kept]
    rfl

theorem withScope_items_eq (depth : Nat) (items : List ExprRef) (type : TypeRef) :
    withScope (BodyM.items (resolveWithin site depth) items type) =
      putBack (BodyM.items (resolveWithin site depth) items type) := by
  refine withScope_eq_putBack fun locals work => ?_
  have deeper (ref : ExprRef) : Pushes site work [ref] (work.unit.arena.openLetsWithin depth ref)
      (resolveWithin site depth ref) := resolveWithin_pushes depth ref
  exact (items_pushes deeper items type locals work (.refl work)).mono
    fun _ _ ends => ends.2.suffix

theorem withScope_arm_eq (depth : Nat) (bound : Locals) (body : ExprRef) :
    withScope (do
        modify (bound.reverse ++ ·)
        resolveWithin site depth body) =
      putBack (do
        modify (bound.reverse ++ ·)
        resolveWithin site depth body) := by
  refine withScope_eq_putBack fun locals work result after ran => ?_
  have opens := (resolveWithin_pushes depth body (bound.reverse ++ locals) work (.refl work)
    result after ran).2
  exact (List.suffix_append _ _).trans opens.suffix

theorem onPool_ensures {action : PoolM α} (work : Workspace) :
    Ensures (StageM.onPool action) work fun _ after => after.unit = work.unit := by
  intro result after ran
  obtain ⟨_, _, same⟩ := Except.bind_eq_ok ran
  cases same
  rfl

theorem useSymbol_ensures (index : Nat) (resolution : Resolution) (symbol : Symbol) (span : Span)
    (work : Workspace) : Ensures (useSymbol site index resolution symbol span) work fun _ after =>
      after.unit.resolutions.get? index = some resolution := by
  refine Ensures.bind fun _ between noted => ?_
  cases noted
  have recorded : (work.unit.resolutions.insert index resolution).get? index = some resolution := by
    rw [IdMap.get?_insert, if_pos rfl]
  dsimp only
  split
  · intro _ _ ran
    cases ran
    exact recorded
  · exact Ensures.pure recorded

/-- A name is bound to a local exactly when there is one, and the innermost gives its type. -/
theorem ident_ensures (locals : Locals) (index : Nat) (name : Name) (span : Span)
    (work : Workspace) : Ensures (ident site locals index name span) work fun type after =>
      locals.Decides name type (after.unit.resolutions.get? index) := by
  unfold ident
  cases missing : locals.lookup name with
  | some type =>
    intro result after ran
    cases ran
    dsimp only
    rw [IdMap.get?_insert, if_pos rfl]
    exact Locals.decides_of_lookup missing
  | none =>
    refine Ensures.after fun found between => ?_
    split
    · refine Ensures.bind ((useSymbol_ensures index _ _ span between).mono fun _ after recorded =>
        Ensures.pure ?_)
      rw [recorded]
      exact Locals.decides_of_lookup_none missing nofun
    refine Ensures.after fun work middle => ?_
    dsimp only
    cases work.symbols.lookupClass? name with
    | some symbol =>
      refine Ensures.after fun declared later => Ensures.bind ?_
      refine (useSymbol_ensures index _ _ span later).mono fun _ after recorded type final ran => ?_
      change locals.Decides name type (final.unit.resolutions.get? index)
      rw [onPool_ensures after type final ran, recorded]
      exact Locals.decides_of_lookup_none missing nofun
    | none =>
      refine Ensures.after fun _ later => ?_
      refine Ensures.bind fun _ after noted type final ran => ?_
      cases noted
      rw [onPool_ensures _ type final ran, IdMap.get?_insert, if_pos rfl]
      exact Locals.decides_of_lookup_none missing nofun

/-- What an expression that is a name is bound to stays as the name was resolved. -/
theorem resolveWithin_ident {work : Workspace} {index : Nat} {name : Name} {span : Span}
    {locals : Locals} {depth : Nat}
    (found : work.unit.arena.exprs[index]? = some ⟨.ident name, span⟩) :
    Ensures ((resolveWithin site depth (.node index)).run locals) work fun result after =>
      result.2 = locals ∧ after.unit.exprTypes.get? index = some result.1 ∧
        locals.Decides name result.1 (after.unit.resolutions.get? index) := by
  cases depth with
  | zero => exact fun _ _ ran => nomatch ran
  | succ depth =>
    refine ensures_read fun expr read => ?_
    rw [found] at read
    cases read
    intro result after ran
    obtain ⟨⟨⟨type, kept⟩, between⟩, named, recorded⟩ := Except.bind_eq_ok ran
    cases recorded
    obtain ⟨⟨_, between⟩, bound, same⟩ := Except.bind_eq_ok named
    cases same
    have decided := ident_ensures locals index name span work type between bound
    refine ⟨rfl, ?_, decided⟩
    rw [IdMap.get?_insert, if_pos rfl]

theorem resolveWithin_balanced (depth index : Nat) (locals : Locals) (work : Workspace) :
    Ensures ((resolveWithin site depth (.node index)).run locals) work
      (site.Balanced depth index locals work) := by
  intro result after ran
  have opens := (resolveWithin_pushes depth (.node index) locals work (.refl work)
    result after ran).2
  refine ⟨opens, fun items span found => ?_, fun scrutinee arms span found => ?_,
    fun name span found => resolveWithin_ident found result after ran⟩
  all_goals obtain ⟨nodes, unrolled, kept, lets, added, read, binds, same⟩ := opens
  · have none_ := Arena.openLetsWithin_block found read
    rw [none_] at read binds
    exact BodySite.Pushed.eq_of_nothing ⟨[], added, rfl, binds, same⟩
  · exact ⟨nodes, unrolled, kept, lets, added, Arena.openLetsWithin_matchOn found read, binds, same⟩

/-- The locals are balanced, whatever is reported: what was there before stays below, and above it
is, in evaluation order, what the lets bind that are not inside a block or the body of an arm. A let
without a type has the one recorded for its initializer, if that is visited once. In a well-formed
unit the resolution ends. Putting the old locals back is the same as cutting to their number. -/
theorem resolve_balanced (site : BodySite) :
    (∀ (depth index : Nat) (locals : Locals) (work : Workspace),
      Ensures ((resolveWithin site depth (.node index)).run locals) work
        (site.Balanced depth index locals work)) ∧
    (∀ (index : Nat) (locals : Locals) (work : Workspace), work.Sound → work.Ready True →
      site.HeldBy work.pool → locals.HeldBy work.pool → index < work.unit.arena.size →
      Completes ((resolve site (.node index)).run locals) work
        (site.Balanced (work.unit.arena.size + 1) index locals work)) ∧
    (∀ (depth : Nat) (items : List ExprRef),
      withScope (BodyM.items (resolveWithin site depth) items .void) =
        putBack (BodyM.items (resolveWithin site depth) items .void)) ∧
    ∀ (depth : Nat) (bound : Locals) (body : ExprRef),
      withScope (do modify (bound.reverse ++ ·); resolveWithin site depth body) =
        putBack (do modify (bound.reverse ++ ·); resolveWithin site depth body) := by
  refine ⟨resolveWithin_balanced, fun index locals work sound ready siteHeld held inside => ?_,
    fun depth items => withScope_items_eq depth items .void, withScope_arm_eq⟩
  obtain ⟨result, after, ran, -⟩ :=
    (resolve_works ready siteHeld (fun _ => ⟨index, inside, rfl⟩) held sound).completes trivial
  exact ⟨result, after, ran, resolveWithin_balanced _ index locals work result after ran⟩

/-- `(match let x = 1 { x => let y = x }) == ({ let x: string = true; let y = x } == x)`. -/
def shadowingWork : Workspace where
  unit := {
    id := 0, name := "main"
    arena := {
      exprs := #[
        ⟨.literal (.int 1), ⟨0, 1⟩⟩, ⟨.letIn "x" .infer (.node 0), ⟨0, 1⟩⟩, ⟨.ident "x", ⟨2, 3⟩⟩,
        ⟨.letIn "y" .infer (.node 2), ⟨2, 3⟩⟩, ⟨.matchOn (.node 1) [⟨0, .node 3, ⟨2, 3⟩⟩], ⟨0, 3⟩⟩,
        ⟨.literal (.bool true), ⟨4, 5⟩⟩, ⟨.letIn "x" (.named "string" [] ⟨4, 5⟩) (.node 5), ⟨4, 5⟩⟩,
        ⟨.ident "x", ⟨6, 7⟩⟩, ⟨.letIn "y" .infer (.node 7), ⟨6, 7⟩⟩,
        ⟨.block [.node 6, .node 8], ⟨4, 7⟩⟩, ⟨.ident "x", ⟨8, 9⟩⟩,
        ⟨.binary .eq (.node 9) (.node 10), ⟨4, 9⟩⟩, ⟨.binary .eq (.node 4) (.node 11), ⟨0, 9⟩⟩]
      patterns := #[⟨.binding "x" none, ⟨1, 2⟩⟩] } }

def shadowingSite : BodySite where
  scope := []
  member := 0
  className := "Main"
  classType := .any
  suppress := false

theorem shadowingWork_sound : shadowingWork.Sound := by
  refine ⟨⟨TypePool.valid_empty, ?_, ?_⟩, ⟨rfl, ?_, ?_, ?_, ?_⟩,
    ⟨PatternStore.sound_empty _, ?_, ?_, ?_, ?_, ?_⟩⟩
  all_goals simp [shadowingWork, IdMap.get?]

theorem shadowingWork_ready : shadowingWork.Ready True where
  arena _ := Arena.Ordered.wellFormed (by constructor <;> decide)
  grounded _ :=
    ⟨fun _ => 0, fun param bound asked => by
      simp [shadowingWork, TypePool.upperBound, TypePool.param,
    Except.map] at asked⟩

/-- The mismatch is reported, and of the four lets only that of the scrutinee lasts: the last name
is bound to it. -/
theorem resolve_balanced_shadowing :
    shadowingWork.unit.arena.openLets (.node 12) = .ok [1] ∧
    (∃ result after, ((resolve shadowingSite (.node 12)).run [("x", .float)]).run shadowingWork =
      .ok (result, after) ∧
      result.2 = [("x", .int), ("x", .float)] ∧ after.reports.length = 1 ∧
      shadowingSite.Balanced 14 12 [("x", .float)] shadowingWork result after) ∧
    ∃ result after, ((resolve shadowingSite (.node 10)).run [("x", .int), ("x", .float)]).run
      shadowingWork =
        .ok (result, after) ∧ result.1 = .int ∧
        after.unit.resolutions.get? 10 = some (.local_ "x") ∧
      shadowingSite.Balanced 14 10 [("x", .int), ("x", .float)] shadowingWork result after := by
  have held : shadowingSite.HeldBy shadowingWork.pool := ⟨by simp [shadowingSite], by decide⟩
  have ends := (resolve_balanced shadowingSite).2.1
  obtain ⟨result, after, ran, balanced⟩ := ends 12 [("x", .float)] shadowingWork shadowingWork_sound
    shadowingWork_ready held (by decide : ∀ entry ∈ [("x", TypeRef.float)],
      shadowingWork.pool.Has entry.2) (by decide)
  obtain ⟨named, later, ranName, balancedName⟩ := ends 10 [("x", .int), ("x", .float)] shadowingWork
    shadowingWork_sound shadowingWork_ready held
    (by decide : ∀ entry ∈ [("x", TypeRef.int), ("x", .float)], shadowingWork.pool.Has entry.2)
    (by decide)
  obtain ⟨_, computed, shown⟩ := Except.exists_ok
    (((resolve shadowingSite (.node 12)).run [("x", .float)]).run shadowingWork) (fun ends =>
      ends.1.2 = [("x", .int), ("x", .float)] ∧ ends.2.reports.length = 1) (by decide +kernel)
  rw [ran] at computed
  cases computed
  refine ⟨by decide, ⟨result, after, ran, shown.1, shown.2, balanced⟩, named, later, ranName, ?_,
    ?_, balancedName⟩
  all_goals
    cases ranName
    rfl

end BodyM
end ClassLang
