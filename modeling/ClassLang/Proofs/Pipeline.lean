import ClassLang.Pipeline
import ClassLang.Proofs.Diagnostic
import ClassLang.Proofs.Stage.Conformance
import ClassLang.Proofs.Stage.Constants
import ClassLang.Proofs.Stage.Signatures

/-! A stage on one unit: it moves every member on, one after the other, and leaves what the next
stage needs. -/

namespace ClassLang

/-- An action for every number below `count`. -/
theorem Runs.forRange {σ ε : Type} {total : Prop} {action : Nat → StateT σ (Except ε) PUnit}
    {start : σ} {count : Nat} {keeps : Nat → σ → Prop} (first : keeps 0 start)
    (each : ∀ index < count, ∀ state, keeps index state →
      Runs total (action index) state fun _ => keeps (index + 1)) :
    Runs total ((List.range count).forM action) start fun _ => keeps count := by
  induction count with
  | zero => exact Runs.pure first
  | succ count ih =>
    have earlier := ih fun index below => each index (Nat.lt_succ_of_lt below)
    rw [List.range_succ]
    change Runs total (forM (List.range count ++ [count]) action) start _
    rw [List.forM_append]
    refine Runs.bind (earlier.mono fun _ state holds => ?_)
    exact Runs.bind ((each count (Nat.lt_succ_self count) state holds).mono fun _ _ kept =>
      Runs.pure kept)

namespace MemberArena

variable {arena : MemberArena} {id : Nat} {member later : Member}

theorem set_set : (arena.set id member).set id later = arena.set id later := by
  simp [MemberArena.set]

/-- The stage is done with the first `count` members. -/
def Advanced (arena : MemberArena) (stage : Stage) (count : Nat) : Prop :=
  ∀ (id : Nat) (member : Member), arena.members[id]? = some member →
    member.progress = if id < count then stage.target else stage.required

/-- The next member is ready for the stage. -/
theorem Advanced.next {stage : Stage} {count : Nat} (advanced : arena.Advanced stage count)
    (inside : count < arena.size) : ∃ member, arena.members[count]? = some member ∧
    member.progress = stage.required := by
  obtain ⟨member, found⟩ : ∃ member, arena.members[count]? = some member :=
    ⟨_, Array.getElem?_eq_getElem inside⟩
  refine ⟨member, found, ?_⟩
  rw [advanced count member found, if_neg (Nat.lt_irrefl _)]

theorem Advanced.set {stage : Stage} {count : Nat} (advanced : arena.Advanced stage count)
    (found : arena.members[count]? = some member) (reached : later.progress = stage.target) :
    (arena.set count later).Advanced stage (count + 1) := by
  intro id other present
  rw [lookup_set found] at present
  split at present
  · cases present
    rw [if_pos (by omega), reached]
  · rw [advanced id other present]
    by_cases before : id < count
    · rw [if_pos before, if_pos (by omega)]
    · rw [if_neg before, if_neg (by omega)]

end MemberArena

/-- The workspace with other members. -/
def Workspace.withMembers (work : Workspace) (members : MemberArena) : Workspace :=
  { work with unit := { work.unit with members } }

theorem Member.Typed.marked {member : Member} {pool : TypePool} (typed : member.Typed pool)
    (progress : Progress) : { member with progress }.Typed pool :=
  ⟨typed.type, typed.params, typed.supertypes⟩

namespace StageM
open Workspace CompilationUnit Conformance

variable {total : Prop} {stage : Stage} {work : Workspace} {id : Nat} {member : Member}

/-- A member that is ready is worked on and then marked. -/
theorem runMember_runs {post : Workspace → Member → Prop}
    (found : work.unit.members.members[id]? = some member)
    (ready : member.progress = stage.required)
    (performed : Runs total (perform stage id) work fun _ after =>
      ∃ later, after.unit.members = work.unit.members.set id later ∧ post after later) :
    Runs total (runMember stage id) work fun _ final => ∃ after later, post after later ∧
      after.unit.members = work.unit.members.set id later ∧
        final = after.withMembers
          (work.unit.members.set id { later with progress := stage.target }) := by
  refine Runs.bind ((Completes.get ?_).runs total)
  refine Runs.bind (Works.lift_runs (fun _ => ⟨member, MemberArena.get_eq found⟩)
    fun read same => ?_)
  cases (MemberArena.get_eq found).symm.trans same
  have unfinished : ¬ (stage = .foldConstants ∧ member.progress.isTerminal = true) := by
    rw [ready]
    rintro ⟨rfl, impossible⟩
    cases impossible
  rw [if_neg unfinished, if_neg (not_not.mpr ready)]
  refine Runs.bind (performed.mono ?_)
  rintro _ after ⟨later, members, holds⟩
  have present : after.unit.members.members[id]? = some later := by
    rw [members, MemberArena.lookup_set found, if_pos rfl]
  refine Runs.bind (Runs.bind ((Completes.get (Works.lift_runs
    (fun _ => ⟨later, MemberArena.get_eq present⟩) fun read same => ?_)).runs total))
  cases (MemberArena.get_eq present).symm.trans same
  refine (Completes.modify ⟨after, later, holds, members, ?_⟩).runs total
  change after.withMembers (after.unit.members.set id _) = _
  rw [members, MemberArena.set_set]

/-- `runMember_runs` for the stages that keep the workspace sound. -/
theorem runMember_works {frame : Workspace → Workspace → Prop} [IsPreorder Workspace frame]
    {post : Workspace → Member → Prop}
    (found : work.unit.members.members[id]? = some member)
    (ready : member.progress = stage.required)
    (performed : Works total frame (perform stage id) work fun _ after =>
      ∃ later, after.unit.members = work.unit.members.set id later ∧ post after later)
    (allows : ∀ (after : Workspace) (members : MemberArena),
      after.unit.Evolves { after.unit with members } → frame after (after.withMembers members)) :
    Works total frame (runMember stage id) work fun _ final => ∃ after later,
      frame work after ∧ after.Sound ∧ post after later ∧
        final = after.withMembers
          (work.unit.members.set id { later with progress := stage.target }) := by
  intro sound
  have worked : Runs total (perform stage id) work fun _ after => ∃ later,
      after.unit.members = work.unit.members.set id later ∧
        (frame work after ∧ after.Sound ∧ post after later) := by
    refine (performed sound).mono ?_
    rintro _ after ⟨led, soundAfter, later, members, holds⟩
    exact ⟨later, members, led, soundAfter, holds⟩
  refine (runMember_runs found ready worked).mono ?_
  rintro _ _ ⟨after, later, ⟨led, soundAfter, holds⟩, members, rfl⟩
  have present : after.unit.members.members[id]? = some later := by
    rw [members, MemberArena.lookup_set found, if_pos rfl]
  have follows : later.Follows { later with progress := stage.target } := ⟨rfl, rfl, rfl, rfl⟩
  have evolved := evolves_set present follows
  rw [members, MemberArena.set_set] at evolved
  exact ⟨trans_of frame led (allows after _ evolved),
    ⟨soundAfter.program, soundAfter.laid.evolve evolved, { soundAfter.recorded with }⟩,
    after, later, led, soundAfter, holds, rfl⟩

/-- Types that every member has, when one member is replaced. -/
theorem typed_set {pool larger : TypePool} {later : Member} (typed : Nat → Prop)
    (found : work.unit.members.members[id]? = some member)
    (others : ∀ (other : Nat) (entry : Member), typed other →
      work.unit.members.members[other]? = some entry → entry.Typed pool)
    (within : pool.Within larger) (own : later.Typed larger) :
    ∀ (other : Nat) (entry : Member), typed other ∨ other = id →
      (work.unit.members.set id later).members[other]? = some entry → entry.Typed larger := by
  intro other entry either present
  rw [MemberArena.lookup_set found] at present
  split at present
  · cases present
    exact own
  · rename_i differs
    exact (others other entry (either.resolve_right differs) present).grow within

/-- The first stage on the first members of a unit: one after the other is announced, and marked. -/
inductive Announced (start : Workspace) : Nat → Workspace → Prop where
  | none : Announced start 0 start
  | next {count : Nat} {between after : Workspace} {member later : Member}
      (earlier : Announced start count between) (led : start.Publishes between)
      (sound : between.Sound) (found : between.unit.members.members[count]? = some member)
      (publishes : between.Publishes after)
      (announces : Announces between count member later after) : Announced start (count + 1)
        (after.withMembers
          (between.unit.members.set count { later with progress := Stage.resolveTypes.target }))

/-- The first stage on the members of a unit. -/
theorem resolveTypes_members {rank : ParamRef → Nat} (sound : work.Sound)
    (waiting : work.unit.members.Advanced .resolveTypes 0)
    (descends : total → ∀ (id : Nat) (member : Member),
      work.unit.members.members[id]? = some member → ∀ param ∈ member.typeParams,
        (work.unit.scopeOf member).Descends rank param)
    (ranked : total → work.pool.Ranked rank) :
    Runs total (work.unit.members.ids.forM (runMember .resolveTypes)) work fun _ after =>
      work.Publishes after ∧ after.Sound ∧
        after.unit.members.Advanced .resolveTypes work.unit.members.size ∧
        (total → after.pool.Ranked rank) ∧ after.unit.Typed after.pool ∧
        Announced work work.unit.members.size after := by
  let keeps (count : Nat) (after : Workspace) : Prop :=
    work.Publishes after ∧ after.Sound ∧ after.unit.members.Advanced .resolveTypes count ∧
      (total → after.pool.Ranked rank) ∧
      (∀ (id : Nat) (member : Member), id < count → after.unit.members.members[id]? = some member →
        member.Typed after.pool) ∧ Announced work count after
  have done : Runs total (work.unit.members.ids.forM (runMember .resolveTypes)) work
      fun _ => keeps work.unit.members.size := by
    refine Runs.forRange ⟨refl_of _ _, sound, waiting, ranked, by simp, .none⟩ ?_
    rintro index inside between ⟨led, soundBetween, advanced, rankedBetween, typed, announced⟩
    obtain ⟨member, found, ready⟩ := advanced.next (Nat.lt_of_lt_of_eq inside led.unit.size.symm)
    obtain ⟨original, started, follows⟩ := led.unit.lookup found
    have descendsHere : total → ∀ param ∈ member.typeParams,
        (between.unit.scopeOf member).Descends rank param := by
      rw [led.unit.scopeOf_eq sound.laid started follows, follows.typeParams]
      exact fun sure => descends sure index original started
    have performed : Works total Publishes (perform .resolveTypes index) between fun _ after =>
        ∃ later, after.unit.members = between.unit.members.set index later ∧
          (total → after.pool.Ranked rank) ∧ Announces between index member later after := by
      refine (resolveTypes_works found descendsHere rankedBetween).mono ?_
      rintro _ after _ _ ⟨rankedAfter, later, announces⟩
      exact ⟨later, announces.members, rankedAfter, announces⟩
    have marked := runMember_works found ready performed fun after members evolved =>
      ⟨.refl _, rfl, rfl, evolved, .refl _⟩
    refine (marked soundBetween).mono ?_
    rintro _ _ ⟨ledFinal, soundFinal, after, later, ledAfter, _, ⟨rankedAfter, announces⟩, rfl⟩
    refine ⟨trans_of _ led ledFinal, soundFinal, advanced.set found rfl, rankedAfter, ?_,
      .next announced led soundBetween found ledAfter announces⟩
    intro id entry below
    exact typed_set (· < index) found typed ledAfter.pool (announces.reads.typed.marked _) id entry
      (Nat.lt_succ_iff_lt_or_eq.mp below)
  refine done.mono ?_
  rintro _ after ⟨led, soundAfter, advanced, rankedAfter, typed, announced⟩
  refine ⟨led, soundAfter, advanced, rankedAfter, fun id member found => ?_, announced⟩
  exact typed id member (led.unit.size ▸ (Array.getElem?_eq_some_iff.mp found).1) found

/-- A stage that keeps types and signatures, on the first members of a unit: the work on each member
hands on what is known when those before it are done. -/
theorem members_advance {keeps : Nat → Workspace → Prop} {count : Nat}
    (inside : count ≤ work.unit.members.size) (sound : work.Sound)
    (waiting : work.unit.members.Advanced stage 0) (typed : work.unit.Typed work.pool)
    (start : keeps 0 work)
    (each : ∀ (id : Nat) (original member : Member) (between : Workspace),
      work.Leads Evolves between → between.Sound → between.unit.Typed between.pool →
      keeps id between → work.unit.members.members[id]? = some original →
      between.unit.members.members[id]? = some member → original.Follows member →
      Works total (Leads Evolves) (perform stage id) between fun _ after =>
        ∃ later, after.unit.members = between.unit.members.set id later ∧ later.Typed after.pool ∧
          keeps (id + 1)
            (after.withMembers
              (between.unit.members.set id { later with progress := stage.target }))) :
    Runs total ((List.range count).forM (runMember stage)) work fun _ after =>
      work.Leads Evolves after ∧ after.Sound ∧ after.unit.members.Advanced stage count ∧
        after.unit.Typed after.pool ∧ keeps count after := by
  let upTo (count : Nat) (after : Workspace) : Prop :=
    work.Leads Evolves after ∧ after.Sound ∧ after.unit.members.Advanced stage count ∧
      after.unit.Typed after.pool ∧ keeps count after
  change Runs total ((List.range count).forM (runMember stage)) work fun _ => upTo count
  refine Runs.forRange ⟨refl_of _ _, sound, waiting, typed, start⟩ ?_
  rintro index below between ⟨led, soundBetween, advanced, typedBetween, kept⟩
  obtain ⟨member, found, ready⟩ :=
    advanced.next (Nat.lt_of_lt_of_eq (Nat.lt_of_lt_of_le below inside) led.unit.size.symm)
  obtain ⟨original, started, follows⟩ := led.unit.lookup found
  have marked := runMember_works found ready
    (each index original member between led soundBetween typedBetween kept started found follows)
    fun after members evolved => ⟨.refl _, rfl, evolved, .refl _⟩
  refine (marked soundBetween).mono ?_
  rintro _ _ ⟨ledFinal, soundFinal, after, later, ledAfter, soundAfter,
    ⟨typedLater, keptAfter⟩, rfl⟩
  refine ⟨trans_of _ led ledFinal, soundFinal, advanced.set found rfl, fun id entry => ?_,
    keptAfter⟩
  exact typed_set (fun _ => True) found (fun other entry _ => typedBetween other entry)
    (ledAfter.growth soundAfter).within (typedLater.marked _) id entry (.inl trivial)

/-- `members_advance` where what the stage does for a member stays done, and an invariant of the
work on each member stays. -/
theorem members_keep_upTo {keeps : Workspace → Prop} {done : Member → Workspace → Prop}
    {count : Nat} (inside : count ≤ work.unit.members.size) (sound : work.Sound)
    (waiting : work.unit.members.Advanced stage 0) (typed : work.unit.Typed work.pool)
    (start : keeps work) (blind : ∀ after members, keeps after → keeps (after.withMembers members))
    (blindDone : ∀ member after members, done member after →
      done member (after.withMembers members))
    (each : ∀ (id : Nat) (original member : Member) (between : Workspace),
      work.Leads Evolves between → between.Sound → between.unit.Typed between.pool → keeps between →
      work.unit.members.members[id]? = some original →
      between.unit.members.members[id]? = some member → original.Follows member →
      Works total (Leads Evolves) (perform stage id) between fun _ after =>
        ∃ later, after.unit.members = between.unit.members.set id later ∧ later.Typed after.pool ∧
          keeps after ∧
          done original after ∧ ∀ other, done other between → done other after) :
    Runs total ((List.range count).forM (runMember stage)) work fun _ after =>
      work.Leads Evolves after ∧ after.Sound ∧
        after.unit.members.Advanced stage count ∧ after.unit.Typed after.pool ∧ keeps after ∧
        ∀ (id : Nat) (member : Member), id < count → work.unit.members.members[id]? = some member →
          done member after := by
  let keepsFirst (count : Nat) (after : Workspace) : Prop :=
    keeps after ∧ ∀ (id : Nat) (member : Member), id < count →
      work.unit.members.members[id]? = some member → done member after
  have first : keepsFirst 0 work := ⟨start, by simp⟩
  refine @members_advance _ _ _ keepsFirst _ inside sound waiting typed first ?_
  rintro id original member between led soundBetween typedBetween ⟨kept, doneBetween⟩ started
    found follows
  refine (each id original member between led soundBetween typedBetween kept started found
    follows).mono ?_
  rintro _ after _ _ ⟨later, members, typedLater, keptAfter, own, others⟩
  refine ⟨later, members, typedLater, blind _ _ keptAfter, fun other entry earlier present =>
    blindDone _ _ _ ?_⟩
  rcases Nat.lt_succ_iff_lt_or_eq.mp earlier with old | rfl
  · exact others entry (doneBetween other entry old present)
  · cases started.symm.trans present
    exact own

/-- `members_keep_upTo` for all members of the unit. -/
theorem members_keep {keeps : Workspace → Prop} {done : Member → Workspace → Prop}
    (sound : work.Sound) (waiting : work.unit.members.Advanced stage 0)
    (typed : work.unit.Typed work.pool) (start : keeps work)
    (blind : ∀ after members, keeps after → keeps (after.withMembers members))
    (blindDone : ∀ member after members, done member after →
      done member (after.withMembers members))
    (each : ∀ (id : Nat) (original member : Member) (between : Workspace),
      work.Leads Evolves between → between.Sound → between.unit.Typed between.pool → keeps between →
      work.unit.members.members[id]? = some original →
      between.unit.members.members[id]? = some member → original.Follows member →
      Works total (Leads Evolves) (perform stage id) between fun _ after =>
        ∃ later, after.unit.members = between.unit.members.set id later ∧ later.Typed after.pool ∧
          keeps after ∧
          done original after ∧ ∀ other, done other between → done other after) :
    Runs total (work.unit.members.ids.forM (runMember stage)) work fun _ after =>
      work.Leads Evolves after ∧ after.Sound ∧
        after.unit.members.Advanced stage work.unit.members.size ∧ after.unit.Typed after.pool ∧
        keeps after ∧
        ∀ (id : Nat) (member : Member), work.unit.members.members[id]? = some member →
          done member after := by
  refine (members_keep_upTo (Nat.le_refl _) sound waiting typed start blind blindDone each).mono ?_
  rintro _ after ⟨led, soundAfter, advanced, typedAfter, kept, doneAfter⟩
  exact ⟨led, soundAfter, advanced, typedAfter, kept, fun id member found =>
    doneAfter id member (Array.getElem?_eq_some_iff.mp found).1 found⟩

/-- `members_keep` for what is done for a member. -/
theorem members_runs {done : Member → Workspace → Prop} (sound : work.Sound)
    (waiting : work.unit.members.Advanced stage 0) (typed : work.unit.Typed work.pool)
    (blind : ∀ member after members, done member after → done member (after.withMembers members))
    (each : ∀ (id : Nat) (original member : Member) (between : Workspace),
      work.Leads Evolves between → between.Sound → between.unit.Typed between.pool →
      work.unit.members.members[id]? = some original →
      between.unit.members.members[id]? = some member → original.Follows member →
      Works total (Leads Evolves) (perform stage id) between fun _ after =>
        ∃ later, after.unit.members = between.unit.members.set id later ∧ later.Typed after.pool ∧
          done original after ∧ ∀ other, done other between → done other after) :
    Runs total (work.unit.members.ids.forM (runMember stage)) work fun _ after =>
      work.Leads Evolves after ∧ after.Sound ∧
        after.unit.members.Advanced stage work.unit.members.size ∧ after.unit.Typed after.pool ∧
        ∀ (id : Nat) (member : Member), work.unit.members.members[id]? = some member →
          done member after := by
  have kept := members_keep sound waiting typed trivial (fun _ _ _ => trivial) blind
    fun id original member between led soundBetween typedBetween _ started found follows =>
      (each id original member between led soundBetween typedBetween started found follows).mono
        fun _ _ _ _ ⟨later, members, typedLater, own, others⟩ =>
          ⟨later, members, typedLater, trivial, own, others⟩
  exact kept.mono fun _ _ ⟨led, soundAfter, advanced, typedAfter, _, all⟩ =>
    ⟨led, soundAfter, advanced, typedAfter, all⟩

section
variable (sound : work.Sound) (typed : work.unit.Typed work.pool) (ready : work.Ready total)
  (inside : total → ∀ (id : Nat) (member : Member), work.unit.members.members[id]? = some member →
    member.BodyIn work.unit.arena)
include sound typed ready inside

/-- The second stage on the members of a unit. -/
theorem resolve_members (waiting : work.unit.members.Advanced .resolve 0) :
    Runs total (work.unit.members.ids.forM (runMember .resolve)) work fun _ after =>
      work.Leads Evolves after ∧ after.Sound ∧
        after.unit.members.Advanced .resolve work.unit.members.size ∧ after.unit.Typed after.pool ∧
        ∀ (id : Nat) (member : Member), work.unit.members.members[id]? = some member →
          ∀ body ∈ member.body, after.unit.HasGroups body := by
  refine members_runs sound waiting typed (fun _ _ _ hasGroups => hasGroups) ?_
  intro id original member between led soundBetween typedBetween started found follows
  have insideHere : total → member.BodyIn between.unit.arena := by
    unfold Member.BodyIn
    rw [follows.body, led.unit.arena]
    exact fun sure => inside sure id original started
  refine (resolveBody_works found typedBetween
    (ready.led sound.valid led soundBetween led.unit.arena) insideHere).mono ?_
  rintro _ after ledAfter soundAfter ⟨later, kept, groups⟩
  refine ⟨later, kept.members, kept.typed _ ((typedBetween id member found).grow
    (ledAfter.growth soundAfter).within), fun body written =>
      groups body (follows.body ▸ written), ?_⟩
  exact fun other hasGroups body written => (hasGroups body written).keep ledAfter.unit

/-- The third stage on the first members of a unit. -/
theorem check_members_upTo {count : Nat} (below : count ≤ work.unit.members.size)
    (waiting : work.unit.members.Advanced .check 0) :
    Runs total ((List.range count).forM (runMember .check)) work fun _ after =>
      work.Leads Evolves after ∧ after.Sound ∧ after.unit.members.Advanced .check count ∧
        after.unit.Typed after.pool ∧
        ∀ (id : Nat) (member : Member), id < count → work.unit.members.members[id]? = some member →
          JudgesAll after member := by
  refine (@members_keep_upTo _ _ _ (fun _ => True) _ _ below sound waiting typed trivial
    (fun _ _ _ => trivial) (fun _ _ _ judgesAll => judgesAll) ?_).mono
    fun _ _ ⟨led, soundAfter, advanced, typedAfter, _, allJudged⟩ =>
      ⟨led, soundAfter, advanced, typedAfter, allJudged⟩
  intro id original member between led soundBetween typedBetween _ started found follows
  have insideHere : total → member.BodyIn between.unit.arena := by
    unfold Member.BodyIn
    rw [follows.body, led.unit.arena]
    exact fun sure => inside sure id original started
  have checked := (checkMember_works found typedBetween
      (ready.led sound.valid led soundBetween led.unit.arena) insideHere).mono
    fun _ after lowers soundAfter judgesAll =>
      (⟨lowers, soundAfter, judgesAll⟩ : between.Leads Lowers after ∧ after.Sound ∧
        JudgesAll after member)
  refine (Works.widen checked fun _ lowers => lowers.widen fun _ _ => Lowers.evolves).mono ?_
  rintro _ after _ _ ⟨lowers, soundAfter, judgesAll⟩
  refine ⟨member, ?_, (typedBetween id member found).grow (lowers.growth soundAfter).within,
    trivial,
    fun body written => judgesAll body (follows.body ▸ written),
      fun other judged body written node => ?_⟩
  · rw [lowers.unit.members, MemberArena.set_self found]
  · rw [lowers.unit.evolves.arena]
    exact fun contained match_ =>
      (judged body written node contained match_).lead soundBetween lowers

/-- The third stage on the members of a unit. -/
theorem check_members (waiting : work.unit.members.Advanced .check 0) :
    Runs total (work.unit.members.ids.forM (runMember .check)) work fun _ after =>
      work.Leads Evolves after ∧ after.Sound ∧
        after.unit.members.Advanced .check work.unit.members.size ∧ after.unit.Typed after.pool ∧
        ∀ (id : Nat) (member : Member), work.unit.members.members[id]? = some member →
          JudgesAll after member := by
  refine (check_members_upTo sound typed ready inside (Nat.le_refl _) waiting).mono ?_
  rintro _ after ⟨led, soundAfter, advanced, typedAfter, judgesAll⟩
  exact ⟨led, soundAfter, advanced, typedAfter, fun id member found =>
    judgesAll id member (Array.getElem?_eq_some_iff.mp found).1 found⟩

end

/-- The last stage on the members of a unit. -/
theorem foldConstants_members (waiting : work.unit.members.Advanced .foldConstants 0)
    (wellFormed : total → work.unit.arena.WellFormed)
    (inside : total → ∀ (id : Nat) (member : Member), work.unit.members.members[id]? = some member →
      member.BodyIn work.unit.arena) :
    Runs total (work.unit.members.ids.forM (runMember .foldConstants)) work fun _ after =>
      ∃ arena exprTypes members,
        after = { work with unit := { work.unit with arena, exprTypes, members } } ∧
        members.Advanced .foldConstants work.unit.members.size ∧
        members.size = work.unit.members.size ∧ (total → arena.WellFormed ∧
          ∀ (id : Nat) (member : Member), members.members[id]? = some member →
          member.BodyIn arena) := by
  let keeps (count : Nat) (after : Workspace) : Prop :=
    ∃ arena exprTypes members,
      after = { work with unit := { work.unit with arena, exprTypes, members } } ∧
      members.Advanced .foldConstants count ∧ members.size = work.unit.members.size ∧
      (total → arena.WellFormed ∧
        ∀ (id : Nat) (member : Member), members.members[id]? = some member → member.BodyIn arena)
  change Runs total _ work fun _ => keeps work.unit.members.size
  refine Runs.forRange ⟨_, _, _, rfl, waiting, rfl, fun sure => ⟨wellFormed sure, inside sure⟩⟩ ?_
  rintro index below _ ⟨arena, exprTypes, members, rfl, advanced, size, formed⟩
  obtain ⟨member, found, ready⟩ := advanced.next (Nat.lt_of_lt_of_eq below size.symm)
  have folded : Runs total (perform .foldConstants index)
      { work with unit := { work.unit with arena, exprTypes, members } } fun _ after =>
        ∃ later, after.unit.members = members.set index later ∧ ∃ larger types,
          after = { work with unit := { work.unit with
            arena := larger, exprTypes := types, members := members.set index later } } ∧
          (total → larger.WellFormed ∧ arena.size ≤ larger.size ∧ later.BodyIn larger) := by
    refine (foldConstants_runs found (fun sure => (formed sure).1)
      (fun sure => (formed sure).2 index member found)).mono ?_
    rintro _ _ ⟨larger, types, later, rfl, _, facts⟩
    exact ⟨later, rfl, larger, types, rfl, facts⟩
  refine (runMember_runs found ready folded).mono ?_
  rintro _ _ ⟨_, later, ⟨larger, types, rfl, facts⟩, _, rfl⟩
  refine ⟨larger, types, members.set index { later with progress := .constantsFolded }, rfl,
    advanced.set found rfl, MemberArena.size_set.trans size, fun sure => ?_⟩
  obtain ⟨wellFormedNow, grown, bodyIn⟩ := facts sure
  refine ⟨wellFormedNow, fun id entry present => ?_⟩
  rw [MemberArena.lookup_set found] at present
  split at present
  · cases present
    exact bodyIn
  · intro body written
    obtain ⟨place, small, same⟩ := (formed sure).2 id entry present body written
    exact ⟨place, Nat.lt_of_lt_of_le small grown, same⟩

end StageM
end ClassLang
