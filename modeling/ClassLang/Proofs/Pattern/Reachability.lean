import ClassLang.Proofs.Pattern.Exhaustiveness
import ClassLang.Proofs.Pattern.FirstMatch

/-! Reachability as it is analysed and as it is lowered: code jumps to the arms up to the first
irrefutable one, and all arms behind a pattern that names nothing are reported. -/

namespace ClassLang

/-! What the code jumps to. -/

/-- The label an instruction goes to when what was matched holds. -/
def Instruction.target? : Instruction → Option JumpLabel
  | jump label | jumpIfMatch label => some label
  | _ => none

/-- The labels some code jumps to with a matched value, in order. -/
def targets (code : List Instruction) : List JumpLabel := code.filterMap Instruction.target?

@[simp] theorem targets_nil : targets [] = [] := rfl

@[simp] theorem targets_cons (instruction : Instruction) (code : List Instruction) :
    targets (instruction :: code) = instruction.target?.toList ++ targets code := by
  cases found : instruction.target? with
  | none => exact List.filterMap_cons_none found
  | some label => exact List.filterMap_cons_some found

@[simp] theorem targets_append (first second : List Instruction) :
    targets (first ++ second) = targets first ++ targets second :=
  List.filterMap_append

namespace PatternTree

theorem targets_test {check : Instruction} (onMismatch : Option JumpLabel)
    (stays : check.target? = none) : targets (test check onMismatch) = [] := by
  cases onMismatch with
  | none => rfl
  | some label =>
    simp only [test, targets_cons, stays]
    rfl

mutual

/-- The code of a pattern only leaves when it does not match. -/
theorem targets_code (onMismatch : Option JumpLabel) : ∀ (tree : PatternTree) (slot : Slot)
    (next : Nat), targets (tree.code onMismatch slot next).1 = []
  | wildcard, _, _ | binding _, _, _ => rfl
  | constant _, _, _ => targets_test onMismatch rfl
  | named _ inner, slot, next => targets_code onMismatch inner slot next
  | deconstruct name own fields, slot, next => by
    have tested : targets (test (.instanceOf slot name) onMismatch) = [] :=
      targets_test onMismatch rfl
    have below := targets_fieldCode onMismatch fields slot 0 next
    cases own <;> simp [code, tested, below]

theorem targets_fieldCode (onMismatch : Option JumpLabel) : ∀ (fields : List PatternTree)
    (slot : Slot) (index next : Nat), targets (fieldCode onMismatch fields slot index next).1 = []
  | [], _, _, _ => rfl
  | field :: fields, slot, index, next => by
    unfold fieldCode
    split
    · exact targets_fieldCode onMismatch fields slot (index + 1) next
    · have first := targets_code onMismatch field ⟨next⟩ (next + 1)
      have rest := targets_fieldCode onMismatch fields slot (index + 1)
        (code onMismatch field ⟨next⟩ (next + 1)).2
      simp [first, rest, Instruction.target?]

end

theorem targets_rootTest (slot : Slot) (tree : PatternTree) :
    targets (tree.rootTest slot) = [] := by
  induction tree with
  | wildcard | binding | constant | deconstruct => rfl
  | named _ _ ih => exact ih

end PatternTree

namespace MatchGroup

/-- The positions of the arms up to the first irrefutable one. -/
def reached : List (Nat × PatternTree) → List Nat
  | [] => []
  | (index, tree) :: rest => index :: if tree.isIrrefutable then [] else reached rest

/-- Dispatch code jumps to exactly those arms, whatever the strategy. -/
theorem targets_dispatchCode (strategy : Strategy) (exhaustive : Bool) (subject : Slot) :
    ∀ (arms : List (Nat × PatternTree)) (label slot : Nat),
      targets (dispatchCode strategy exhaustive subject arms label slot).1 =
        (reached arms).map armLabel
  | [], _, _ => rfl
  | (index, tree) :: rest, label, slot => by
    unfold dispatchCode reached
    split
    · rename_i ends
      -- An arm that is not irrefutable ends the chain only if there is no other behind it.
      have last : (if tree.isIrrefutable then [] else reached rest) = [] := by
        rcases Bool.or_eq_true_iff.mp ends with always | final
        · rw [if_pos always]
        · rw [List.isEmpty_iff.mp (Bool.and_eq_true_iff.mp final).1]
          exact ite_self _
      cases strategy <;> simp [last, Instruction.target?, PatternTree.targets_code]
    · rename_i goesOn
      have refutable : tree.isIrrefutable = false := by simp_all
      cases strategy with
      | branchChain =>
        simp [refutable, PatternTree.targets_rootTest, Instruction.target?,
          targets_dispatchCode .branchChain exhaustive subject rest]
      | ifChain =>
        simp [refutable, PatternTree.targets_code, Instruction.target?,
          targets_dispatchCode .ifChain exhaustive subject rest]

theorem targets_loweredCode (analysis : GroupAnalysis) (count : Nat)
    (arms : List (Nat × PatternTree)) :
    targets (loweredCode analysis count arms).1 = (reached arms).map armLabel := by
  unfold loweredCode
  split
  · rfl
  · simp [Instruction.target?, targets_dispatchCode]

/-- An arm is among them exactly if no arm before it is irrefutable. -/
theorem mem_reached_iff {arms : List (Nat × PatternTree)} (ordered : arms.Pairwise (·.1 < ·.1))
    {index : Nat} {tree : PatternTree} (member : (index, tree) ∈ arms) :
    index ∈ reached arms ↔ ∀ arm ∈ arms, arm.1 < index → arm.2.isIrrefutable = false := by
  induction arms with
  | nil => cases member
  | cons arm rest ih =>
    obtain ⟨first, shape⟩ := arm
    obtain ⟨smallest, orderedRest⟩ := List.pairwise_cons.mp ordered
    rcases List.mem_cons.mp member with same | later
    · cases same
      have none : ∀ arm ∈ rest, ¬ arm.1 < index := fun arm listed =>
        Nat.lt_asymm (smallest arm listed)
      simp only [reached, List.mem_cons_self, true_iff]
      intro arm listed before
      rcases List.mem_cons.mp listed with rfl | behind
      · exact absurd before (Nat.lt_irrefl _)
      · exact absurd before (none arm behind)
    · have before : first < index := smallest _ later
      cases irrefutable : shape.isIrrefutable with
      | true => simp [reached, irrefutable, before, Nat.ne_of_gt before]
      | false => simp [reached, irrefutable, Nat.ne_of_gt before, ih orderedRest later]

end MatchGroup

/-! What the analysis reports. -/

namespace ClassHierarchy

variable {hierarchy : ClassHierarchy}

/-- The test finds nothing below a row of wildcards. -/
def YieldsToWild (test : UsefulTest) : Prop :=
  ∀ (rows : List Row) (row : Row) (types : List TypeRef) (pool : TypePool),
    List.replicate row.length .wild ∈ rows →
    Ensures (test rows row types) pool fun answer _ => answer = none

theorem usefulHead_yieldsToWild {deeper : UsefulTest} (below : YieldsToWild deeper)
    {rows : List Row} (head : Head) (args : List Shape) {rest : Row}
    (sweeps : List.replicate (rest.length + 1) .wild ∈ rows) (type : TypeRef) (types : List TypeRef)
    (pool : TypePool) : Ensures (hierarchy.usefulHead deeper rows head args rest type types) pool
      fun answer _ => answer = none := by
  have specialized : List.replicate (args ++ rest).length .wild ∈
      rows.filterMap (Row.specialize? head args.length) :=
    List.mem_filterMap.mpr ⟨_, sweeps, by
      simp [List.replicate_succ, Row.specialize?, List.replicate_append_replicate]⟩
  refine Ensures.after fun argTypes between => ?_
  refine Ensures.bind ((below _ _ _ between specialized).mono fun answer after none => ?_)
  subst none
  exact Ensures.pure rfl

theorem findSomeM?_none {search : α → PoolM (Option β)} {elements : List α}
    (each : ∀ element ∈ elements, ∀ pool, Ensures (search element) pool fun answer _ =>
      answer = none)
    (pool : TypePool) : Ensures (elements.findSomeM? search) pool fun answer _ =>
      answer = none := by
  induction elements generalizing pool with
  | nil => exact Ensures.pure rfl
  | cons first rest ih =>
    refine Ensures.bind ((each first List.mem_cons_self pool).mono fun answer after none => ?_)
    subst none
    exact ih (fun element member => each element (List.mem_cons_of_mem _ member)) after

/-- One step of the test, if the test below it finds nothing there either. -/
theorem usefulStep_yieldsToWild {deeper : UsefulTest} (below : YieldsToWild deeper) :
    YieldsToWild (hierarchy.usefulStep deeper) := by
  intro rows row
  induction row generalizing rows with
  | nil =>
    intro types pool sweeps
    have some : rows ≠ [] := List.ne_nil_of_mem sweeps
    exact Ensures.pure (by simp [some])
  | cons shape rest ih =>
    intro types pool sweeps
    cases shape with
    | node head args => exact usefulHead_yieldsToWild below head args sweeps _ _ pool
    | wild =>
      have defaults : List.replicate rest.length .wild ∈ rows.filterMap Row.default? :=
        List.mem_filterMap.mpr ⟨_, sweeps, by simp [List.replicate_succ, Row.default?]⟩
      refine Ensures.after fun domain between => ?_
      have default :
          Ensures (hierarchy.withMissingHead domain (rows.filterMap Row.leading?) (types.headD .any)
          (hierarchy.usefulStep deeper (rows.filterMap Row.default?) rest types.tail)) between
          fun answer _ => answer = none := by
        refine Ensures.bind ((ih _ types.tail between defaults).mono fun answer after none => ?_)
        subst none
        exact Ensures.pure rfl
      cases domain with
      | infinite => exact default
      | finite heads =>
        dsimp only
        split
        · refine findSomeM?_none (fun head _ pool => Ensures.after fun argTypes after => ?_) between
          exact usefulHead_yieldsToWild below head _ sweeps _ _ after
        · exact default

theorem usefulWithin_yieldsToWild : ∀ constructors : Nat,
    YieldsToWild (hierarchy.usefulWithin constructors)
  | 0 => usefulStep_yieldsToWild fun _ _ _ _ _ _ _ ran => by cases ran
  | constructors + 1 => usefulStep_yieldsToWild (usefulWithin_yieldsToWild constructors)

theorem useful_yieldsToWild : YieldsToWild hierarchy.useful :=
  fun rows row => usefulWithin_yieldsToWild _ rows row

variable {store : PatternStore} {subject : TypeRef}

/-- One arm: its row, whether it is reported, and what is said about the others. -/
theorem armRows_cons {before : List Row} {index id : Nat} {live : List (Nat × Nat)}
    {pool after : TypePool} {rows : List Row} {reported : List Nat}
    (ran : (hierarchy.armRows store subject before ((index, id) :: live)).run pool =
      .ok ((rows, reported), after)) :
    ∃ shape witness middle others, Shape.ofStore store id = .ok shape ∧
      (hierarchy.useful before [shape] [subject]).run pool = .ok (witness, middle) ∧
      (hierarchy.armRows store subject (before ++ [[shape]]) live).run middle =
        .ok ((rows, others), after) ∧
      reported = if witness.isNone then index :: others else others := by
  obtain ⟨⟨shape, same⟩, lifted, searched⟩ := Except.bind_eq_ok ran
  obtain ⟨_, read, kept⟩ := Except.bind_eq_ok lifted
  cases kept
  obtain ⟨⟨witness, middle⟩, asked, rest⟩ := Except.bind_eq_ok searched
  obtain ⟨⟨⟨rows, others⟩, final⟩, continued, done⟩ := Except.bind_eq_ok rest
  cases done
  exact ⟨shape, witness, middle, others, read, asked, continued, rfl⟩

/-- Below a wildcard every arm is reported. -/
theorem armRows_reports_all {live : List (Nat × Nat)} {before : List Row} {pool after : TypePool}
    {rows : List Row} {reported : List Nat}
    (ran : (hierarchy.armRows store subject before live).run pool = .ok ((rows, reported), after))
    (sweeps : [.wild] ∈ before) : ∀ entry ∈ live, entry.1 ∈ reported := by
  induction live generalizing before pool reported with
  | nil => simp
  | cons entry live ih =>
    obtain ⟨shape, witness, middle, others, _, asked, continued, rfl⟩ := armRows_cons ran
    have nothing : witness = none :=
      useful_yieldsToWild before [shape] [subject] pool sweeps _ _ asked
    subst nothing
    intro other member
    rcases List.mem_cons.mp member with rfl | later
    · exact List.mem_cons_self
    · exact List.mem_cons_of_mem _ (ih continued (List.mem_append_left _ sweeps) other later)

/-- Every arm behind a pattern that names no constructor is reported. -/
theorem armRows_reports {first second : List (Nat × Nat)} {index id : Nat} {before : List Row}
    {pool after : TypePool} {rows : List Row} {reported : List Nat}
    (ran : (hierarchy.armRows store subject before (first ++ (index, id) :: second)).run pool =
      .ok ((rows, reported), after))
    (wild : Shape.ofStore store id = .ok .wild) : ∀ entry ∈ second, entry.1 ∈ reported := by
  induction first generalizing before pool reported with
  | nil =>
    obtain ⟨shape, witness, middle, others, read, _, continued, rfl⟩ := armRows_cons ran
    cases read.symm.trans wild
    intro entry member
    have listed := armRows_reports_all continued (by simp) entry member
    split
    · exact List.mem_cons_of_mem _ listed
    · exact listed
  | cons arm first ih =>
    obtain ⟨shape, witness, middle, others, _, _, continued, rfl⟩ := armRows_cons ran
    intro entry member
    have listed := ih continued entry member
    split
    · exact List.mem_cons_of_mem _ listed
    · exact listed

end ClassHierarchy

namespace MatchGroup
open PatternStore

variable {hierarchy : ClassHierarchy} {group : MatchGroup} {store : PatternStore}
  {pool after : TypePool} {analysis : GroupAnalysis} {reports : List Diagnostic}

theorem live_eq (group : MatchGroup) : group.live = (group.arms.map (·.pattern)).zipIdx.filterMap
    fun entry => entry.1.map (entry.2, ·) := by
  simp [live, List.zipIdx_map, List.filterMap_map]

theorem live_ordered (group : MatchGroup) : group.live.Pairwise (·.1 < ·.1) := by
  rw [live_eq]
  exact (ClassHierarchy.live_spec (group.arms.map (·.pattern))).2

theorem RepresentsArms.tree {arms : List (Nat × PatternTree)} {live : List (Nat × Nat)}
    (holds : RepresentsArms store arms live) {index id : Nat} (member : (index, id) ∈ live) :
    ∃ tree, (index, tree) ∈ arms ∧ store.Represents tree id := by
  induction holds with
  | nil => cases member
  | @cons arm entry arms live first _ ih =>
    rcases List.mem_cons.mp member with rfl | later
    · exact ⟨arm.2, by rw [show index = arm.1 from first.1.symm]; exact List.mem_cons_self, first.2⟩
    · obtain ⟨tree, listed, represents⟩ := ih later
      exact ⟨tree, List.mem_cons_of_mem _ listed, represents⟩

/-- In a checked group, the arms behind a pattern that names no constructor are reported. -/
theorem unreachable_of_check
    (checked : (group.check hierarchy store).run pool = .ok ((analysis, reports), after))
    {index id : Nat} (member : (index, id) ∈ group.live)
    (wild : Shape.ofStore store id = .ok .wild) : ∀ entry ∈ group.live, index < entry.1 →
    entry.1 ∈ analysis.coverage.unreachable := by
  obtain ⟨⟨coverage, _⟩, analysed, judged⟩ := Except.bind_eq_ok checked
  obtain ⟨⟨excused, _⟩, _, excusedRest⟩ := Except.bind_eq_ok judged
  obtain ⟨_, _, same⟩ := Except.bind_eq_ok excusedRest
  cases same
  obtain ⟨⟨⟨rows, unreachable⟩, _⟩, entered, rest⟩ := Except.bind_eq_ok analysed
  obtain ⟨_, _, kept⟩ := Except.bind_eq_ok rest
  cases kept
  have ran : (hierarchy.armRows store group.subject [] group.live).run pool = _ :=
    live_eq group ▸ entered
  obtain ⟨first, second, split⟩ := List.append_of_mem member
  have ordered := live_ordered group
  rw [split] at ran ordered ⊢
  have reported := ClassHierarchy.armRows_reports ran wild
  have behind : ∀ entry ∈ first ++ (index, id) :: second, index < entry.1 → entry ∈ second := by
    intro entry listed later
    rcases List.mem_append.mp listed with front | back
    · have earlier := (List.pairwise_append.mp ordered).2.2 entry front _ List.mem_cons_self
      exact absurd later (Nat.lt_asymm earlier)
    · rcases List.mem_cons.mp back with rfl | found
      · exact absurd later (Nat.lt_irrefl _)
      · exact found
  intro entry listed later
  have listedThere := reported entry (behind entry listed later)
  by_cases lenient : excused = true
  · rw [if_pos lenient]
    exact listedThere
  · rw [if_neg lenient]
    exact listedThere

/-- The pattern takes every value of its subject, although it takes a class apart. -/
def OwnsSubject (store : PatternStore) (id : Nat) : Prop :=
  store.isIrrefutable id = .ok true ∧ Shape.ofStore store id ≠ .ok .wild

/-- If all arms are typed, the code jumps to an arm that is not reported exactly if no arm before it
owns the subject. -/
theorem lower_targets_reachable
    (typed : ∀ arm ∈ group.arms, ∃ id, arm.pattern = some id ∧
      TypedAgainst hierarchy group.subject store id)
    (checked : (group.check hierarchy store).run pool = .ok ((analysis, reports), after)) :
    ∃ lowered final, group.lower analysis store = .ok (lowered, final) ∧
      ∀ index < group.arms.length, index ∉ analysis.coverage.unreachable →
        (armLabel index ∈ targets lowered.code ↔
          ∀ earlier < index, ∀ arm id, group.arms[earlier]? = some arm → arm.pattern = some id →
            ¬ OwnsSubject store id) := by
  have trees : ∀ entry ∈ group.live, ∃ tree, store.Represents tree entry.2 := by
    rintro ⟨index, id⟩ member
    obtain ⟨arm, present, pattern⟩ := mem_live.mp member
    obtain ⟨other, same, against⟩ := typed arm (List.mem_of_getElem? present)
    cases pattern.symm.trans same
    exact against.represents
  obtain ⟨arms, holds⟩ := exists_representsArms trees
  obtain ⟨lowered, final, ran, _, code, _⟩ := lower_completes analysis holds
  refine ⟨lowered, final, ran, fun index inside silent => ?_⟩
  obtain ⟨id, written, _⟩ := typed _ (List.getElem_mem inside)
  have live : (index, id) ∈ group.live := mem_live.mpr ⟨_, List.getElem?_eq_getElem inside, written⟩
  obtain ⟨tree, listed, _⟩ := holds.tree live
  have ordered : arms.Pairwise (·.1 < ·.1) := by
    have positions := List.pairwise_map.mpr (live_ordered group)
    rw [← holds.positions] at positions
    exact List.pairwise_map.mp positions
  have jumps : armLabel index ∈ targets lowered.code ↔ index ∈ reached arms := by
    rw [code, targets_loweredCode]
    exact List.mem_map_of_injective fun _ _ same => JumpLabel.mk.inj same
  rw [jumps, mem_reached_iff ordered listed]
  constructor
  · intro refutable earlier before arm other present pattern owns
    obtain ⟨shape, found, represents⟩ := holds.tree (mem_live.mpr ⟨arm, present, pattern⟩)
    have always := owns.1
    rw [represents.isIrrefutable_eq, refutable _ found before] at always
    cases always
  · intro disowned arm found before
    obtain ⟨other, present, represents⟩ := holds.pattern (show (arm.1, arm.2) ∈ arms from found)
    obtain ⟨entry, there, pattern⟩ := mem_live.mp present
    by_contra irrefutable
    have wild : Shape.ofStore store other = .ok .wild := by
      by_contra named
      refine disowned arm.1 before entry other there pattern ⟨?_, named⟩
      rw [represents.isIrrefutable_eq, eq_true_of_ne_false irrefutable]
    exact silent (unreachable_of_check checked present wild _ live before)

/-- A class and one below it; the first is the type at 7. -/
def twoClasses : ClassHierarchy where
  superclass name := if name = "Sub" then some ⟨7⟩ else none
  interfaces _ := []
  typeParams _ := []
  variants _ := none
  isAbstract _ := false
  components _ := []
  classes := ["Base", "Sub"]

/-- A match on the first class with two arms. -/
def twoArms : MatchGroup where
  subject := ⟨7⟩
  arms := [⟨some 2, .dummy⟩, ⟨some 3, .dummy⟩]
  span := .dummy

def basePool : TypePool := (({} : TypePool).intern (.class_ "Base")).2

/-- The pool once both classes are entered. -/
def bothPool : TypePool := (basePool.intern (.class_ "Sub")).2

/-- Two patterns that take classes apart, as they are written. -/
def writtenPair (first second : Name) : PatternStore :=
  ((({} : PatternStore).alloc (.deconstruct first []) .dummy).2.alloc
    (.deconstruct second []) .dummy).2

/-- A pattern that takes a class apart, typed against the first class. -/
def typedNode (name : Name) (type : TypeRef) : PatternNode where
  kind := .deconstruct name []
  span := .dummy
  type := type
  subject := ⟨7⟩
  ownClass := some "Base"
  state := .typed

theorem twoArms_typed (first second : Name) (one two : PatternStore) (between : TypePool)
    {final : TypePool} (ranFirst : runTyping twoClasses 0 ⟨7⟩ (writtenPair first second) basePool =
      .ok (.ok 2, one, between))
    (ranSecond : runTyping twoClasses 1 ⟨7⟩ one between = .ok (.ok 3, two, final)) :
    ∀ arm ∈ twoArms.arms, ∃ id, arm.pattern = some id ∧
    TypedAgainst twoClasses twoArms.subject two id := by
  have started : Reaches {} (writtenPair first second) :=
    .tail (.single (.alloc {} _ _)) (.alloc _ _ _)
  intro arm member
  obtain rfl | rfl : arm = ⟨some 2, .dummy⟩ ∨ arm = ⟨some 3, .dummy⟩ := by
    simpa [twoArms] using member
  · exact ⟨2, rfl, writtenPair first second, 0, basePool, one, between, started, ranFirst,
      .single (.typing ranSecond)⟩
  · exact ⟨3, rfl, one, 1, between, two, final, .tail started (.typing ranFirst), ranSecond, .refl⟩

/-- The class below first: both arms are jumped to. -/
theorem lower_targets_reachable_below :
    ∃ (store : PatternStore) (analysis : GroupAnalysis) (lowered : LoweredMatch) (final :
      PatternStore), twoArms.lower analysis store = .ok (lowered, final) ∧
      1 ∉ analysis.coverage.unreachable ∧
        armLabel 1 ∈ targets lowered.code := by
  let one : PatternStore := ((writtenPair "Sub" "Base").push (typedNode "Sub" ⟨8⟩)).2
  let two : PatternStore := (one.push (typedNode "Base" ⟨7⟩)).2
  have checked : (twoArms.check twoClasses two).run bothPool = .ok ((⟨{}, true⟩, []), bothPool) :=
    rfl
  obtain ⟨lowered, final, ran, reachable⟩ := lower_targets_reachable
    (twoArms_typed "Sub" "Base" one two bothPool rfl rfl) checked
  refine ⟨two, ⟨{}, true⟩, lowered, final, ran, by simp, (reachable 1 (by decide) (by simp)).mpr ?_⟩
  intro earlier before arm id present pattern owns
  obtain rfl : earlier = 0 := Nat.lt_one_iff.mp before
  cases present
  cases pattern
  have refutable : two.isIrrefutable 2 = .ok false := rfl
  rw [OwnsSubject, refutable] at owns
  cases owns.1

/-- The class of the subject first: the other arm is not reported, but no code jumps to it. -/
theorem lower_misses_reachable :
    ∃ (store final : PatternStore) (pool after : TypePool) (analysis : GroupAnalysis)
      (reports : List Diagnostic) (lowered : LoweredMatch),
      (∀ arm ∈ twoArms.arms, ∃ id, arm.pattern = some id ∧
        TypedAgainst twoClasses twoArms.subject store id) ∧
      (twoArms.check twoClasses store).run pool = .ok ((analysis, reports), after) ∧
      twoArms.lower analysis store = .ok (lowered, final) ∧
      1 < twoArms.arms.length ∧ 1 ∉ analysis.coverage.unreachable ∧
      armLabel 1 ∉ targets lowered.code := by
  let one : PatternStore := ((writtenPair "Base" "Sub").push (typedNode "Base" ⟨7⟩)).2
  let two : PatternStore := (one.push (typedNode "Sub" ⟨8⟩)).2
  exact ⟨two, two.markCompiled 2, bothPool, bothPool, ⟨{}, true⟩, [],
    ⟨.branchChain, [.store ⟨0⟩, .jump ⟨0⟩], [⟨⟨0⟩, []⟩, ⟨⟨1⟩, []⟩]⟩,
    twoArms_typed "Base" "Sub" one two basePool rfl rfl, rfl, rfl, by decide, by simp, by decide⟩

end MatchGroup
end ClassLang
