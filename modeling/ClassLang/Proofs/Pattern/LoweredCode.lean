import ClassLang.Proofs.Pattern.ControlFlow
import Mathlib.Data.List.Nodup
import Mathlib.Data.List.Pairwise

/-! The code of patterns and of whole matches is well formed: every part keeps to the slots that
were handed to it, and to the label it was given for a mismatch. -/

namespace ClassLang

/-- A test does nothing else. -/
theorem Instruction.quiet_of_isTest {check : Instruction} (test : check.isTest = true) :
    check.isConditional = false ∧ check.written? = none ∧ check.marked? = none ∧
    check.goal? = none ∧
      check.goesOn = true := by
  cases check <;> first | exact ⟨rfl, rfl, rfl, rfl, rfl⟩ | cases test

/-! Slots are handed out in order. -/

/-- The slots from one number up to another. -/
def slotsBetween (first last : Nat) : List Slot := (List.range' first (last - first)).map Slot.mk

@[simp] theorem slotsBetween_self (slot : Nat) : slotsBetween slot slot = [] := by
  simp [slotsBetween]

theorem slotsBetween_append {first middle last : Nat} (earlier : first ≤ middle)
    (later : middle ≤ last) :
    slotsBetween first middle ++ slotsBetween middle last = slotsBetween first last := by
  have ends : middle = first + (middle - first) := by omega
  have whole : last - first = (middle - first) + (last - middle) := by omega
  rw [slotsBetween, slotsBetween, slotsBetween, whole, ← List.range'_append_1, ← ends,
    List.map_append]

theorem slotsBetween_cons {first last : Nat} (less : first < last) :
    ⟨first⟩ :: slotsBetween (first + 1) last = slotsBetween first last := by
  rw [← slotsBetween_append (Nat.le_succ first) less]
  simp [slotsBetween]

theorem slotsBetween_nodup (first last : Nat) : (slotsBetween first last).Nodup :=
  List.pairwise_map.mpr
    (List.Pairwise.imp (fun differ same => differ (Slot.mk.inj same)) List.nodup_range')

/-! The code of a pattern. -/

/-- Code for the value in a slot: it writes the slots up to `last` one after the other, and only
leaves from a test. -/
structure Extracts (onMismatch : Option JumpLabel) (slot : Slot) (next last : Nat)
    (code : List Instruction) : Prop where
  grows : next ≤ last
  paired : Paired code
  written : written code = slotsBetween next last
  unmarked : marks code = []
  goesOn : ∀ instruction ∈ code, instruction.goesOn = true
  goals : ∀ instruction ∈ code, ∀ label, instruction.goal? = some label → onMismatch = some label
  supplied : ∀ base known : List Slot, slot ∈ known → Supplied base known code

namespace Extracts
variable {onMismatch : Option JumpLabel} {slot : Slot} {next middle last : Nat}
  {code first second : List Instruction}

theorem nothing : Extracts onMismatch slot next next [] where
  grows := Nat.le_refl next
  paired := .nil
  written := by simp
  unmarked := rfl
  goesOn _ member := nomatch member
  goals _ member := nomatch member
  supplied _ _ _ := trivial

theorem test {check : Instruction} (test : check.isTest = true) (reads : check.read? = some slot) :
    Extracts onMismatch slot next next (PatternTree.test check onMismatch) := by
  cases onMismatch with
  | none => exact nothing
  | some label =>
    obtain ⟨noJump, silent, unmarked, nowhere, goesOn⟩ := Instruction.quiet_of_isTest test
    have both {instruction : Instruction} (member : instruction ∈ [check, .jumpIfMismatch label]) :
        instruction = check ∨ instruction = .jumpIfMismatch label := by simpa using member
    constructor
    case grows => exact Nat.le_refl next
    case paired => exact .pair test noJump rfl rfl
    case written =>
      rw [PatternTree.test, written_cons, silent, slotsBetween_self]
      rfl
    case unmarked =>
      rw [PatternTree.test, marks_cons, unmarked]
      rfl
    case goesOn =>
      intro instruction member
      rcases both member with rfl | rfl
      · exact goesOn
      · rfl
    case goals =>
      intro instruction member goal found
      rcases both member with rfl | rfl
      · rw [nowhere] at found
        cases found
      · exact found
    case supplied =>
      intro base known holds
      constructor
      · intro other same
        exact Option.some.inj (reads.symm.trans same) ▸ holds
      · exact ⟨(fun _ absent => by cases absent), trivial⟩

theorem append (earlier : Extracts onMismatch slot next middle first)
    (later : Extracts onMismatch slot middle last second) :
    Extracts onMismatch slot next last (first ++ second) where
  grows := Nat.le_trans earlier.grows later.grows
  paired := earlier.paired.append later.paired
  written := by rw [written_append, earlier.written, later.written,
    slotsBetween_append earlier.grows later.grows]
  unmarked := by rw [marks_append, earlier.unmarked, later.unmarked, List.append_nil]
  goesOn instruction member := (List.mem_append.mp member).elim (earlier.goesOn _) (later.goesOn _)
  goals instruction member := (List.mem_append.mp member).elim (earlier.goals _) (later.goals _)
  supplied base known holds := by
    refine Supplied.append.mpr ⟨earlier.supplied base known holds, later.supplied base _ ?_⟩
    rw [foldl_supply earlier.unmarked]
    exact List.mem_append_right _ holds

theorem bind (name : Name) : Extracts onMismatch slot next next [.bind name slot] where
  grows := Nat.le_refl next
  paired := .single rfl rfl
  written := by simp [Instruction.written?]
  unmarked := rfl
  goesOn instruction member := by rw [List.mem_singleton.mp member]; rfl
  goals instruction member label found := by rw [List.mem_singleton.mp member] at found; cases found
  supplied _ _ holds := ⟨fun _ same => Option.some.inj same ▸ holds, trivial⟩

theorem project (index : Nat) (below : Extracts onMismatch ⟨next⟩ (next + 1) last code) :
    Extracts onMismatch slot next last (.project slot index ⟨next⟩ :: code) where
  grows := Nat.le_of_succ_le below.grows
  paired := .cons rfl rfl below.paired
  written := by
    rw [written_cons, below.written]
    exact slotsBetween_cons below.grows
  unmarked := by simp [below.unmarked, Instruction.marked?]
  goesOn := List.forall_mem_cons.mpr ⟨rfl, below.goesOn⟩
  goals := List.forall_mem_cons.mpr ⟨nofun, below.goals⟩
  supplied base known holds :=
    ⟨fun _ same => Option.some.inj same ▸ holds, below.supplied base _ List.mem_cons_self⟩

theorem no_goal (extracts : Extracts none slot next last code) :
    ∀ instruction ∈ code, instruction.goal? = none := by
  intro instruction member
  by_contra some
  obtain ⟨label, found⟩ := Option.ne_none_iff_exists'.mp some
  cases extracts.goals instruction member label found

end Extracts

namespace PatternTree

mutual

theorem code_extracts (onMismatch : Option JumpLabel) :
    ∀ (tree : PatternTree) (slot : Slot) (next : Nat),
      Extracts onMismatch slot next (tree.code onMismatch slot next).2
        (tree.code onMismatch slot next).1
  | wildcard, _, _ => .nothing
  | constant _, _, _ => .test rfl rfl
  | binding name, _, _ => .bind name
  | named name inner, slot, next =>
    (Extracts.bind name).append (code_extracts onMismatch inner slot next)
  | deconstruct name own fields, slot, next => by
    have below := fieldCode_extracts onMismatch fields slot 0 next
    have tested : Extracts onMismatch slot next next (test (.instanceOf slot name) onMismatch) :=
      .test rfl rfl
    cases own with
    | true => exact below
    | false => exact tested.append below

theorem fieldCode_extracts (onMismatch : Option JumpLabel) :
    ∀ (fields : List PatternTree) (slot : Slot) (index next : Nat),
      Extracts onMismatch slot next (fieldCode onMismatch fields slot index next).2
      (fieldCode onMismatch fields slot index next).1
  | [], _, _, _ => .nothing
  | field :: fields, slot, index, next => by
    unfold fieldCode
    split
    · exact fieldCode_extracts onMismatch fields slot (index + 1) next
    · have first := code_extracts onMismatch field ⟨next⟩ (next + 1)
      exact (first.project index).append (fieldCode_extracts onMismatch fields slot (index + 1) _)

end

/-- A refutable pattern has one root test. -/
theorem rootTest_of_refutable (slot : Slot) (tree : PatternTree)
    (refutable : tree.isIrrefutable = false) : ∃ check, tree.rootTest slot = [check] ∧
    check.isTest = true ∧ check.read? = some slot := by
  induction tree with
  | wildcard | binding => cases refutable
  | constant | deconstruct => exact ⟨_, rfl, rfl, rfl⟩
  | named _ _ ih => exact ih refutable

end PatternTree

/-! The code of a whole match. -/

namespace MatchGroup
open PatternStore

/-- Dispatch code and the code on entry to the arms. It writes the slots from `slot` on and leaves
at its end; where control meets, only the slots in `base` are known. -/
structure Dispatches (base : List Slot) (label slot : Nat)
    (result : List Instruction × List (Nat × List Instruction)) : Prop where
  paired : Paired result.1
  forward : Forward result.1
  leaves : ∃ final ∈ result.1.getLast?, final.goesOn = false
  distinct : (marks result.1).Nodup
  above : ∀ marked ∈ marks result.1, label ≤ marked.raw
  supplied : ∀ known : List Slot, base ⊆ known → Supplied base known result.1
  entries : ∀ entry ∈ result.2, ∃ subject ∈ base, ∃ next last,
    Extracts none subject next last entry.2
  written : ∃ last ≥ slot, (written (result.1 ++ result.2.flatMap Prod.snd)).Perm
    (slotsBetween slot last)

namespace Dispatches
variable {base : List Slot} {subject : Slot} {label slot last index : Nat}
  {code : List Instruction} {later : List Instruction × List (Nat × List Instruction)}

theorem fails : Dispatches base label slot ([.matchError], []) where
  paired := .single rfl rfl
  forward := ⟨nofun, trivial⟩
  leaves := ⟨_, rfl, rfl⟩
  distinct := List.nodup_nil
  above _ member := nomatch member
  supplied _ _ := ⟨nofun, trivial⟩
  entries _ member := nomatch member
  written := ⟨slot, Nat.le_refl slot, by simp [Instruction.written?]⟩

/-- A jump alone. -/
theorem jumps : Dispatches base label slot ([.jump (armLabel index)], []) where
  paired := .single rfl rfl
  forward := ⟨nofun, trivial⟩
  leaves := ⟨_, rfl, rfl⟩
  distinct := List.nodup_nil
  above _ member := nomatch member
  supplied _ _ := ⟨nofun, trivial⟩
  entries _ member := nomatch member
  written := ⟨slot, Nat.le_refl slot, by simp [Instruction.written?]⟩

/-- The last arm of a chain, entered with its bindings. -/
theorem enters (bindings : Extracts none subject slot last code) :
    Dispatches [subject] label slot ([.jump (armLabel index)], [(index, code)]) where
  paired := .single rfl rfl
  forward := ⟨nofun, trivial⟩
  leaves := ⟨_, rfl, rfl⟩
  distinct := List.nodup_nil
  above _ member := nomatch member
  supplied _ _ := ⟨nofun, trivial⟩
  entries _ member := List.mem_singleton.mp member ▸
    ⟨subject, List.mem_singleton_self _, slot, last, bindings⟩
  written := ⟨last, bindings.grows, by simp [Instruction.written?, bindings.written]⟩

/-- The last arm of a chain, entered when everything is bound. -/
theorem binds (bindings : Extracts none subject slot last code) :
    Dispatches [subject] label slot (code ++ [.jump (armLabel index)], []) where
  paired := bindings.paired.append (.single rfl rfl)
  forward := Forward.append ⟨nofun, trivial⟩ fun _ member => nomatch bindings.goals _ member _ rfl
  leaves := ⟨.jump (armLabel index), by simp, rfl⟩
  distinct := by simp [bindings.unmarked, Instruction.marked?]
  above := by simp [bindings.unmarked, Instruction.marked?]
  supplied known holds := Supplied.append.mpr
    ⟨bindings.supplied _ known (holds (List.mem_singleton_self _)), nofun, trivial⟩
  entries _ member := nomatch member
  written := ⟨last, bindings.grows, by simp [Instruction.written?, bindings.written]⟩

/-- One test before the other arms. -/
theorem tests {check : Instruction} (test : check.isTest = true)
    (reads : check.read? = some subject) (bindings : Extracts none subject slot last code)
    (others : Dispatches [subject] label last later) : Dispatches [subject] label slot
      ([check] ++ .jumpIfMatch (armLabel index) :: later.1, (index, code) :: later.2) := by
  obtain ⟨noJump, silent, unmarked, nowhere, goesOn⟩ := Instruction.quiet_of_isTest test
  have same : marks ([check] ++ .jumpIfMatch (armLabel index) :: later.1) = marks later.1 := by
    rw [marks_append, marks_cons, marks_cons, unmarked]
    rfl
  constructor
  case paired => exact (Paired.pair test noJump rfl rfl).append others.paired
  case forward =>
    refine ⟨?_, nofun, others.forward⟩
    rintro label rfl
    cases test
  case leaves =>
    obtain ⟨final, ends, leaves⟩ := others.leaves
    refine ⟨final, ?_, leaves⟩
    simp [List.getLast?_cons, Option.mem_def.mp ends]
  case distinct => exact same ▸ others.distinct
  case above => exact same ▸ others.above
  case supplied =>
    intro known holds
    refine ⟨fun other found => ?_, nofun, others.supplied _ ?_⟩
    · cases reads.symm.trans found
      exact holds (List.mem_singleton_self _)
    · rw [supply_eq unmarked, silent]
      exact holds
  case entries =>
    exact List.forall_mem_cons.mpr
      ⟨⟨subject, List.mem_singleton_self _, slot, last, bindings⟩, others.entries⟩
  case written =>
    obtain ⟨final, grows, permuted⟩ := others.written
    refine ⟨final, Nat.le_trans bindings.grows grows, ?_⟩
    rw [written_append] at permuted
    simp only [List.flatMap_cons, written_append, written_cons, written_nil, silent,
      bindings.written]
    rw [← slotsBetween_append bindings.grows grows]
    exact List.perm_append_comm_assoc _ _ _ |>.trans (permuted.append_left _)

/-- All tests of an arm, then the arm, before the other arms. -/
theorem tries (checks : Extracts (some ⟨label⟩) subject slot last code)
    (others : Dispatches [subject] (label + 1) last later) :
    Dispatches [subject] label slot
      (code ++ .jump (armLabel index) :: .mark ⟨label⟩ :: later.1, later.2) := by
  have same : marks (code ++ .jump (armLabel index) :: .mark ⟨label⟩ :: later.1) =
      ⟨label⟩ :: marks later.1 := by
    simp [checks.unmarked, Instruction.marked?]
  constructor
  case paired => exact checks.paired.append (.cons rfl rfl (.cons rfl rfl others.paired))
  case forward =>
    refine Forward.append ⟨nofun, nofun, others.forward⟩ fun missed member => ?_
    cases checks.goals _ member missed rfl
    simp
  case leaves =>
    obtain ⟨final, ends, leaves⟩ := others.leaves
    refine ⟨final, ?_, leaves⟩
    simp [List.getLast?_cons, Option.mem_def.mp ends]
  case distinct =>
    rw [same]
    exact List.nodup_cons.mpr
      ⟨fun member => Nat.not_succ_le_self _ (others.above _ member), others.distinct⟩
  case above =>
    rw [same]
    exact List.forall_mem_cons.mpr
      ⟨Nat.le_refl _, fun _ member => Nat.le_of_succ_le (others.above _ member)⟩
  case supplied =>
    intro known holds
    exact Supplied.append.mpr
      ⟨checks.supplied _ known (holds (List.mem_singleton_self _)), nofun, nofun,
        others.supplied _ (List.Subset.refl _)⟩
  case entries => exact others.entries
  case written =>
    obtain ⟨final, grows, permuted⟩ := others.written
    refine ⟨final, Nat.le_trans checks.grows grows, ?_⟩
    rw [← slotsBetween_append checks.grows grows, ← checks.written]
    simpa [Instruction.written?] using permuted.append_left (ClassLang.written code)

end Dispatches

theorem dispatchCode_dispatches (strategy : Strategy) (exhaustive : Bool) (subject : Slot) :
    ∀ (arms : List (Nat × PatternTree)) (label slot : Nat),
      Dispatches [subject] label slot (dispatchCode strategy exhaustive subject arms label slot)
  | [], _, _ => .fails
  | (index, tree) :: rest, label, slot => by
    have bindings := tree.code_extracts none subject slot
    unfold dispatchCode
    split
    · cases strategy with
      | branchChain => exact .enters bindings
      | ifChain => exact .binds bindings
    · rename_i goesOn
      cases strategy with
      | branchChain =>
        have refutable : tree.isIrrefutable = false := by simp_all
        obtain ⟨check, only, test, reads⟩ := tree.rootTest_of_refutable subject refutable
        simp only [only]
        exact .tests test reads bindings
          (dispatchCode_dispatches .branchChain exhaustive subject rest _ _)
      | ifChain =>
        exact .tries (tree.code_extracts (some ⟨label⟩) subject slot)
          (dispatchCode_dispatches .ifChain exhaustive subject rest _ _)

/-- Code jumps to arms that are there. -/
theorem reached_sublist : ∀ arms : List (Nat × PatternTree), (reached arms).Sublist
    (arms.map Prod.fst)
  | [] => .slnil
  | (index, tree) :: rest => by
    unfold reached
    split
    · exact List.singleton_sublist.mpr List.mem_cons_self
    · exact (reached_sublist rest).cons_cons index

variable {lowered : LoweredMatch} {entries : List (Nat × List Instruction)} {count : Nat}

/-- The targets of a lowered match, with what is done on entry to each. -/
def entered (entries : List (Nat × List Instruction)) (count : Nat) : List ArmTarget :=
  (List.range count).map fun index => ⟨armLabel index, (entries.lookup index).getD []⟩

theorem mem_of_entered {target : ArmTarget} (member : target ∈ entered entries count) :
    target.bindings = [] ∨ ∃ entry ∈ entries, entry.2 = target.bindings := by
  obtain ⟨index, -, rfl⟩ := List.mem_map.mp member
  cases found : entries.lookup index with
  | none => exact .inl rfl
  | some code =>
    obtain ⟨before, after, rfl, -⟩ := List.lookup_eq_some_iff.mp found
    exact .inr ⟨(index, code), List.mem_append_right _ List.mem_cons_self, rfl⟩

/-- If no slot is written twice on entry to different arms, then none is in the order of the
targets. -/
theorem entered_written {code : List Instruction}
    (once : (written (code ++ entries.flatMap Prod.snd)).Nodup) :
    (written (code ++ (entered entries count).flatMap (·.bindings))).Nodup := by
  have parts {α : Type} (list : List α) (part : α → List Instruction) :
      written (list.flatMap part) = list.flatMap fun element => written (part element) :=
    List.filterMap_flatMap
  rw [written_append, parts, List.nodup_append] at once ⊢
  obtain ⟨codeOnce, entriesOnce, apart⟩ := once
  obtain ⟨each, disjoint⟩ := List.nodup_flatMap.mp entriesOnce
  have : Std.Symm (Function.onFun List.Disjoint fun entry : Nat × List Instruction =>
    written entry.2) :=
    ⟨fun _ _ apart _ earlier later => apart later earlier⟩
  have listed {index : Nat} {slot : Slot}
      (member : slot ∈ written ((entries.lookup index).getD [])) : ∃ code, (index, code) ∈ entries ∧
      entries.lookup index = some code ∧ slot ∈ written code := by
    cases found : entries.lookup index with
    | none => simp [found] at member
    | some code =>
      obtain ⟨before, after, rfl, -⟩ := List.lookup_eq_some_iff.mp found
      exact ⟨code, List.mem_append_right _ List.mem_cons_self, rfl, by simpa [found] using member⟩
  refine ⟨codeOnce, ?_, ?_⟩
  · rw [entered, List.flatMap_map]
    refine List.nodup_flatMap.mpr ⟨fun index _ => ?_, ?_⟩
    · cases found : entries.lookup index with
      | none => exact List.nodup_nil
      | some code =>
        obtain ⟨before, after, rfl, -⟩ := List.lookup_eq_some_iff.mp found
        exact each (index, code) (List.mem_append_right _ List.mem_cons_self)
    · refine List.nodup_range.imp fun differ slot earlier later => ?_
      obtain ⟨first, inside, -, inFirst⟩ := listed earlier
      obtain ⟨second, there, -, inSecond⟩ := listed later
      exact disjoint.forall inside there (fun same => differ (congrArg Prod.fst same))
        inFirst inSecond
  · intro slot inCode other inEntry
    obtain ⟨target, member, there⟩ := List.mem_flatMap.mp inEntry
    rcases mem_of_entered member with none | ⟨entry, present, same⟩
    · simp [none] at there
    · exact apart slot inCode other (List.mem_flatMap.mpr ⟨entry, present, same ▸ there⟩)

/-- An instruction takes the subject, the dispatch code follows, and there is a target for each
arm. -/
structure Assembled (lowered : LoweredMatch) (first : Instruction) (code : List Instruction)
    (entries : List (Nat × List Instruction)) (count : Nat) : Prop where
  opens : first = .store ⟨0⟩ ∨ first = .discard
  dispatches : Dispatches first.written?.toList count 1 (code, entries)
  whole : lowered.code = first :: code
  arms : lowered.arms = entered entries count
  jumps : ∀ label ∈ targets lowered.code, ∃ index < count, armLabel index = label

namespace Assembled
variable {first : Instruction} {code : List Instruction} {target : ArmTarget}
  (assembled : Assembled lowered first code entries count)
include assembled

theorem quiet : first.read? = none ∧ first.goal? = none ∧ first.marked? = none ∧
    first.isTest = false ∧ first.isConditional = false := by
  rcases assembled.opens with rfl | rfl <;> exact ⟨rfl, rfl, rfl, rfl, rfl⟩

theorem marks_eq : marks lowered.code = marks code := by
  obtain ⟨_, _, unmarked, _⟩ := assembled.quiet
  rw [assembled.whole, marks_cons, unmarked]
  rfl

theorem distinct : (marks lowered.code).Nodup := assembled.marks_eq ▸ assembled.dispatches.distinct

/-- The labels of the arms lie below those that the code marks. -/
theorem unmarked : ∀ target ∈ lowered.arms, target.label ∉ marks lowered.code := by
  intro target member marked
  obtain ⟨index, listed, rfl⟩ := List.mem_map.mp (assembled.arms ▸ member)
  have above : count ≤ index := assembled.dispatches.above _ (assembled.marks_eq ▸ marked)
  exact Nat.not_lt_of_le above (List.mem_range.mp listed)

theorem targeted : ∀ label ∈ targets lowered.code, ∃ target ∈ lowered.arms,
    target.label = label := by
  intro label member
  obtain ⟨index, inside, rfl⟩ := assembled.jumps label member
  rw [assembled.arms]
  exact ⟨_, List.mem_map_of_mem (List.mem_range.mpr inside), rfl⟩

/-- An arm is entered with the code of a pattern, which has the subject to start from if it has code
at all. -/
theorem extracts (member : target ∈ lowered.arms) : ∃ subject next last,
    Extracts none subject next last target.bindings ∧
    (target.bindings = [] ∨ subject ∈ first.written?.toList) := by
  rcases mem_of_entered (assembled.arms ▸ member) with none | ⟨entry, present, same⟩
  · exact ⟨⟨0⟩, 0, 0, none ▸ .nothing, .inl none⟩
  · obtain ⟨subject, based, next, last, extracts⟩ := assembled.dispatches.entries entry present
    exact ⟨subject, next, last, same ▸ extracts, .inr based⟩

theorem straight : ∀ target ∈ lowered.arms, ∀ instruction ∈ target.bindings,
    instruction.goal? = none ∧ instruction.marked? = none := by
  intro target member instruction listed
  obtain ⟨_, _, _, extracts, _⟩ := assembled.extracts member
  exact ⟨extracts.no_goal instruction listed,
    List.filterMap_eq_nil_iff.mp extracts.unmarked instruction listed⟩

theorem paired : Paired lowered.code := by
  obtain ⟨_, _, _, noTest, noJump⟩ := assembled.quiet
  exact assembled.whole ▸ assembled.dispatches.paired.cons noTest noJump

theorem entriesPaired : ∀ target ∈ lowered.arms, Paired target.bindings := by
  intro target member
  obtain ⟨_, _, _, extracts, _⟩ := assembled.extracts member
  exact extracts.paired

theorem forward : Forward lowered.code := by
  rw [assembled.whole]
  refine ⟨?_, assembled.dispatches.forward⟩
  rintro label rfl
  obtain ⟨_, _, _, _, noJump⟩ := assembled.quiet
  cases noJump

theorem sourced : lowered.Sourced first code := by
  obtain ⟨reads, nowhere, unmarked, _⟩ := assembled.quiet
  refine ⟨assembled.whole, reads, nowhere, unmarked,
    assembled.dispatches.supplied _ (List.Subset.refl _), ?_, assembled.straight⟩
  intro target member
  obtain ⟨subject, _, _, extracts, none | based⟩ := assembled.extracts member
  · exact none ▸ trivial
  · exact extracts.supplied _ _ based

theorem written_once : (written (lowered.code ++ lowered.arms.flatMap (·.bindings))).Nodup := by
  obtain ⟨last, grows, permuted⟩ := assembled.dispatches.written
  rw [assembled.arms]
  apply entered_written
  rw [assembled.whole, List.cons_append, written_cons]
  have once : (⟨0⟩ :: written (code ++ entries.flatMap Prod.snd)).Nodup := by
    rw [(permuted.cons _).nodup_iff, slotsBetween_cons grows]
    exact slotsBetween_nodup 0 last
  rcases assembled.opens with rfl | rfl
  · exact once
  · exact once.of_cons

theorem wellFormed : lowered.WellFormed where
  labels := by
    have same : lowered.arms.map (·.label) = (List.range count).map armLabel := by
      simp [assembled.arms, entered, Function.comp_def]
    rw [same]
    exact List.nodup_range.map fun _ _ same => JumpLabel.mk.inj same
  unmarked := assembled.unmarked
  mismatches position label found := by
    obtain ⟨later, behind, marked⟩ := assembled.forward.later found
    exact ⟨List.count_eq_one_of_mem assembled.distinct
      (mem_marks.mpr (List.mem_of_getElem? marked)), later, behind, marked⟩
  jumps := assembled.targeted
  entries target member instruction listed := by
    obtain ⟨_, _, _, extracts, _⟩ := assembled.extracts member
    exact ⟨extracts.goesOn instruction listed, assembled.straight target member instruction listed⟩
  tests _ _ found test := LoweredMatch.jump_of_paired assembled.paired
    assembled.entriesPaired found test
  conditions _ _ found jump :=
    LoweredMatch.test_of_paired assembled.paired assembled.entriesPaired found jump
  written := assembled.written_once
  read _ _ visited _ found _ reads := assembled.sourced.read_written visited found reads
  settles := by
    obtain ⟨final, ends, leaves⟩ := assembled.dispatches.leaves
    refine LoweredMatch.settles_of_forward assembled.distinct assembled.unmarked assembled.forward
      assembled.targeted ⟨final, ?_, leaves⟩ 0 ?_
    · simp [assembled.whole, List.getLast?_cons, Option.mem_def.mp ends]
    · simp [assembled.whole]

end Assembled

/-- The code of a match takes the subject and then dispatches. -/
theorem loweredCode_dispatches (analysis : GroupAnalysis) (count : Nat)
    (arms : List (Nat × PatternTree)) :
    ∃ first code entries, (first = .store ⟨0⟩ ∨ first = .discard) ∧
      loweredCode analysis count arms = (first :: code, entries) ∧
      Dispatches first.written?.toList count 1 (code, entries) := by
  unfold loweredCode
  split
  · exact ⟨_, _, _, .inr rfl, rfl, .jumps⟩
  · exact ⟨_, _, _, .inl rfl, rfl, dispatchCode_dispatches ..⟩

/-- Whatever the analysis says, lowering a group of typed arms gives well-formed code, with a target
for each arm. -/
theorem lower_wellFormed {hierarchy : ClassHierarchy} {group : MatchGroup} {store : PatternStore}
    (analysis : GroupAnalysis)
    (typed : ∀ entry ∈ group.live, TypedAgainst hierarchy group.subject store entry.2) :
    ∃ lowered after, group.lower analysis store = .ok (lowered, after) ∧ group.Labels lowered ∧
      lowered.WellFormed := by
  obtain ⟨arms, holds⟩ := exists_representsArms fun entry member => (typed entry member).represents
  obtain ⟨lowered, after, ran, -, code, places⟩ := lower_completes analysis holds
  have labels := lower_labels ran
  refine ⟨lowered, after, ran, labels, ?_⟩
  have length : lowered.arms.length = group.arms.length := by
    simpa using congrArg List.length labels
  have same : lowered.arms = entered (loweredCode analysis group.arms.length arms).2
      group.arms.length := by
    apply List.ext_getElem?
    intro index
    by_cases inside : index < group.arms.length
    · simp [places index inside, entered, inside]
    · rw [List.getElem?_eq_none (by omega), List.getElem?_eq_none (by simp [entered]; omega)]
  have jumps : ∀ label ∈ targets lowered.code, ∃ index < group.arms.length,
      armLabel index = label := by
    intro label member
    rw [code, targets_loweredCode] at member
    obtain ⟨index, reaches, rfl⟩ := List.mem_map.mp member
    have listed := (reached_sublist arms).subset reaches
    rw [holds.positions] at listed
    obtain ⟨⟨_, id⟩, live, rfl⟩ := List.mem_map.mp listed
    obtain ⟨arm, present, -⟩ := mem_live.mp live
    exact ⟨_, (List.getElem?_eq_some_iff.mp present).1, rfl⟩
  obtain ⟨first, rest, entries, opens, split, dispatches⟩ :=
    loweredCode_dispatches analysis group.arms.length arms
  rw [split] at code same
  exact Assembled.wellFormed ⟨opens, dispatches, code, same, jumps⟩

/-- A class and one below it: the test of the first arm goes to the second arm on a mismatch. -/
theorem lower_wellFormed_below : ∃ (store after : PatternStore) (lowered : LoweredMatch),
    twoArms.lower ⟨{}, false⟩ store = .ok (lowered, after) ∧
      lowered.code = [.store ⟨0⟩, .instanceOf ⟨0⟩ "Sub", .jumpIfMismatch ⟨2⟩, .jump ⟨0⟩, .mark ⟨2⟩,
        .jump ⟨1⟩] ∧
      lowered.WellFormed := by
  let one : PatternStore := ((writtenPair "Sub" "Base").push (typedNode "Sub" ⟨8⟩)).2
  let two : PatternStore := (one.push (typedNode "Base" ⟨7⟩)).2
  have typed : ∀ entry ∈ twoArms.live, TypedAgainst twoClasses twoArms.subject two entry.2 := by
    rintro ⟨index, id⟩ member
    obtain ⟨arm, present, pattern⟩ := mem_live.mp member
    obtain ⟨other, same, typed⟩ :=
      twoArms_typed "Sub" "Base" one two bothPool rfl rfl arm (List.mem_of_getElem? present)
    cases pattern.symm.trans same
    exact typed
  obtain ⟨lowered, after, ran, -, wellFormed⟩ := lower_wellFormed ⟨{}, false⟩ typed
  refine ⟨two, after, lowered, ran, ?_, wellFormed⟩
  cases ran
  rfl

end MatchGroup
end ClassLang
