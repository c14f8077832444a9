import ClassLang.Proofs.Pattern.Dispatch

/-! Running dispatch code: the arm a value is sent to, and what its names hold there. -/

namespace ClassLang

/-- The label an instruction marks. -/
def Instruction.marked? : Instruction → Option JumpLabel
  | mark label => some label
  | _ => none

/-- The labels marked in some code. -/
def marks (code : List Instruction) : List JumpLabel := code.filterMap Instruction.marked?

@[simp] theorem marks_nil : marks [] = [] := rfl

@[simp] theorem marks_cons (instruction : Instruction) (code : List Instruction) :
    marks (instruction :: code) = instruction.marked?.toList ++ marks code := by
  cases found : instruction.marked? with
  | none => exact List.filterMap_cons_none found
  | some label => exact List.filterMap_cons_some found

@[simp] theorem marks_append (first second : List Instruction) :
    marks (first ++ second) = marks first ++ marks second :=
  List.filterMap_append

/-- A label is looked for behind code that does not mark it. -/
theorem codeAfter_append {label : JumpLabel} {front : List Instruction} (rest : List Instruction)
    (unmarked : label ∉ marks front) : codeAfter label (front ++ rest) = codeAfter label rest := by
  induction front with
  | nil => rfl
  | cons instruction front ih =>
    cases instruction with
    | mark other =>
      have differ : other ≠ label ∧ label ∉ marks front := by
        simpa [Instruction.marked?, eq_comm] using unmarked
      simp only [List.cons_append, codeAfter, differ.1, if_false]
      exact ih differ.2
    | _ => exact ih unmarked

theorem codeAfter_eq_none {label : JumpLabel} {code : List Instruction}
    (unmarked : label ∉ marks code) : codeAfter label code = none := by
  have searched := codeAfter_append [] unmarked
  rwa [List.append_nil] at searched

namespace PatternTree

theorem marks_test (check : Instruction) (onMismatch : Option JumpLabel)
    (unmarked : check.marked? = none) : marks (test check onMismatch) = [] := by
  cases onMismatch with
  | none => rfl
  | some label =>
    simp only [test, marks_cons, unmarked]
    rfl

mutual

/-- The code of a pattern has no marks. -/
theorem marks_code (onMismatch : Option JumpLabel) : ∀ (tree : PatternTree) (slot : Slot)
    (next : Nat), marks (tree.code onMismatch slot next).1 = []
  | wildcard, _, _ | binding _, _, _ => rfl
  | constant value, slot, _ => marks_test _ onMismatch rfl
  | named _ inner, slot, next => marks_code onMismatch inner slot next
  | deconstruct name own fields, slot, next => by
    have tested := marks_test (.instanceOf slot name) onMismatch rfl
    have below := marks_fieldCode onMismatch fields slot 0 next
    cases own <;> simp [code, tested, below]

theorem marks_fieldCode (onMismatch : Option JumpLabel) : ∀ (fields : List PatternTree)
    (slot : Slot) (index next : Nat), marks (fieldCode onMismatch fields slot index next).1 = []
  | [], _, _, _ => rfl
  | field :: fields, slot, index, next => by
    unfold fieldCode
    split
    · exact marks_fieldCode onMismatch fields slot (index + 1) next
    · have first := marks_code onMismatch field ⟨next⟩ (next + 1)
      have rest := marks_fieldCode onMismatch fields slot (index + 1)
        (code onMismatch field ⟨next⟩ (next + 1)).2
      simp [first, rest, Instruction.marked?]

end

/-- The test of a pattern has no marks. -/
theorem marks_rootTest (slot : Slot) (tree : PatternTree) : marks (tree.rootTest slot) = [] := by
  induction tree with
  | wildcard | binding | constant | deconstruct => rfl
  | named _ _ ih => exact ih

end PatternTree

namespace MatchGroup

/-- Dispatch code marks labels from the given one on. -/
theorem marks_dispatchCode (strategy : Strategy) (exhaustive : Bool) (subject : Slot) :
    ∀ (arms : List (Nat × PatternTree)) (label slot : Nat),
      ∀ marked ∈ marks (dispatchCode strategy exhaustive subject arms label slot).1,
        label ≤ marked.raw
  | [], _, _, _, member => by simp [dispatchCode, Instruction.marked?] at member
  | (index, tree) :: rest, label, slot, marked, member => by
    unfold dispatchCode at member
    split at member
    · cases strategy <;> simp [Instruction.marked?, PatternTree.marks_code] at member
    · cases strategy with
      | branchChain =>
        simp only [marks_append, PatternTree.marks_rootTest, List.nil_append] at member
        exact marks_dispatchCode .branchChain exhaustive subject rest label _ marked member
      | ifChain =>
        simp only [marks_append, PatternTree.marks_code, List.nil_append] at member
        rcases List.mem_cons.mp member with same | later
        · exact same ▸ Nat.le_refl label
        · have above := marks_dispatchCode .ifChain exhaustive subject rest
            (label + 1) _ marked later
          omega

end MatchGroup

variable {Value : Type} {runtime : Runtime Value}

namespace Runtime

/-- A run enters the code of an arm with an empty stack; once the instructions on entry have run,
every name has the last of its parts. -/
def Arrives (runtime : Runtime Value) (program : List Instruction) (start : RunPoint Value)
    (label : JumpLabel) (bindings : List Instruction) (parts : List (Name × Value)) : Prop :=
  ∃ entry bound, runtime.Ends program start (.entered label entry) ∧ entry.subject = none ∧
    runtime.Ends bindings (.running bindings entry) (.running [] bound) ∧
    ∀ name part, parts.reverse.lookup name = some part → bound.locals name = some part

variable {program : List Instruction} {start middle : RunPoint Value} {label : JumpLabel}
  {bindings : List Instruction} {parts : List (Name × Value)} {entry machine : Machine Value}
  {slot : Slot} {value : Value}

theorem Arrives.after (path : runtime.Leads program start middle)
    (arrives : runtime.Arrives program middle label bindings parts) :
    runtime.Arrives program start label bindings parts := by
  obtain ⟨entry, bound, ⟨rest, halted⟩, empty, ran, holds⟩ := arrives
  exact ⟨entry, bound, ⟨path.trans rest, halted⟩, empty, ran, holds⟩

/-- An arm whose names are bound on entry. -/
theorem Arrives.bindOnEntry (tree : PatternTree) {next : Nat}
    (path : runtime.Leads program start (.entered label entry)) (empty : entry.subject = none)
    (held : entry.slots slot.raw = some value) (below : slot.raw < next) :
    runtime.Arrives program start label (tree.code none slot next).1
      (tree.parts runtime value) := by
  obtain ⟨bound, ran, _, locals⟩ :=
    code_accepts (tree.code none slot next).1 none tree slot next value
      [] entry held below (.inl rfl)
  rw [List.append_nil] at ran
  refine ⟨entry, bound, ⟨path, rfl⟩, empty, ⟨ran, rfl⟩, fun name part found => ?_⟩
  rw [locals]
  exact assignAll_of_lookup found

/-- An arm whose names were bound before. -/
theorem Arrives.bound {before : Name → Option Value}
    (path : runtime.Leads program start (.entered label entry)) (empty : entry.subject = none)
    (locals : entry.locals = assignAll before parts) :
    runtime.Arrives program start label [] parts := by
  refine ⟨entry, entry, ⟨path, rfl⟩, empty, ⟨.refl, rfl⟩, fun name part found => ?_⟩
  rw [locals]
  exact assignAll_of_lookup found

/-- A jump to a label that is not marked leaves the code. -/
theorem jump_leaves (rest : List Instruction) (machine : Machine Value)
    (outside : label ∉ marks program) :
    runtime.Leads program (.running (.jump label :: rest) machine) (.entered label machine) := by
  refine Leads.step ?_ .refl
  simp [step, goto, codeAfter_eq_none outside]

/-- The test of a pattern that one test decides is passed by the values that match. -/
theorem rootTest_decides (runtime : Runtime Value) (program rest : List Instruction) :
    ∀ (tree : PatternTree), tree.isSwitchable = true → tree.isIrrefutable = false →
      machine.slots slot.raw = some value →
      runtime.Leads program (.running (tree.rootTest slot ++ rest) machine)
        (.running rest { machine with condition := some (tree.accepts runtime value) })
  | .wildcard, _, refutable, _ | .binding _, _, refutable, _ => by
    simp [PatternTree.isIrrefutable] at refutable
  | .constant literal, _, _, held =>
    Leads.step (setsCondition_compare runtime program held literal _) .refl
  | .named _ (.constant literal), _, _, held =>
    Leads.step (setsCondition_compare runtime program held literal _) .refl
  | .named _ .wildcard, _, refutable, _ => by simp [PatternTree.isIrrefutable] at refutable
  | .named _ (.binding _), switchable, _, _ | .named _ (.named _ _), switchable, _, _
  | .named _ (.deconstruct _ _ _), switchable, _, _ => by
    simp [PatternTree.isSwitchable] at switchable
  | .deconstruct name own fields, switchable, refutable, held => by
    have below : PatternTree.allIrrefutable fields = true := switchable
    have other : own = false := by
      simpa [PatternTree.isIrrefutable, below] using refutable
    have components := PatternTree.acceptFields_of_irrefutable runtime fields value 0 below
    have result : PatternTree.accepts runtime (.deconstruct name own fields) value =
        runtime.isInstance value name := by
      simp [PatternTree.accepts, other, components]
    rw [result]
    exact Leads.step (setsCondition_instanceOf runtime program held name _) .refl

end Runtime

namespace MatchGroup
open ClassLang.Runtime

/-- The arm a value is sent to: the first that matches it, and the last one when the arms are
known to be exhaustive. -/
def chosenArm (runtime : Runtime Value) (exhaustive : Bool) (arms : List (Nat × PatternTree))
    (value : Value) : Option (Nat × PatternTree) :=
  (arms.find? fun arm => arm.2.accepts runtime value).or
    (if exhaustive then arms.getLast? else none)

/-- A run arrives at the chosen arm, or fails when there is none. -/
def Sends (runtime : Runtime Value) (program : List Instruction) (start : RunPoint Value)
    (entries : List (Nat × List Instruction)) (value : Value) : Option (Nat × PatternTree) → Prop
  | some (index, tree) =>
    runtime.Arrives program start (armLabel index) ((entries.lookup index).getD [])
      (tree.parts runtime value)
  | none => runtime.Ends program start .failed

section
variable {exhaustive : Bool} {index : Nat} {tree : PatternTree} {rest : List (Nat × PatternTree)}
  {value : Value}

theorem chosenArm_of_accepts (accepted : tree.accepts runtime value = true) :
    chosenArm runtime exhaustive ((index, tree) :: rest) value = some (index, tree) := by
  simp [chosenArm, List.find?, accepted]

/-- An arm that ends the chain is chosen by every value that comes to it. -/
theorem chosenArm_of_ends (ends : (tree.isIrrefutable || (rest.isEmpty && exhaustive)) = true) :
    chosenArm runtime exhaustive ((index, tree) :: rest) value = some (index, tree) := by
  by_cases accepted : tree.accepts runtime value = true
  · exact chosenArm_of_accepts accepted
  · have refutable : tree.isIrrefutable ≠ true :=
      fun irrefutable => accepted (tree.accepts_of_irrefutable runtime value irrefutable)
    obtain ⟨last, holds⟩ : rest = [] ∧ exhaustive = true := by simpa [refutable] using ends
    simp [chosenArm, List.find?, accepted, last, holds]

theorem chosenArm_of_rejects (goesOn : (rest.isEmpty && exhaustive) = false)
    (rejected : tree.accepts runtime value = false) :
    chosenArm runtime exhaustive ((index, tree) :: rest) value =
      chosenArm runtime exhaustive rest value := by
  cases exhaustive with
  | false => simp [chosenArm, List.find?, rejected]
  | true =>
    cases rest with
    | nil => simp at goesOn
    | cons next rest => simp [chosenArm, List.find?, rejected, List.getLast?_cons_cons]

theorem mem_of_chosenArm {arms : List (Nat × PatternTree)} {arm : Nat × PatternTree}
    (chosen : chosenArm runtime exhaustive arms value = some arm) : arm ∈ arms := by
  unfold chosenArm at chosen
  rcases Option.or_eq_some_iff.mp chosen with found | ⟨_, last⟩
  · exact List.mem_of_find?_eq_some found
  · split at last
    · exact List.mem_of_getLast? last
    · cases last

end

variable {program : List Instruction} {start middle : RunPoint Value}
  {entries : List (Nat × List Instruction)} {value : Value}

theorem Sends.after (path : runtime.Leads program start middle) :
    ∀ {chosen : Option (Nat × PatternTree)}, Sends runtime program middle entries value chosen →
      Sends runtime program start entries value chosen
  | some _, arrives => Arrives.after path arrives
  | none, ⟨rest, halted⟩ => ⟨path.trans rest, halted⟩

/-- Instructions on entry to other arms make no difference. -/
theorem Sends.skip {index : Nat} {bindings : List Instruction}
    {chosen : Option (Nat × PatternTree)} (other : ∀ arm ∈ chosen, arm.1 ≠ index)
    (sends : Sends runtime program start entries value chosen) :
    Sends runtime program start ((index, bindings) :: entries) value chosen := by
  cases chosen with
  | none => exact sends
  | some arm =>
    obtain ⟨position, tree⟩ := arm
    have differ : (position == index) = false := by simpa using other _ rfl
    simpa [Sends, List.lookup_cons, differ] using sends

/-- With all tests of an arm in turn its names are bound before the jump. -/
theorem ifChain_entries (exhaustive : Bool) (subject : Slot) :
    ∀ (arms : List (Nat × PatternTree)) (label slot : Nat),
      (dispatchCode .ifChain exhaustive subject arms label slot).2 = []
  | [], _, _ => rfl
  | (_, _) :: rest, _, _ => by
    unfold dispatchCode
    split
    · rfl
    · exact ifChain_entries exhaustive subject rest _ _

/-- A value that does not match an arm goes on behind the mark that follows the arm. -/
theorem tests_miss (tree : PatternTree) {front later : List Instruction} {label slot : Nat}
    {subject : Slot} {target : JumpLabel} {machine : Machine Value}
    (whole : program = front ++ ((tree.code (some ⟨label⟩) subject slot).1 ++
      .jump target :: .mark ⟨label⟩ :: later))
    (marked : ∀ other ∈ marks front, other.raw < label)
    (held : machine.slots subject.raw = some value) (below : subject.raw < slot)
    (rejected : tree.accepts runtime value = false) :
    ∃ after, runtime.Leads program
        (.running ((tree.code (some ⟨label⟩) subject slot).1 ++
          .jump target :: .mark ⟨label⟩ :: later) machine) (.running later after) ∧
      Undisturbed slot machine after := by
  obtain ⟨after, missed, kept⟩ := code_rejects program ⟨label⟩ tree subject slot value
    (.jump target :: .mark ⟨label⟩ :: later) machine held below rejected
  have found : codeAfter ⟨label⟩ program = some later := by
    rw [whole, codeAfter_append _ fun member => Nat.lt_irrefl _ (marked _ member),
      codeAfter_append _ (by simp [PatternTree.marks_code])]
    simp [codeAfter]
  simp only [goto, found] at missed
  exact ⟨after, missed, kept⟩

/-- Code for the arms is run: it ends the program, behind code with marks below `label`. The labels
of the arms are not marked, and the value is in its slot. -/
structure Dispatching (program : List Instruction) (strategy : Strategy) (subject : Slot)
    (value : Value) (arms : List (Nat × PatternTree)) (label slot : Nat) (code : List Instruction)
    (machine : Machine Value) : Prop where
  whole : ∃ front, program = front ++ code ∧ ∀ marked ∈ marks front, marked.raw < label
  outside : ∀ arm ∈ arms, armLabel arm.1 ∉ marks program
  distinct : (arms.map Prod.fst).Nodup
  switchable : strategy = .branchChain → ∀ arm ∈ arms, arm.2.isSwitchable = true
  held : machine.slots subject.raw = some value
  empty : machine.subject = none
  below : subject.raw < slot

section
variable {exhaustive : Bool} {subject : Slot} {index label slot : Nat} {tree : PatternTree}
  {rest : List (Nat × PatternTree)} {machine : Machine Value}

/-- An arm that ends the chain is entered without a test. -/
theorem lastArm_sends {strategy : Strategy} {code : List Instruction} (runtime : Runtime Value)
    (running : Dispatching program strategy subject value ((index, tree) :: rest) label slot
      code machine)
    (ends : (tree.isIrrefutable || (rest.isEmpty && exhaustive)) = true) :
    Sends runtime program
      (.running (dispatchCode strategy exhaustive subject ((index, tree) :: rest) label slot).1
        machine)
      (dispatchCode strategy exhaustive subject ((index, tree) :: rest) label slot).2 value
      (chosenArm runtime exhaustive ((index, tree) :: rest) value) := by
  have leaves := running.outside _ List.mem_cons_self
  unfold dispatchCode
  rw [chosenArm_of_ends ends, if_pos ends]
  cases strategy with
  | branchChain =>
    simpa [Sends] using Arrives.bindOnEntry tree (jump_leaves [] machine leaves) running.empty
      running.held running.below
  | ifChain =>
    obtain ⟨after, bound, kept, locals⟩ := code_accepts program none tree subject slot value
      [.jump (armLabel index)] machine running.held running.below (.inl rfl)
    exact Arrives.bound (bound.trans (jump_leaves [] after leaves))
      (kept.subject.trans running.empty) locals

variable {later : List Instruction × List (Nat × List Instruction)}
    (refutable : tree.isIrrefutable = false)
  (goesOn : (rest.isEmpty && exhaustive) = false)
include goesOn

include refutable in
/-- One test decides whether a chain of branches goes on; the names of an arm are bound on entry. -/
theorem branchChain_sends (runtime : Runtime Value)
    (running : Dispatching program .branchChain subject value ((index, tree) :: rest) label slot
      (tree.rootTest subject ++ .jumpIfMatch (armLabel index) :: later.1) machine)
    (others : ∀ after : Machine Value,
      Dispatching program .branchChain subject value rest label (tree.code none subject slot).2
        later.1 after → Sends runtime program (.running later.1 after) later.2 value
        (chosenArm runtime exhaustive rest value)) :
    Sends runtime program
      (.running (tree.rootTest subject ++ .jumpIfMatch (armLabel index) :: later.1) machine)
      ((index, (tree.code none subject slot).1) :: later.2) value
      (chosenArm runtime exhaustive ((index, tree) :: rest) value) := by
  obtain ⟨front, whole, marked⟩ := running.whole
  have leaves := running.outside _ List.mem_cons_self
  have test := rootTest_decides runtime program (.jumpIfMatch (armLabel index) :: later.1) tree
    (running.switchable rfl _ List.mem_cons_self) refutable running.held
  cases accepted : tree.accepts runtime value with
  | true =>
    rw [chosenArm_of_accepts accepted]
    rw [accepted] at test
    have left : runtime.Leads program (.running _ machine)
        (.entered (armLabel index) { machine with condition := none }) :=
      test.trans (Leads.step (by simp [step, goto, codeAfter_eq_none leaves]) .refl)
    simpa [Sends] using Arrives.bindOnEntry tree left running.empty running.held running.below
  | false =>
    rw [chosenArm_of_rejects goesOn accepted]
    rw [accepted] at test
    obtain ⟨fresh, distinct⟩ := List.nodup_cons.mp running.distinct
    have goes : Dispatching program .branchChain subject value rest label
        (tree.code none subject slot).2 later.1 { machine with condition := none } :=
      { whole := ⟨front ++ tree.rootTest subject ++ [.jumpIfMatch (armLabel index)], by
        simp [whole],
          by simpa [PatternTree.marks_rootTest, Instruction.marked?] using marked⟩
        outside := fun arm member => running.outside arm (List.mem_cons_of_mem _ member)
        distinct
        switchable := fun chain arm member =>
          running.switchable chain arm (List.mem_cons_of_mem _ member)
        held := running.held
        empty := running.empty
        below := Nat.lt_of_lt_of_le running.below
          (PatternTree.code_next_le none tree subject slot) }
    refine Sends.after (test.trans (Leads.step rfl .refl)) (Sends.skip ?_ (others _ goes))
    intro arm chosen same
    exact fresh (List.mem_map.mpr ⟨arm, mem_of_chosenArm chosen, same⟩)

/-- With all tests of an arm in turn its names are bound before the jump, or the chain goes on
behind the mark. -/
theorem ifChain_sends (runtime : Runtime Value) (unbound : later.2 = [])
    (running : Dispatching program .ifChain subject value ((index, tree) :: rest) label slot
      ((tree.code (some ⟨label⟩) subject slot).1 ++ .jump (armLabel index) :: .mark
        ⟨label⟩ :: later.1) machine)
    (others : ∀ after : Machine Value,
      Dispatching program .ifChain subject value rest (label + 1)
        (tree.code (some ⟨label⟩) subject slot).2 later.1 after →
        Sends runtime program (.running later.1 after) later.2 value
          (chosenArm runtime exhaustive rest value)) :
    Sends runtime program
      (.running ((tree.code (some ⟨label⟩) subject slot).1 ++ .jump (armLabel index) :: .mark
        ⟨label⟩ :: later.1) machine)
      later.2 value (chosenArm runtime exhaustive ((index, tree) :: rest) value) := by
  obtain ⟨front, whole, marked⟩ := running.whole
  have leaves := running.outside _ List.mem_cons_self
  cases accepted : tree.accepts runtime value with
  | true =>
    rw [chosenArm_of_accepts accepted]
    obtain ⟨after, bound, kept, locals⟩ := code_accepts program (some ⟨label⟩) tree subject
      slot value _ machine running.held running.below (.inr accepted)
    simp only [Sends, unbound]
    exact Arrives.bound (bound.trans (jump_leaves _ after leaves))
      (kept.subject.trans running.empty) locals
  | false =>
    rw [chosenArm_of_rejects goesOn accepted]
    obtain ⟨after, missed, kept⟩ := tests_miss tree whole marked running.held running.below accepted
    have goes : Dispatching program .ifChain subject value rest (label + 1)
        (tree.code (some ⟨label⟩) subject slot).2
        later.1 after :=
      { whole := by
          refine ⟨front ++ (tree.code (some ⟨label⟩) subject slot).1 ++
            [.jump (armLabel index), .mark ⟨label⟩], by simp [whole], fun other member => ?_⟩
          simp only [marks_append, PatternTree.marks_code, List.append_nil] at member
          rcases List.mem_append.mp member with before | listed
          · exact Nat.lt_succ_of_lt (marked other before)
          · rw [List.mem_singleton.mp listed]
            exact Nat.lt_succ_self label
        outside := fun arm member => running.outside arm (List.mem_cons_of_mem _ member)
        distinct := (List.nodup_cons.mp running.distinct).2
        switchable := nofun
        held := (kept.slots _ running.below).trans running.held
        empty := kept.subject.trans running.empty
        below := Nat.lt_of_lt_of_le running.below
          (PatternTree.code_next_le (some ⟨label⟩) tree subject slot) }
    exact Sends.after missed (others after goes)

end

/-- Dispatch code sends a value to the chosen arm. -/
theorem dispatchCode_sends (runtime : Runtime Value) (program : List Instruction)
    (strategy : Strategy) (exhaustive : Bool) (subject : Slot) (value : Value) :
    ∀ (arms : List (Nat × PatternTree)) (label slot : Nat) (machine : Machine Value),
      Dispatching program strategy subject value arms label slot
        (dispatchCode strategy exhaustive subject arms label slot).1 machine →
      Sends runtime program
        (.running (dispatchCode strategy exhaustive subject arms label slot).1 machine)
        (dispatchCode strategy exhaustive subject arms label slot).2 value
        (chosenArm runtime exhaustive arms value)
  | [], _, _, machine, _ => by
    cases exhaustive <;> exact ⟨Leads.step rfl .refl, rfl⟩
  | (index, tree) :: rest, label, slot, machine, running => by
    by_cases ends : (tree.isIrrefutable || (rest.isEmpty && exhaustive)) = true
    · exact lastArm_sends runtime running ends
    obtain ⟨refutable, goesOn⟩ : tree.isIrrefutable = false ∧
        (rest.isEmpty && exhaustive) = false := by
      simpa only [Bool.or_eq_true, not_or, Bool.not_eq_true] using ends
    unfold dispatchCode at running ⊢
    rw [if_neg ends] at running ⊢
    cases strategy with
    | branchChain =>
      exact branchChain_sends refutable goesOn runtime running
        (dispatchCode_sends runtime program .branchChain exhaustive subject value rest label _)
    | ifChain =>
      exact ifChain_sends goesOn runtime (ifChain_entries exhaustive subject rest _ _) running
        (dispatchCode_sends runtime program .ifChain exhaustive subject value rest (label + 1) _)

/-- The code of a whole match sends the subject to the chosen arm. -/
theorem loweredCode_sends (runtime : Runtime Value) (analysis : GroupAnalysis) {count : Nat}
    {arms : List (Nat × PatternTree)} (inside : ∀ arm ∈ arms, arm.1 < count)
    (distinct : (arms.map Prod.fst).Nodup)
    (switchable : analysis.switchable = true → ∀ arm ∈ arms, arm.2.isSwitchable = true)
    (machine : Machine Value) (value : Value) :
    Sends runtime (loweredCode analysis count arms).1
      (.running (loweredCode analysis count arms).1 { machine with subject := some value })
      (loweredCode analysis count arms).2 value
      (chosenArm runtime analysis.coverage.isExhaustive arms value) := by
  unfold loweredCode
  split
  · rename_i index _
    rw [chosenArm_of_accepts rfl]
    have left : armLabel index ∉ marks [.discard, .jump (armLabel index)] := by
      simp [Instruction.marked?]
    exact Arrives.bound (Leads.step rfl (jump_leaves [] _ left)) rfl rfl
  · generalize same : dispatchCode (strategyOf analysis) analysis.coverage.isExhaustive ⟨0⟩ arms
      count 1 = code
    have marked := marks_dispatchCode (strategyOf analysis) analysis.coverage.isExhaustive ⟨0⟩ arms
      count 1
    rw [same] at marked
    have outside : ∀ arm ∈ arms, armLabel arm.1 ∉ marks (.store ⟨0⟩ :: code.1) := by
      intro arm member found
      have above : count ≤ arm.1 := marked _ (by simpa [Instruction.marked?] using found)
      exact absurd (inside arm member) (Nat.not_lt.mpr above)
    have chain : strategyOf analysis = .branchChain → ∀ arm ∈ arms, arm.2.isSwitchable = true := by
      intro chosen
      refine switchable ?_
      by_contra other
      simp [strategyOf, other] at chosen
    have running : Dispatching (.store ⟨0⟩ :: code.1) (strategyOf analysis) ⟨0⟩ value arms count 1
        (dispatchCode (strategyOf analysis) analysis.coverage.isExhaustive ⟨0⟩ arms count 1).1
        (load { machine with subject := none } ⟨0⟩ value) :=
      { whole := ⟨[.store ⟨0⟩], by rw [same]; rfl, by simp [Instruction.marked?]⟩
        outside
        distinct
        switchable := chain
        held := by simp [load]
        empty := rfl
        below := Nat.one_pos }
    have stored := dispatchCode_sends runtime _ (strategyOf analysis) analysis.coverage.isExhaustive
      ⟨0⟩ value arms count 1 _ running
    rw [same] at stored
    exact Sends.after (Leads.step rfl .refl) stored

end MatchGroup
end ClassLang
