import ClassLang.Proofs.Pattern.Reachability

/-! Lowered matches are well-formed code. Where control may go is looked at without values: a test
may turn out either way. On every such path each slot is written before it is read, and every path
comes to an arm or to a match error. -/

namespace ClassLang

namespace Instruction

/-- Tests set the condition. -/
def isTest : Instruction → Bool
  | compare _ _ | instanceOf _ _ => true
  | _ => false

/-- Conditional jumps read it. -/
def isConditional : Instruction → Bool
  | jumpIfMismatch _ | jumpIfMatch _ => true
  | _ => false

/-- The slot an instruction takes a value from. -/
def read? : Instruction → Option Slot
  | compare slot _ | instanceOf slot _ | project slot _ _ | bind _ slot => some slot
  | _ => none

/-- The slot an instruction puts a value into. -/
def written? : Instruction → Option Slot
  | store slot | project _ _ slot => some slot
  | _ => none

/-- Where an instruction may jump to. -/
def goal? : Instruction → Option JumpLabel
  | jumpIfMismatch label | jumpIfMatch label | jump label => some label
  | _ => none

/-- Control may pass to the next instruction. -/
def goesOn : Instruction → Bool
  | jump _ | matchError => false
  | _ => true

end Instruction

/-- The slots that code puts values into, in order. -/
def written (code : List Instruction) : List Slot := code.filterMap Instruction.written?

@[simp] theorem written_nil : written [] = [] := rfl

@[simp] theorem written_cons (instruction : Instruction) (code : List Instruction) :
    written (instruction :: code) = instruction.written?.toList ++ written code := by
  cases found : instruction.written? with
  | none => exact List.filterMap_cons_none found
  | some slot => exact List.filterMap_cons_some found

@[simp] theorem written_append (first second : List Instruction) :
    written (first ++ second) = written first ++ written second :=
  List.filterMap_append

namespace LoweredMatch

/-- A place in a lowered match: before an instruction of the dispatch code, or of those on entry to
an arm. -/
inductive Place where
  | dispatch (position : Nat)
  | entry (arm position : Nat)
deriving Repr, DecidableEq

/-- The place behind the next instruction. -/
def Place.next : Place → Place
  | dispatch position => dispatch (position + 1)
  | entry arm position => entry arm (position + 1)

/-- The instruction at a place. -/
def at? (lowered : LoweredMatch) : Place → Option Instruction
  | .dispatch position => lowered.code[position]?
  | .entry arm position => (lowered.arms[arm]?).bind (·.bindings[position]?)

/-- Control may pass from one place to another: to the next instruction, behind the mark of a label,
or to the arm that a label belongs to. -/
inductive Passes (lowered : LoweredMatch) (place : Place) : Place → Prop where
  | next {instruction : Instruction} (found : lowered.at? place = some instruction)
      (goesOn : instruction.goesOn = true) : Passes lowered place place.next
  | mark {instruction : Instruction} {label : JumpLabel} {position : Nat}
      (found : lowered.at? place = some instruction) (goal : instruction.goal? = some label)
      (marked : lowered.code[position]? = some (.mark label)) :
      Passes lowered place (.dispatch (position + 1))
  | arm {instruction : Instruction} {label : JumpLabel} {index : Nat} {target : ArmTarget}
      (found : lowered.at? place = some instruction) (goal : instruction.goal? = some label)
      (there : lowered.arms[index]? = some target) (labelled : target.label = label) :
      Passes lowered place (.entry index 0)

/-- Some path from the start comes to the place and has written the slots on its way. -/
inductive Visits (lowered : LoweredMatch) : Place → List Slot → Prop where
  | start : Visits lowered (.dispatch 0) []
  | step {place next : Place} {slots : List Slot} {instruction : Instruction}
      (visited : Visits lowered place slots) (found : lowered.at? place = some instruction)
      (passes : lowered.Passes place next) :
      Visits lowered next (instruction.written?.toList ++ slots)

/-- Every path from the place comes to an arm or to a match error. -/
inductive Settles (lowered : LoweredMatch) : Place → Prop where
  | failed {place : Place} (found : lowered.at? place = some .matchError) : Settles lowered place
  | entered (arm : Nat) : Settles lowered (.entry arm 0)
  | goesOn {place : Place} (some : ∃ next, lowered.Passes place next)
      (each : ∀ next, lowered.Passes place next → Settles lowered next) : Settles lowered place

/-- Labels, tests and slots are in order. -/
structure WellFormed (lowered : LoweredMatch) : Prop where
  labels : (lowered.arms.map (·.label)).Nodup
  unmarked : ∀ target ∈ lowered.arms, target.label ∉ marks lowered.code
  mismatches : ∀ (position : Nat) (label : JumpLabel),
    lowered.code[position]? = some (.jumpIfMismatch label) → (marks lowered.code).count label = 1 ∧
      ∃ later > position, lowered.code[later]? = some (.mark label)
  jumps : ∀ label ∈ targets lowered.code, ∃ target ∈ lowered.arms, target.label = label
  /-- An arm is entered with straight code. -/
  entries : ∀ target ∈ lowered.arms, ∀ instruction ∈ target.bindings,
    instruction.goesOn = true ∧ instruction.goal? = none ∧ instruction.marked? = none
  tests : ∀ (place : Place) (test : Instruction), lowered.at? place = some test →
    test.isTest = true → ∃ jump, lowered.at? place.next = some jump ∧ jump.isConditional = true
  conditions : ∀ (place : Place) (jump : Instruction), lowered.at? place = some jump →
    jump.isConditional = true → ∃ before test, place = before.next ∧
    lowered.at? before = some test ∧
      test.isTest = true
  written : (written (lowered.code ++ lowered.arms.flatMap (·.bindings))).Nodup
  read : ∀ (place : Place) (slots : List Slot), lowered.Visits place slots →
    ∀ instruction, lowered.at? place = some instruction → ∀ slot, instruction.read? = some slot →
    slot ∈ slots
  settles : lowered.Settles (.dispatch 0)

end LoweredMatch

/-! Tests and conditional jumps go in pairs. -/

/-- Each test stands right before a conditional jump, and each conditional jump right behind a
test. -/
def Paired (code : List Instruction) : Prop :=
  false :: code.map (·.isTest) = code.map (·.isConditional) ++ [false]

namespace Paired

theorem nil : Paired [] := rfl

theorem append {first second : List Instruction} (earlier : Paired first) (later : Paired second) :
    Paired (first ++ second) := by
  unfold Paired at *
  rw [List.map_append, List.map_append, List.append_assoc, ← later, ← List.cons_append, earlier,
    List.append_assoc]
  rfl

theorem single {instruction : Instruction} (noTest : instruction.isTest = false)
    (noJump : instruction.isConditional = false) : Paired [instruction] := by
  simp [Paired, noTest, noJump]

theorem cons {instruction : Instruction} {code : List Instruction}
    (noTest : instruction.isTest = false) (noJump : instruction.isConditional = false)
    (paired : Paired code) : Paired (instruction :: code) :=
  (single noTest noJump).append paired

theorem pair {check jump : Instruction} (test : check.isTest = true)
    (noJump : check.isConditional = false) (noTest : jump.isTest = false)
    (conditional : jump.isConditional = true) : Paired [check, jump] := by
  simp [Paired, test, noJump, noTest, conditional]

variable {code : List Instruction} (paired : Paired code) {position : Nat}
    {instruction : Instruction}
include paired

theorem behind (found : code[position]? = some instruction) (test : instruction.isTest = true) :
    ∃ jump, code[position + 1]? = some jump ∧ jump.isConditional = true := by
  have same := congrArg (·[position + 1]?) paired
  simp only [List.getElem?_cons_succ, List.getElem?_map, found, Option.map_some, test] at same
  by_cases inside : position + 1 < code.length
  · rw [List.getElem?_append_left (by simpa using inside)] at same
    obtain ⟨jump, there, conditional⟩ :=
      Option.map_eq_some_iff.mp ((List.getElem?_map ..).symm.trans same.symm)
    exact ⟨jump, there, conditional⟩
  · have last : position + 1 = code.length := by
      have := (List.getElem?_eq_some_iff.mp found).1
      omega
    simp [last] at same

theorem before (found : code[position]? = some instruction)
    (conditional : instruction.isConditional = true) : ∃ previous test, position = previous + 1 ∧
    code[previous]? = some test ∧ test.isTest = true := by
  have inside := (List.getElem?_eq_some_iff.mp found).1
  have same := congrArg (·[position]?) paired
  rw [List.getElem?_append_left (by simpa using inside)] at same
  simp only [List.getElem?_map, found, Option.map_some, conditional] at same
  cases position with
  | zero => simp at same
  | succ previous =>
    simp only [List.getElem?_cons_succ, List.getElem?_map] at same
    obtain ⟨test, there, isTest⟩ := Option.map_eq_some_iff.mp same
    exact ⟨previous, test, rfl, there, isTest⟩

end Paired

/-! Marks stand behind the jumps to them. -/

/-- What fails to match goes to a mark further on. -/
def Forward : List Instruction → Prop
  | [] => True
  | instruction :: rest =>
    (∀ label, instruction = .jumpIfMismatch label → .mark label ∈ rest) ∧ Forward rest

theorem Forward.append {front later : List Instruction} (rest : Forward later)
    (each : ∀ label, .jumpIfMismatch label ∈ front → .mark label ∈ later) :
    Forward (front ++ later) := by
  induction front with
  | nil => exact rest
  | cons instruction front ih =>
    constructor
    · rintro label rfl
      exact List.mem_append_right _ (each label List.mem_cons_self)
    · exact ih fun label member => each label (List.mem_cons_of_mem _ member)

theorem Forward.later {code : List Instruction} {position : Nat} {label : JumpLabel}
    (forward : Forward code) (found : code[position]? = some (.jumpIfMismatch label)) :
    ∃ later > position, code[later]? = some (.mark label) := by
  induction code generalizing position with
  | nil => cases found
  | cons instruction code ih =>
    cases position with
    | zero =>
      obtain ⟨later, there⟩ := List.getElem?_of_mem (forward.1 label (Option.some.inj found))
      exact ⟨later + 1, Nat.succ_pos later, there⟩
    | succ position =>
      obtain ⟨later, behind, there⟩ := ih forward.2 found
      exact ⟨later + 1, Nat.succ_lt_succ behind, there⟩

theorem mem_marks {code : List Instruction} {label : JumpLabel} :
    label ∈ marks code ↔ .mark label ∈ code := by
  constructor
  · intro member
    obtain ⟨instruction, listed, marked⟩ := List.mem_filterMap.mp member
    cases instruction <;> cases marked
    exact listed
  · exact fun listed => List.mem_filterMap.mpr ⟨_, listed, rfl⟩

/-- A label that is marked once is marked at one place. -/
theorem mark_unique {code : List Instruction} {first second : Nat} {label : JumpLabel}
    (distinct : (marks code).Nodup) (earlier : code[first]? = some (.mark label))
    (later : code[second]? = some (.mark label)) : first = second := by
  induction code generalizing first second with
  | nil => cases earlier
  | cons instruction code ih =>
    rw [marks_cons] at distinct
    have rest := (List.nodup_append.mp distinct).2.1
    have apart {position : Nat} (same : instruction = .mark label)
        (there : code[position]? = some (.mark label)) :
        False := by
      subst same
      exact (List.nodup_append.mp distinct).2.2 label (by simp [Instruction.marked?]) label
        (mem_marks.mpr (List.mem_of_getElem? there)) rfl
    cases first with
    | zero =>
      cases second with
      | zero => rfl
      | succ second => exact (apart (Option.some.inj earlier) later).elim
    | succ first =>
      cases second with
      | zero => exact (apart (Option.some.inj later) earlier).elim
      | succ second => exact congrArg (· + 1) (ih rest earlier later)

/-! Slots are written before they are read. -/

/-- The slots that are known to be written behind an instruction. Behind a mark only those are that
are written wherever control may come from. -/
def supply (base known : List Slot) : Instruction → List Slot
  | .mark _ => base
  | instruction => instruction.written?.toList ++ known

/-- The code only reads slots that are known or that it wrote before. -/
def Supplied (base : List Slot) : List Slot → List Instruction → Prop
  | _, [] => True
  | known, instruction :: rest =>
    (∀ slot, instruction.read? = some slot → slot ∈ known) ∧
      Supplied base (supply base known instruction) rest

section
variable {base known slots : List Slot} {code : List Instruction} {instruction : Instruction}

theorem supply_eq (unmarked : instruction.marked? = none) :
    supply base known instruction = instruction.written?.toList ++ known := by
  cases instruction <;> first | rfl | cases unmarked

theorem supply_subset (based : base ⊆ slots) (inside : known ⊆ slots) :
    supply base known instruction ⊆ instruction.written?.toList ++ slots := by
  by_cases marked : instruction.marked? = none
  · rw [supply_eq marked]
    exact List.append_subset.mpr
      ⟨List.subset_append_left _ _, List.subset_append_of_subset_right _ inside⟩
  · cases instruction <;> first | exact absurd rfl marked | exact based

theorem Supplied.append {first second : List Instruction} :
    Supplied base known (first ++ second) ↔
      Supplied base known first ∧ Supplied base (first.foldl (supply base) known) second := by
  induction first generalizing known with
  | nil => simp [Supplied]
  | cons instruction first ih => simp [Supplied, ih, and_assoc]

theorem Supplied.read {position : Nat} (supplied : Supplied base known code)
    (found : code[position]? = some instruction) {slot : Slot}
    (reads : instruction.read? = some slot) :
    slot ∈ (code.take position).foldl (supply base) known := by
  induction code generalizing known position with
  | nil => cases found
  | cons first code ih =>
    cases position with
    | zero => exact supplied.1 slot (Option.some.inj found ▸ reads)
    | succ position => exact ih supplied.2 found

/-- Without marks nothing is forgotten. -/
theorem foldl_supply (unmarked : marks code = []) :
    code.foldl (supply base) known = (written code).reverse ++ known := by
  induction code generalizing known with
  | nil => rfl
  | cons instruction code ih =>
    rw [marks_cons, List.append_eq_nil_iff, Option.toList_eq_nil_iff] at unmarked
    rw [List.foldl_cons, supply_eq unmarked.1, ih unmarked.2, written_cons]
    cases instruction.written? <;> simp

theorem foldl_take_succ {position : Nat} (found : code[position]? = some instruction) :
    (code.take (position + 1)).foldl (supply base) known =
      supply base ((code.take position).foldl (supply base) known) instruction := by
  rw [List.take_add_one, found, Option.toList_some, List.foldl_append]
  rfl

end

/-! Every path through code that is in order. -/

namespace LoweredMatch
variable {lowered : LoweredMatch}

/-- The dispatch code begins with an instruction that takes the subject; it goes on where only what
that instruction wrote is known, and so do the arms. -/
structure Sourced (lowered : LoweredMatch) (first : Instruction)
    (rest : List Instruction) : Prop where
  code : lowered.code = first :: rest
  reads : first.read? = none
  goal : first.goal? = none
  marked : first.marked? = none
  supplied : Supplied first.written?.toList first.written?.toList rest
  entries : ∀ target ∈ lowered.arms,
    Supplied first.written?.toList first.written?.toList target.bindings
  straight : ∀ target ∈ lowered.arms, ∀ instruction ∈ target.bindings,
    instruction.goal? = none ∧ instruction.marked? = none

namespace Sourced
variable {first : Instruction} {rest : List Instruction} (sourced : lowered.Sourced first rest)
  {place : Place} {slots : List Slot}

/-- The slots that are written on every path to a place. -/
def Known (lowered : LoweredMatch) (first : Instruction) (rest : List Instruction)
    (slots : List Slot) : Place → Prop
  | .dispatch 0 => True
  | .dispatch (position + 1) => first.written?.toList ⊆ slots ∧
    (rest.take position).foldl (supply first.written?.toList) first.written?.toList ⊆ slots
  | .entry index position => first.written?.toList ⊆ slots ∧ ∀ target,
      lowered.arms[index]? = some target →
    (target.bindings.take position).foldl (supply first.written?.toList)
      first.written?.toList ⊆ slots

include sourced

theorem at_dispatch (position : Nat) : lowered.at?
    (.dispatch (position + 1)) = rest[position]? := by
  simp [at?, sourced.code]

/-- A step from a place behind the first instruction. -/
theorem known_step {instruction : Instruction} {next : Place}
    (based : first.written?.toList ⊆ slots) (passes : lowered.Passes place next)
    (follows : Known lowered first rest (instruction.written?.toList ++ slots) place.next) :
    Known lowered first rest (instruction.written?.toList ++ slots) next := by
  have kept := List.subset_append_of_subset_right instruction.written?.toList based
  cases passes with
  | next there goesOn => exact follows
  | arm there goal present labelled => exact ⟨kept, fun _ _ => by simpa using kept⟩
  | @mark _ label position there goal marked =>
    rw [sourced.code] at marked
    cases position with
    | zero =>
      cases Option.some.inj marked
      cases sourced.marked
    | succ position =>
      refine ⟨kept, ?_⟩
      rw [foldl_take_succ (List.getElem?_cons_succ.symm.trans marked)]
      exact kept

theorem known_of_visits (visited : lowered.Visits place slots) :
    Known lowered first rest slots place := by
  induction visited with
  | start => trivial
  | @step place next slots instruction _ found passes ih =>
    cases place with
    | dispatch position =>
      cases position with
      | zero =>
        have same : first = instruction := by simpa [at?, sourced.code] using found
        subst same
        cases passes with
        | next => exact ⟨List.subset_append_left _ _, List.subset_append_left _ _⟩
        | mark there goal _ | arm there goal _ _ =>
          rw [found] at there
          cases there
          rw [sourced.goal] at goal
          cases goal
      | succ position =>
        obtain ⟨based, inside⟩ := ih
        apply sourced.known_step based passes
        refine ⟨List.subset_append_of_subset_right _ based, ?_⟩
        rw [foldl_take_succ ((sourced.at_dispatch position).symm.trans found)]
        exact supply_subset based inside
    | entry index position =>
      obtain ⟨based, inside⟩ := ih
      apply sourced.known_step based passes
      refine ⟨List.subset_append_of_subset_right _ based, fun target present => ?_⟩
      have read : target.bindings[position]? = some instruction := by
        simpa [at?, present] using found
      rw [foldl_take_succ read]
      exact supply_subset based (inside target present)

/-- On every path a slot is written before it is read. -/
theorem read_written (visited : lowered.Visits place slots) {instruction : Instruction}
    (found : lowered.at? place = some instruction) {slot : Slot}
    (reads : instruction.read? = some slot) : slot ∈ slots := by
  have knownOwn := sourced.known_of_visits visited
  cases place with
  | dispatch position =>
    cases position with
    | zero =>
      have same : first = instruction := by simpa [at?, sourced.code] using found
      rw [← same, sourced.reads] at reads
      cases reads
    | succ position =>
      rw [sourced.at_dispatch] at found
      exact knownOwn.2 (sourced.supplied.read found reads)
  | entry index position =>
    cases present : lowered.arms[index]? with
    | none => simp [at?, present] at found
    | some target =>
      have read : target.bindings[position]? = some instruction := by
        simpa [at?, present] using found
      exact knownOwn.2 target present
        ((sourced.entries target (List.mem_of_getElem? present)).read read reads)

end Sourced

section
variable (dispatch : Paired lowered.code)
    (entries : ∀ target ∈ lowered.arms, Paired target.bindings)
  {place : Place} {instruction : Instruction} (found : lowered.at? place = some instruction)
include dispatch entries found

theorem jump_of_paired (test : instruction.isTest = true) :
    ∃ jump, lowered.at? place.next = some jump ∧ jump.isConditional = true := by
  cases place with
  | dispatch position => exact dispatch.behind found test
  | entry index position =>
    obtain ⟨target, present, read⟩ := Option.bind_eq_some_iff.mp found
    simpa [at?, Place.next, present] using (entries target (List.mem_of_getElem? present)).behind
      read test

theorem test_of_paired (conditional : instruction.isConditional = true) :
    ∃ before test, place = before.next ∧ lowered.at? before = some test ∧ test.isTest = true := by
  cases place with
  | dispatch position =>
    obtain ⟨previous, test, rfl, there, isTest⟩ := dispatch.before found conditional
    exact ⟨.dispatch previous, test, rfl, there, isTest⟩
  | entry index position =>
    obtain ⟨target, present, read⟩ := Option.bind_eq_some_iff.mp found
    obtain ⟨previous, test, rfl, there, isTest⟩ :=
      (entries target (List.mem_of_getElem? present)).before read conditional
    exact ⟨.entry index previous, test, rfl, by simpa [at?, present] using there, isTest⟩

end

/-- Each mark of a jump lies ahead, and the last instruction leaves the code: every path settles. -/
theorem settles_of_forward (distinct : (marks lowered.code).Nodup)
    (unmarked : ∀ target ∈ lowered.arms, target.label ∉ marks lowered.code)
    (forward : Forward lowered.code)
    (jumps : ∀ label ∈ targets lowered.code, ∃ target ∈ lowered.arms, target.label = label)
    (last : ∃ final ∈ lowered.code.getLast?, final.goesOn = false) (position : Nat)
    (inside : position < lowered.code.length) : lowered.Settles (.dispatch position) := by
  obtain ⟨final, ends, leaves⟩ := last
  have follows {place : Nat} {instruction : Instruction}
      (found : lowered.code[place]? = some instruction) (goesOn : instruction.goesOn = true) :
      place + 1 < lowered.code.length := by
    have there := (List.getElem?_eq_some_iff.mp found).1
    by_contra outside
    have same : place = lowered.code.length - 1 := by omega
    rw [same, ← List.getLast?_eq_getElem?, ends] at found
    cases found
    rw [leaves] at goesOn
    cases goesOn
  have reachesArm {place : Nat} {instruction : Instruction} {label : JumpLabel}
      (found : lowered.code[place]? = some instruction)
      (target : instruction.target? = some label) :
      ∃ next, lowered.Passes (.dispatch place) next := by
    obtain ⟨arm, listed, labelled⟩ :=
      jumps label (List.mem_filterMap.mpr ⟨instruction, List.mem_of_getElem? found, target⟩)
    obtain ⟨index, there⟩ := List.getElem?_of_mem listed
    have goal : instruction.goal? = some label := by
      cases instruction <;> first | exact target | cases target
    exact ⟨_, .arm found goal there labelled⟩
  -- Control only moves on, so the induction is on the number of instructions ahead.
  induction ahead : lowered.code.length - position using Nat.strongRecOn generalizing position with
  | ind ahead ih =>
    subst ahead
    have found := List.getElem?_eq_getElem inside
    generalize lowered.code[position] = instruction at found
    have present : lowered.at? (.dispatch position) = some instruction := found
    by_cases failed : instruction = .matchError
    · exact .failed (failed ▸ present)
    apply Settles.goesOn
    · by_cases goesOn : instruction.goesOn = true
      · exact ⟨_, .next present goesOn⟩
      · cases instruction with
        | jump label => exact reachesArm present rfl
        | matchError => exact absurd rfl failed
        | _ => exact absurd rfl goesOn
    · intro next passes
      cases passes with
      | next there goesOn =>
        have later := follows there goesOn
        exact ih _ (by omega) (position + 1) later rfl
      | arm => exact .entered _
      | @mark other label place there goal marked =>
        cases present.symm.trans there
        have later := follows marked rfl
        have ahead : position < place := by
          cases instruction with
          | jumpIfMismatch label' =>
            cases goal
            obtain ⟨beyond, behind, same⟩ := forward.later found
            exact mark_unique distinct marked same ▸ behind
          | jump | jumpIfMatch =>
            cases goal
            obtain ⟨target, listed, rfl⟩ :=
              jumps label (List.mem_filterMap.mpr ⟨_, List.mem_of_getElem? found, rfl⟩)
            exact absurd (mem_marks.mpr (List.mem_of_getElem? marked)) (unmarked target listed)
          | _ => cases goal
        exact ih _ (by omega) (place + 1) later rfl

end LoweredMatch
end ClassLang
