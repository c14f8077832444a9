import ClassLang.Proofs.Pattern.Selection
import ClassLang.Proofs.Pattern.TypedCopy

/-! Lowered matches take the first arm that matches. -/

namespace ClassLang

/-- The part of a value that a name stands for: that of its last place in the pattern. -/
def PatternTree.partOf {Value : Type} (runtime : Runtime Value) (tree : PatternTree)
    (value : Value) (name : Name) : Option Value :=
  (tree.parts runtime value).reverse.lookup name

/-- Every name of a pattern stands for a part. -/
theorem PatternTree.partOf_of_mem_names {Value : Type} (runtime : Runtime Value)
    (tree : PatternTree) (value : Value) {name : Name} (member : name ∈ tree.names) :
    ∃ part, tree.partOf runtime value name = some part := by
  rw [← tree.parts_names runtime value] at member
  obtain ⟨⟨bound, part⟩, listed, rfl⟩ := List.mem_map.mp member
  refine Option.ne_none_iff_exists'.mp fun missing => ?_
  exact absurd (List.lookup_eq_none_iff.mp missing _ (List.mem_reverse.mpr listed)) (by simp)

namespace MatchGroup
open PatternStore

variable {group : MatchGroup} {store : PatternStore} {arms : List (Nat × PatternTree)}

/-- An entry of the live arms is an arm with a pattern. -/
theorem mem_live {index id : Nat} :
    (index, id) ∈ group.live ↔ ∃ arm, group.arms[index]? = some arm ∧ arm.pattern = some id := by
  simp [live, List.mem_filterMap, List.mem_zipIdx_iff_getElem?]

/-- Live arms have different positions. -/
theorem live_distinct (group : MatchGroup) : (group.live.map Prod.fst).Nodup := by
  have positions : (group.arms.zipIdx.map Prod.snd).Nodup := by
    rw [List.zipIdx_map_snd]
    exact List.nodup_range'
  rw [live, List.Nodup, List.pairwise_map, List.pairwise_filterMap]
  refine List.Pairwise.imp ?_ (List.pairwise_map.mp positions)
  rintro ⟨first, index⟩ ⟨second, other⟩ differ entry found entry' found'
  obtain ⟨_, _, rfl⟩ := Option.map_eq_some_iff.mp found
  obtain ⟨_, _, rfl⟩ := Option.map_eq_some_iff.mp found'
  exact differ

theorem RepresentsArms.positions (holds : RepresentsArms store arms group.live) :
    arms.map Prod.fst = group.live.map Prod.fst := by
  generalize group.live = live at holds
  induction holds with
  | nil => rfl
  | cons first _ ih => simp [first.1, ih]

theorem RepresentsArms.pattern {live : List (Nat × Nat)} (holds : RepresentsArms store arms live)
    {index : Nat} {tree : PatternTree} (member : (index, tree) ∈ arms) :
    ∃ id, (index, id) ∈ live ∧ store.Represents tree id := by
  induction holds with
  | nil => cases member
  | @cons arm entry arms live first _ ih =>
    rcases List.mem_cons.mp member with rfl | later
    · exact ⟨entry.2, by rw [show index = entry.1 from first.1]; exact List.mem_cons_self, first.2⟩
    · obtain ⟨id, listed, represents⟩ := ih later
      exact ⟨id, List.mem_cons_of_mem _ listed, represents⟩

/-- Live arms that came out of typing are trees. -/
theorem exists_representsArms {live : List (Nat × Nat)}
    (typed : ∀ entry ∈ live, ∃ tree, store.Represents tree entry.2) :
    ∃ arms, RepresentsArms store arms live := by
  induction live with
  | nil => exact ⟨[], .nil⟩
  | cons entry live ih =>
    obtain ⟨tree, holds⟩ := typed entry List.mem_cons_self
    obtain ⟨arms, rest⟩ := ih fun other member => typed other (List.mem_cons_of_mem _ member)
    exact ⟨(entry.1, tree) :: arms, .cons ⟨rfl, holds⟩ rest⟩

/-- A group that is judged switchable has only switchable arms. -/
theorem switchable_of_check {hierarchy : ClassHierarchy} {pool pool' : TypePool}
    {analysis : GroupAnalysis} {reports : List Diagnostic}
    (checked : (group.check hierarchy store).run pool = .ok ((analysis, reports), pool'))
    (switchable : analysis.switchable = true) {index id : Nat} (member : (index, id) ∈ group.live) :
    store.isSwitchable id = .ok true := by
  obtain ⟨⟨coverage, _⟩, _, judged⟩ := Except.bind_eq_ok checked
  obtain ⟨⟨excused, _⟩, _, excusedRest⟩ := Except.bind_eq_ok judged
  obtain ⟨⟨all, _⟩, tested, same⟩ := Except.bind_eq_ok excusedRest
  cases same
  obtain rfl : all = true := switchable
  obtain ⟨arm, present, pattern⟩ := mem_live.mp member
  obtain ⟨before, after, passed⟩ := allM_run_eq_true tested arm (List.mem_of_getElem? present)
  rw [pattern] at passed
  obtain ⟨answer, found, same⟩ := Except.bind_eq_ok passed
  cases same
  exact found

/-- Run on a value, a lowered match goes to the arm at `index`, whose pattern is `tree`; after the
instructions on entry, every name listed for the pattern holds the part of the value it stands
for. -/
def Takes (group : MatchGroup) (store : PatternStore) (lowered : LoweredMatch) {Value : Type}
    (runtime : Runtime Value) (machine : Machine Value) (value : Value) (index : Nat)
    (tree : PatternTree) : Prop :=
  ∃ id listed target entry bound,
    (index, id) ∈ group.live ∧ store.Represents tree id ∧ store.bindings id = .ok listed ∧
    lowered.arms[index]? = some target ∧ target.label = armLabel index ∧
    runtime.Ends lowered.code (.running lowered.code { machine with subject := some value })
      (.entered target.label entry) ∧
    entry.subject = none ∧
    runtime.Ends target.bindings (.running target.bindings entry) (.running [] bound) ∧
    ∀ binding ∈ listed, ∃ part,
      tree.partOf runtime value binding.1 = some part ∧ bound.locals binding.1 = some part

/-- What a lowered match does with every value. The first arm whose pattern matches is taken. A
value that no arm matches fails, unless the group was judged exhaustive: then the last arm takes
it. -/
def TakesFirstMatch (group : MatchGroup) (store : PatternStore) (exhaustive : Bool)
    (arms : List (Nat × PatternTree)) (lowered : LoweredMatch) : Prop :=
  ∀ (Value : Type) (runtime : Runtime Value) (machine : Machine Value) (value : Value),
    (∀ index tree, arms.find? (·.2.accepts runtime value) = some (index, tree) →
      group.Takes store lowered runtime machine value index tree) ∧
    (arms.find? (·.2.accepts runtime value) = none → (exhaustive = false ∨ arms = []) →
      runtime.Ends lowered.code (.running lowered.code { machine with subject := some value })
        .failed) ∧
    (∀ index tree, arms.find? (·.2.accepts runtime value) = none → exhaustive = true →
      arms.getLast? = some (index, tree) →
      group.Takes store lowered runtime machine value index tree)

theorem lower_takesFirstMatch (analysis : GroupAnalysis)
    (holds : RepresentsArms store arms group.live)
    (switchable : analysis.switchable = true → ∀ arm ∈ arms, arm.2.isSwitchable = true) :
    ∃ lowered after, group.lower analysis store = .ok (lowered, after) ∧
      group.TakesFirstMatch store analysis.coverage.isExhaustive arms lowered := by
  obtain ⟨lowered, after, ran, _, code, targets⟩ := lower_completes analysis holds
  have inside : ∀ arm ∈ arms, arm.1 < group.arms.length := by
    rintro ⟨index, tree⟩ member
    obtain ⟨id, listed, _⟩ := holds.pattern member
    obtain ⟨arm, present, _⟩ := mem_live.mp listed
    exact (List.getElem?_eq_some_iff.mp present).1
  have distinct : (arms.map Prod.fst).Nodup := holds.positions ▸ live_distinct group
  refine ⟨lowered, after, ran, fun Value runtime machine value => ?_⟩
  have sends := loweredCode_sends runtime analysis inside distinct switchable machine value
  rw [← code] at sends
  have takes : ∀ index tree, chosenArm runtime analysis.coverage.isExhaustive arms value =
      some (index, tree) → group.Takes store lowered runtime machine value index tree := by
    intro index tree chosen
    rw [chosen] at sends
    obtain ⟨entry, bound, entered, empty, bindings, parts⟩ := sends
    obtain ⟨id, listed, represents⟩ := holds.pattern (mem_of_chosenArm chosen)
    obtain ⟨names, answered, same⟩ := represents.bindings_names
    refine ⟨id, names, _, entry, bound, listed, represents, answered,
      targets index (inside _ (mem_of_chosenArm chosen)), rfl, entered, empty, bindings, ?_⟩
    intro binding member
    have contained : binding.1 ∈ tree.names := same ▸ List.mem_map_of_mem member
    obtain ⟨part, found⟩ := tree.partOf_of_mem_names runtime value contained
    exact ⟨part, found, parts binding.1 part found⟩
  refine ⟨fun index tree found => takes index tree ?_, fun missing cause => ?_,
    fun index tree missing isExhaustive last => takes index tree ?_⟩
  · simp [chosenArm, found]
  · have none : chosenArm runtime analysis.coverage.isExhaustive arms value = none := by
      rcases cause with partly | empty
      · simp [chosenArm, missing, partly]
      · simp [chosenArm, empty]
    rw [none] at sends
    exact sends
  · simp [chosenArm, missing, isExhaustive, last]

/-- Lowering a checked group of typed arms implements the first match. -/
theorem lower_implements_first_match {hierarchy : ClassHierarchy} {group : MatchGroup}
    {store : PatternStore} {pool pool' : TypePool} {analysis : GroupAnalysis}
    {reports : List Diagnostic}
    (typed : ∀ entry ∈ group.live, TypedAgainst hierarchy group.subject store entry.2)
    (checked : (group.check hierarchy store).run pool = .ok ((analysis, reports), pool')) :
    (∃ arms, RepresentsArms store arms group.live) ∧
      ∃ lowered after, group.lower analysis store = .ok (lowered, after) ∧
        ∀ arms, RepresentsArms store arms group.live →
          group.TakesFirstMatch store analysis.coverage.isExhaustive arms lowered := by
  have lowers := fun arms (holds : RepresentsArms store arms group.live) =>
    lower_takesFirstMatch analysis holds fun judged => by
      rintro ⟨index, tree⟩ member
      obtain ⟨id, listed, represents⟩ := holds.pattern member
      have answer := represents.isSwitchable_eq
      rw [switchable_of_check checked judged listed] at answer
      exact (Except.ok.inj answer).symm
  obtain ⟨arms, holds⟩ := exists_representsArms fun entry member =>
    TypedAgainst.represents (typed entry member)
  obtain ⟨lowered, after, ran, _⟩ := lowers arms holds
  refine ⟨⟨arms, holds⟩, lowered, after, ran, fun others held => ?_⟩
  obtain ⟨same, _, again, takes⟩ := lowers others held
  rw [ran] at again
  cases again
  exact takes

/-- A match of an integer against `1` and a name, in a session without classes. -/
theorem lower_implements_first_match_int :
    ∃ (hierarchy : ClassHierarchy) (group : MatchGroup) (store : PatternStore)
      (analysis : GroupAnalysis), group.live = [(0, 2), (1, 3)] ∧
      (∀ entry ∈ group.live, TypedAgainst hierarchy group.subject store entry.2) ∧
      ∃ lowered after, group.lower analysis store = .ok (lowered, after) ∧
        ∀ arms, RepresentsArms store arms group.live →
          group.TakesFirstMatch store analysis.coverage.isExhaustive arms lowered := by
  let hierarchy : ClassHierarchy :=
    { superclass := fun _ => none, interfaces := fun _ => [], typeParams := fun _ => [],
      variants := fun _ => none, isAbstract := fun _ => false, components := fun _ => [],
      classes := [] }
  let group : MatchGroup :=
    { subject := .int, arms := [⟨some 2, .dummy⟩, ⟨some 3, .dummy⟩], span := .dummy }
  let one : PatternStore := ((({} : PatternStore).alloc (.constant (.int 1)) .dummy)).2
  let two : PatternStore := (one.alloc (.binding "n" none) .dummy).2
  let three : PatternStore :=
    (two.push ⟨.constant (.int 1), .dummy, .int, .int, none, .typed⟩).2
  let four : PatternStore := (three.push ⟨.binding "n" none, .dummy, .int, .int, none, .typed⟩).2
  have started : Reaches {} two := .tail (.single (.alloc {} _ _)) (.alloc one _ _)
  have constant : runTyping hierarchy 0 .int two {} = .ok (.ok 2, three, {}) := rfl
  have binding : runTyping hierarchy 1 .int three {} = .ok (.ok 3, four, {}) := rfl
  have typed : ∀ entry ∈ group.live, TypedAgainst hierarchy group.subject four entry.2 := by
    intro entry member
    obtain rfl | rfl : entry = (0, 2) ∨ entry = (1, 3) := by simpa [group, live] using member
    · exact ⟨two, 0, {}, three, {}, started, constant, .single (.typing binding)⟩
    · exact ⟨three, 1, {}, four, {}, .tail started (.typing constant), binding, .refl⟩
  have checked : (group.check hierarchy four).run {} = .ok ((⟨{}, true⟩, []), {}) := rfl
  exact ⟨hierarchy, group, four, ⟨{}, true⟩, rfl, typed,
    (lower_implements_first_match typed checked).2⟩

end MatchGroup
end ClassLang
