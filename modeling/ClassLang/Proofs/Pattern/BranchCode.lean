import ClassLang.Proofs.Pattern.Execution
import Mathlib.Data.List.Induction

/-! The instructions of a pattern as a function of its tree, and what running them does. -/

namespace ClassLang
namespace PatternTree

/-- A test and the jump that reads it; without a place to go nothing is tested. -/
def test (check : Instruction) : Option JumpLabel → List Instruction
  | some label => [check, .jumpIfMismatch label]
  | none => []

mutual

/-- The instructions of a pattern for the value in `slot`, and the number of the next free slot.
Without a place to go on a mismatch only names are bound. -/
def code (onMismatch : Option JumpLabel) : PatternTree → Slot → Nat → List Instruction × Nat
  | wildcard, _, next => ([], next)
  | constant value, slot, next => (test (.compare slot value) onMismatch, next)
  | binding name, slot, next => ([.bind name slot], next)
  | named name inner, slot, next =>
    (.bind name slot :: (code onMismatch inner slot next).1, (code onMismatch inner slot next).2)
  | deconstruct name own fields, slot, next =>
    ((if own then [] else test (.instanceOf slot name) onMismatch) ++
      (fieldCode onMismatch fields slot 0 next).1, (fieldCode onMismatch fields slot 0 next).2)

/-- The same for the components from `index` on; a wildcard needs no slot. -/
def fieldCode (onMismatch : Option JumpLabel) :
    List PatternTree → Slot → Nat → Nat → List Instruction × Nat
  | [], _, _, next => ([], next)
  | field :: fields, slot, index, next =>
    if field.isWildcard then fieldCode onMismatch fields slot (index + 1) next
    else
      let first := code onMismatch field ⟨next⟩ (next + 1)
      let rest := fieldCode onMismatch fields slot (index + 1) first.2
      (.project slot index ⟨next⟩ :: first.1 ++ rest.1, rest.2)

end

mutual

theorem code_next_le (onMismatch : Option JumpLabel) : ∀ (tree : PatternTree) (slot : Slot)
    (next : Nat), next ≤ (tree.code onMismatch slot next).2
  | wildcard, _, _ | constant _, _, _ | binding _, _, _ => Nat.le_refl _
  | named _ inner, slot, next => code_next_le onMismatch inner slot next
  | deconstruct _ _ fields, slot, next => fieldCode_next_le onMismatch fields slot 0 next

theorem fieldCode_next_le (onMismatch : Option JumpLabel) : ∀ (fields : List PatternTree)
    (slot : Slot) (index next : Nat), next ≤ (fieldCode onMismatch fields slot index next).2
  | [], _, _, _ => Nat.le_refl _
  | field :: fields, slot, index, next => by
    unfold fieldCode
    split
    · exact fieldCode_next_le onMismatch fields slot (index + 1) next
    · have first := code_next_le onMismatch field ⟨next⟩ (next + 1)
      have rest := fieldCode_next_le onMismatch fields slot (index + 1)
        (code onMismatch field ⟨next⟩ (next + 1)).2
      dsimp only
      omega

end
end PatternTree

namespace Runtime
variable {Value : Type}

/-- Give several names their values, one after the other. -/
def assignAll (locals : Name → Option Value) (parts : List (Name × Value)) : Name → Option Value :=
  parts.foldl (fun locals part => assign locals part.1 part.2) locals

theorem assignAll_append (locals : Name → Option Value) (first second : List (Name × Value)) :
    assignAll locals (first ++ second) = assignAll (assignAll locals first) second :=
  List.foldl_append

/-- Of several values for a name the last one stays. -/
theorem assignAll_of_lookup {parts : List (Name × Value)} {name : Name} {value : Value} :
    ∀ {locals : Name → Option Value}, parts.reverse.lookup name = some value →
      assignAll locals parts name = some value := by
  induction parts using List.reverseRecOn with
  | nil => intro _ found; cases found
  | append_singleton parts last ih =>
    intro locals found
    obtain ⟨bound, part⟩ := last
    rw [assignAll_append]
    simp only [List.reverse_append, List.reverse_cons, List.reverse_nil, List.nil_append,
      List.singleton_append, List.lookup_cons] at found
    by_cases same : name = bound
    · simp only [same, beq_self_eq_true] at found
      simp [assignAll, assign, same, found]
    · have differ : (name == bound) = false := by simpa using same
      simp only [differ] at found
      simpa [assignAll, assign, same] using ih found

/-- The stack and the slots below `limit` are as before. -/
structure Undisturbed (limit : Nat) (before after : Machine Value) : Prop where
  subject : after.subject = before.subject
  slots : ∀ slot < limit, after.slots slot = before.slots slot

namespace Undisturbed

theorem refl (limit : Nat) (machine : Machine Value) : Undisturbed limit machine machine :=
  ⟨rfl, fun _ _ => rfl⟩

theorem trans {limit later : Nat} {first second third : Machine Value}
    (former : Undisturbed limit first second) (latter : Undisturbed later second third)
    (larger : limit ≤ later) : Undisturbed limit first third :=
  ⟨latter.subject.trans former.subject,
    fun slot below => (latter.slots slot (by omega)).trans (former.slots slot below)⟩

theorem load (machine : Machine Value) (next : Nat) (value : Value) :
    Undisturbed next machine (Runtime.load machine ⟨next⟩ value) :=
  ⟨rfl, fun slot below => by simp [Runtime.load, Nat.ne_of_lt below]⟩

end Undisturbed

variable {runtime : Runtime Value} {program rest : List Instruction} {machine : Machine Value}
  {check : Instruction} {result : Bool} {label : JumpLabel} {onMismatch : Option JumpLabel}
  {slot : Slot} {value : Value}

/-- The instruction only sets the condition. -/
def SetsCondition (runtime : Runtime Value) (program : List Instruction) (check : Instruction)
    (machine : Machine Value) (result : Bool) : Prop :=
  ∀ rest, runtime.step program (.running (check :: rest) machine) =
    some (.running rest { machine with condition := some result })

theorem setsCondition_compare (runtime : Runtime Value) (program : List Instruction)
    (held : machine.slots slot.raw = some value) (literal : Literal) :
    runtime.SetsCondition program (.compare slot literal) machine (runtime.equals value literal) :=
  fun _ => by simp [step, held]

theorem setsCondition_instanceOf (runtime : Runtime Value) (program : List Instruction)
    (held : machine.slots slot.raw = some value) (name : Name) :
    runtime.SetsCondition program (.instanceOf slot name) machine
      (runtime.isInstance value name) :=
  fun _ => by simp [step, held]

theorem test_passes (rest : List Instruction)
    (sets : runtime.SetsCondition program check machine result)
    (passes : onMismatch = none ∨ result = true) :
    ∃ condition, runtime.Leads program
      (.running (PatternTree.test check onMismatch ++ rest) machine)
      (.running rest { machine with condition }) := by
  cases onMismatch with
  | none => exact ⟨machine.condition, .refl⟩
  | some label =>
    have holds : result = true := passes.resolve_left (by simp)
    subst holds
    refine ⟨none, Leads.step (sets _) (Leads.step ?_ .refl)⟩
    simp [step]

theorem test_fails (sets : runtime.SetsCondition program check machine false) :
    runtime.Leads program (.running (PatternTree.test check (some label) ++ rest) machine)
      (goto program label { machine with condition := none }) := by
  refine Leads.step (sets _) (Leads.step ?_ .refl)
  simp [step]

/-- The instance test of a deconstruction is passed, or is left out. -/
theorem instance_passes (program : List Instruction) (onMismatch : Option JumpLabel)
    (fields : List PatternTree) (next : Nat) (rest : List Instruction) {name : Name} {own : Bool}
    (held : machine.slots slot.raw = some value)
    (passes : onMismatch = none ∨ (own || runtime.isInstance value name) = true) :
    ∃ condition, runtime.Leads program
      (.running ((PatternTree.code onMismatch (.deconstruct name own fields) slot next).1 ++ rest)
        machine)
      (.running ((PatternTree.fieldCode onMismatch fields slot 0 next).1 ++ rest)
        { machine with condition }) := by
  cases own with
  | true => exact ⟨machine.condition, by simpa [PatternTree.code] using .refl⟩
  | false =>
    simpa [PatternTree.code] using
      test_passes _ (setsCondition_instanceOf runtime program held name)
        (passes.imp_right fun found => by simpa using found)

mutual

/-- Code that is passed by a matching value, or that tests nothing, runs through and binds every
name of the pattern. -/
theorem code_accepts (program : List Instruction) (onMismatch : Option JumpLabel) :
    ∀ (tree : PatternTree) (slot : Slot) (next : Nat) (value : Value) (rest : List Instruction)
      (machine : Machine Value), machine.slots slot.raw = some value → slot.raw < next →
      (onMismatch = none ∨ tree.accepts runtime value = true) →
      ∃ after, runtime.Leads program
          (.running ((tree.code onMismatch slot next).1 ++ rest) machine) (.running rest after) ∧
        Undisturbed next machine after ∧
        after.locals = assignAll machine.locals (tree.parts runtime value)
  | .wildcard, _, next, _, _, machine, _, _, _ => ⟨machine, .refl, .refl next machine, rfl⟩
  | .constant literal, slot, next, value, rest, machine, held, _, passes => by
    obtain ⟨condition, path⟩ :=
      test_passes rest (setsCondition_compare runtime program held literal) passes
    exact ⟨_, path, ⟨rfl, fun _ _ => rfl⟩, rfl⟩
  | .binding name, slot, next, value, rest, machine, held, _, _ => by
    refine ⟨{ machine with locals := assign machine.locals name value }, Leads.step ?_ .refl,
      ⟨rfl, fun _ _ => rfl⟩, ?_⟩
    · simp [PatternTree.code, step, held]
    · simp [PatternTree.parts, assignAll]
  | .named name inner, slot, next, value, rest, machine, held, below, passes => by
    obtain ⟨after, path, undisturbed, locals⟩ :=
      code_accepts program onMismatch inner slot next value rest
        { machine with locals := assign machine.locals name value } held below passes
    refine ⟨after, Leads.step ?_ path, ⟨undisturbed.subject, undisturbed.slots⟩, ?_⟩
    · simp [PatternTree.code, step, held]
    · simp [locals, PatternTree.parts, assignAll]
  | .deconstruct name own fields, slot, next, value, rest, machine, held, below, passes => by
    have root : onMismatch = none ∨ (own || runtime.isInstance value name) = true :=
      passes.imp_right fun accepted => by
        simp only [PatternTree.accepts, Bool.and_eq_true] at accepted
        exact accepted.1
    obtain ⟨condition, first⟩ := instance_passes program onMismatch fields next rest held root
    have components : onMismatch = none ∨
        PatternTree.acceptFields runtime fields value 0 = true :=
      passes.imp_right fun accepted => by
        simp only [PatternTree.accepts, Bool.and_eq_true] at accepted
        exact accepted.2
    obtain ⟨after, path, undisturbed, locals⟩ :=
      fieldCode_accepts program onMismatch fields slot 0 next value rest
        { machine with condition } held below components
    exact ⟨after, first.trans path, ⟨undisturbed.subject, undisturbed.slots⟩, locals⟩

theorem fieldCode_accepts (program : List Instruction) (onMismatch : Option JumpLabel) :
    ∀ (fields : List PatternTree) (slot : Slot) (index next : Nat) (value : Value)
      (rest : List Instruction) (machine : Machine Value), machine.slots slot.raw = some value →
      slot.raw < next →
      (onMismatch = none ∨ PatternTree.acceptFields runtime fields value index = true) →
      ∃ after, runtime.Leads program
          (.running ((PatternTree.fieldCode onMismatch fields slot index next).1 ++ rest) machine)
          (.running rest after) ∧
        Undisturbed next machine after ∧
        after.locals = assignAll machine.locals (PatternTree.fieldParts runtime fields value index)
  | [], _, _, next, _, _, machine, _, _, _ => ⟨machine, .refl, .refl next machine, rfl⟩
  | field :: fields, slot, index, next, value, rest, machine, held, below, passes => by
    have others : onMismatch = none ∨
        PatternTree.acceptFields runtime fields value (index + 1) = true :=
      passes.imp_right fun accepted => by
        simp only [PatternTree.acceptFields, Bool.and_eq_true] at accepted
        exact accepted.2
    have own : onMismatch = none ∨
        field.accepts runtime (runtime.component value index) = true :=
      passes.imp_right fun accepted => by
        simp only [PatternTree.acceptFields, Bool.and_eq_true] at accepted
        exact accepted.1
    by_cases wild : field.isWildcard = true
    · cases field <;> simp only [PatternTree.isWildcard, Bool.false_eq_true] at wild
      simpa [PatternTree.fieldCode, PatternTree.isWildcard, PatternTree.fieldParts,
        PatternTree.parts] using
        fieldCode_accepts program onMismatch fields slot (index + 1) next value rest machine held
          below others
    · have loaded : (load machine ⟨next⟩ (runtime.component value index)).slots next =
          some (runtime.component value index) := by simp [load]
      obtain ⟨middle, first, kept, locals⟩ :=
        code_accepts program onMismatch field ⟨next⟩ (next + 1) (runtime.component value index) _ _
          loaded (Nat.lt_succ_self next) own
      have still : middle.slots slot.raw = some value := by
        rw [kept.slots _ (by omega), (Undisturbed.load machine next _).slots _ below, held]
      have grown := PatternTree.code_next_le onMismatch field ⟨next⟩ (next + 1)
      obtain ⟨after, second, keptAfter, localsAfter⟩ := fieldCode_accepts program onMismatch fields
        slot (index + 1) (PatternTree.code onMismatch field ⟨next⟩ (next + 1)).2 value rest middle
        still (by omega) others
      refine ⟨after, Leads.step ?_ (first.trans second), ?_, ?_⟩
      · simp [PatternTree.fieldCode, wild, step, held]
      · exact ((Undisturbed.load machine next _).trans kept (by omega)).trans keptAfter (by omega)
      · rw [localsAfter, locals, PatternTree.fieldParts, assignAll_append]
        rfl

end

mutual

/-- Code with a place to go on a mismatch goes there from a value that does not match. -/
theorem code_rejects (program : List Instruction) (label : JumpLabel) :
    ∀ (tree : PatternTree) (slot : Slot) (next : Nat) (value : Value) (rest : List Instruction)
      (machine : Machine Value), machine.slots slot.raw = some value → slot.raw < next →
      tree.accepts runtime value = false →
      ∃ after, runtime.Leads program
          (.running ((tree.code (some label) slot next).1 ++ rest) machine)
          (goto program label after) ∧
        Undisturbed next machine after
  | .wildcard, _, _, _, _, _, _, _, rejected | .binding _, _, _, _, _, _, _, _, rejected => by
    simp [PatternTree.accepts] at rejected
  | .constant literal, slot, next, value, rest, machine, held, _, rejected => by
    have sets := setsCondition_compare runtime program held literal
    rw [show runtime.equals value literal = false from rejected] at sets
    exact ⟨_, test_fails sets, ⟨rfl, fun _ _ => rfl⟩⟩
  | .named name inner, slot, next, value, rest, machine, held, below, rejected => by
    obtain ⟨after, path, undisturbed⟩ :=
      code_rejects program label inner slot next value rest
        { machine with locals := assign machine.locals name value } held below rejected
    refine ⟨after, Leads.step ?_ path, ⟨undisturbed.subject, undisturbed.slots⟩⟩
    simp [PatternTree.code, step, held]
  | .deconstruct name own fields, slot, next, value, rest, machine, held, below, rejected => by
    by_cases root : (own || runtime.isInstance value name) = true
    · have components : PatternTree.acceptFields runtime fields value 0 = false := by
        simpa [PatternTree.accepts, root] using rejected
      obtain ⟨condition, first⟩ := instance_passes program (some label) fields next rest held
        (.inr root)
      obtain ⟨after, path, undisturbed⟩ := fieldCode_rejects program label fields slot 0 next value
        rest { machine with condition } held below components
      exact ⟨after, first.trans path, ⟨undisturbed.subject, undisturbed.slots⟩⟩
    · obtain ⟨rfl, failed⟩ : own = false ∧ runtime.isInstance value name = false := by
        simpa using root
      have sets := setsCondition_instanceOf runtime program held name
      rw [failed] at sets
      exact ⟨{ machine with condition := none },
        by simpa [PatternTree.code] using test_fails sets, ⟨rfl, fun _ _ => rfl⟩⟩

theorem fieldCode_rejects (program : List Instruction) (label : JumpLabel) :
    ∀ (fields : List PatternTree) (slot : Slot) (index next : Nat) (value : Value)
      (rest : List Instruction) (machine : Machine Value), machine.slots slot.raw = some value →
      slot.raw < next → PatternTree.acceptFields runtime fields value index = false →
      ∃ after, runtime.Leads program
          (.running ((PatternTree.fieldCode (some label) fields slot index next).1 ++ rest) machine)
          (goto program label after) ∧
        Undisturbed next machine after
  | [], _, _, _, _, _, _, _, _, rejected => by simp [PatternTree.acceptFields] at rejected
  | field :: fields, slot, index, next, value, rest, machine, held, below, rejected => by
    by_cases wild : field.isWildcard = true
    · cases field <;> simp only [PatternTree.isWildcard, Bool.false_eq_true] at wild
      have others : PatternTree.acceptFields runtime fields value (index + 1) = false := by
        simpa [PatternTree.acceptFields, PatternTree.accepts] using rejected
      simpa [PatternTree.fieldCode, PatternTree.isWildcard] using
        fieldCode_rejects program label fields slot (index + 1) next value rest machine held below
          others
    · have loaded : (load machine ⟨next⟩ (runtime.component value index)).slots next =
          some (runtime.component value index) := by simp [load]
      have start : runtime.step program (.running
          ((PatternTree.fieldCode (some label) (field :: fields) slot index next).1 ++ rest)
          machine) = some (.running ((PatternTree.code (some label) field ⟨next⟩ (next + 1)).1 ++
            ((PatternTree.fieldCode (some label) fields slot (index + 1)
              (PatternTree.code (some label) field ⟨next⟩ (next + 1)).2).1 ++ rest))
            (load machine ⟨next⟩ (runtime.component value index))) := by
        simp [PatternTree.fieldCode, wild, step, held]
      by_cases accepted : field.accepts runtime (runtime.component value index) = true
      · have others : PatternTree.acceptFields runtime fields value (index + 1) = false := by
          simpa [PatternTree.acceptFields, accepted] using rejected
        obtain ⟨middle, first, kept, _⟩ := code_accepts program (some label) field ⟨next⟩ (next + 1)
          (runtime.component value index) _ _ loaded (Nat.lt_succ_self next) (.inr accepted)
        have still : middle.slots slot.raw = some value := by
          rw [kept.slots _ (by omega), (Undisturbed.load machine next _).slots _ below, held]
        have grown := PatternTree.code_next_le (some label) field ⟨next⟩ (next + 1)
        obtain ⟨after, second, keptAfter⟩ := fieldCode_rejects program label fields slot (index + 1)
          (PatternTree.code (some label) field ⟨next⟩ (next + 1)).2 value rest middle still
          (by omega) others
        refine ⟨after, Leads.step start (first.trans second), ?_⟩
        exact ((Undisturbed.load machine next _).trans kept (by omega)).trans keptAfter (by omega)
      · obtain ⟨after, path, kept⟩ := code_rejects program label field ⟨next⟩ (next + 1)
          (runtime.component value index) _ _ loaded (Nat.lt_succ_self next)
          (by simpa using accepted)
        exact ⟨after, Leads.step start path,
          (Undisturbed.load machine next _).trans kept (by omega)⟩

end

end Runtime
end ClassLang
