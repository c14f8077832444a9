import ClassLang.Proofs.Pattern.Tree
import Mathlib.Logic.Relation

/-! Running branch code. A machine holds the value being matched on its evaluation stack until a
slot takes it; what a value is like is left to the runtime. -/

namespace ClassLang

/-- What running code asks about values. -/
structure Runtime (Value : Type) where
  equals : Value → Literal → Bool
  isInstance : Value → Name → Bool
  component : Value → Nat → Value

structure Machine (Value : Type) where
  /-- The evaluation stack, which holds at most the subject. -/
  subject : Option Value
  slots : Nat → Option Value := fun _ => none
  locals : Name → Option Value := fun _ => none
  /-- What the last test found, until a conditional jump reads it. -/
  condition : Option Bool := none

/-- A point in a run. -/
inductive RunPoint (Value : Type) where
  | running (rest : List Instruction) (machine : Machine Value)
  /-- Control left the code for a label that is not marked in it. -/
  | entered (label : JumpLabel) (machine : Machine Value)
  | failed
  /-- An instruction found an empty slot, an empty stack or no condition. -/
  | stuck

/-- The code behind the mark of a label. -/
def codeAfter (label : JumpLabel) : List Instruction → Option (List Instruction)
  | [] => none
  | .mark other :: rest => if other = label then some rest else codeAfter label rest
  | _ :: rest => codeAfter label rest

namespace Runtime
variable {Value : Type}

/-- Go to a label: behind its mark, or out of the program. -/
def goto (program : List Instruction) (label : JumpLabel) (machine : Machine Value) :
    RunPoint Value :=
  match codeAfter label program with
  | some rest => .running rest machine
  | none => .entered label machine

/-- Put a value into a slot. -/
def load (machine : Machine Value) (slot : Slot) (value : Value) : Machine Value :=
  { machine with slots := fun other =>
    if other = slot.raw then some value else machine.slots other }

/-- Give a name a value. -/
def assign (locals : Name → Option Value) (name : Name) (value : Value) : Name → Option Value :=
  fun other => if other = name then some value else locals other

/-- One step of a run; there is none at its end. -/
def step (runtime : Runtime Value) (program : List Instruction) :
    RunPoint Value → Option (RunPoint Value)
  | .running (instruction :: rest) machine =>
    some <| match instruction with
    | .compare slot literal =>
      match machine.slots slot.raw with
      | some value => .running rest
          { machine with condition := some (runtime.equals value literal) }
      | none => .stuck
    | .instanceOf slot name =>
      match machine.slots slot.raw with
      | some value => .running rest
          { machine with condition := some (runtime.isInstance value name) }
      | none => .stuck
    | .discard =>
      match machine.subject with
      | some _ => .running rest { machine with subject := none }
      | none => .stuck
    | .store slot =>
      match machine.subject with
      | some value => .running rest (load { machine with subject := none } slot value)
      | none => .stuck
    | .project source index target =>
      match machine.slots source.raw with
      | some value => .running rest (load machine target (runtime.component value index))
      | none => .stuck
    | .bind name slot =>
      match machine.slots slot.raw with
      | some value => .running rest { machine with locals := assign machine.locals name value }
      | none => .stuck
    | .jumpIfMismatch label =>
      match machine.condition with
      | some true => .running rest { machine with condition := none }
      | some false => goto program label { machine with condition := none }
      | none => .stuck
    | .jumpIfMatch label =>
      match machine.condition with
      | some true => goto program label { machine with condition := none }
      | some false => .running rest { machine with condition := none }
      | none => .stuck
    | .jump label => goto program label machine
    | .mark _ => .running rest machine
    | .matchError => .failed
  | _ => none

/-- A run leads from one point to another. -/
def Leads (runtime : Runtime Value) (program : List Instruction) :
    RunPoint Value → RunPoint Value → Prop :=
  Relation.ReflTransGen fun point next => runtime.step program point = some next

/-- A run from one point ends at another. -/
def Ends (runtime : Runtime Value) (program : List Instruction) (start final : RunPoint Value) :
    Prop :=
  runtime.Leads program start final ∧ runtime.step program final = none

/-- A run has only one end. -/
theorem Ends.unique {runtime : Runtime Value} {program : List Instruction}
    {start first second : RunPoint Value} (earlier : runtime.Ends program start first)
    (later : runtime.Ends program start second) : first = second := by
  obtain ⟨path, halted⟩ := earlier
  induction path using Relation.ReflTransGen.head_induction_on with
  | refl =>
    rcases Relation.ReflTransGen.cases_head later.1 with same | ⟨next, taken, _⟩
    · exact same
    · rw [halted] at taken
      cases taken
  | head taken _ ih =>
    rcases Relation.ReflTransGen.cases_head later.1 with same | ⟨next, other, rest⟩
    · subst same
      rw [later.2] at taken
      cases taken
    · have same := Option.some.inj (taken.symm.trans other)
      subst same
      exact ih ⟨rest, later.2⟩

theorem Leads.step {runtime : Runtime Value} {program : List Instruction}
    {start next final : RunPoint Value} (taken : runtime.step program start = some next)
    (rest : runtime.Leads program next final) : runtime.Leads program start final :=
  Relation.ReflTransGen.head taken rest

end Runtime

namespace PatternTree
variable {Value : Type} (runtime : Runtime Value)

mutual

/-- Whether a value matches. The instance test is left out where the class is that of the
subject. -/
def accepts : PatternTree → Value → Bool
  | wildcard, _ | binding _, _ => true
  | constant literal, value => runtime.equals value literal
  | named _ inner, value => accepts inner value
  | deconstruct name own fields, value =>
    (own || runtime.isInstance value name) && acceptFields fields value 0

/-- Whether the components from `index` on match. -/
def acceptFields : List PatternTree → Value → Nat → Bool
  | [], _, _ => true
  | field :: fields, value, index =>
    accepts field (runtime.component value index) && acceptFields fields value (index + 1)

end

mutual

/-- Every name with the part of the value it stands for, in the order in which they are written. -/
def parts : PatternTree → Value → List (Name × Value)
  | wildcard, _ | constant _, _ => []
  | binding name, value => [(name, value)]
  | named name inner, value => (name, value) :: parts inner value
  | deconstruct _ _ fields, value => fieldParts fields value 0

/-- The same for the components from `index` on. -/
def fieldParts : List PatternTree → Value → Nat → List (Name × Value)
  | [], _, _ => []
  | field :: fields, value, index =>
    parts field (runtime.component value index) ++ fieldParts fields value (index + 1)

end

mutual

theorem parts_names : ∀ (tree : PatternTree) (value : Value),
    (tree.parts runtime value).map Prod.fst = tree.names
  | wildcard, _ | constant _, _ | binding _, _ => rfl
  | named name inner, value => by simp [parts, names, parts_names inner value]
  | deconstruct _ _ fields, value => by simp [parts, names, fieldParts_names fields value 0]

theorem fieldParts_names : ∀ (fields : List PatternTree) (value : Value) (index : Nat),
    (fieldParts runtime fields value index).map Prod.fst = fieldNames fields
  | [], _, _ => rfl
  | field :: fields, value, index => by
    simp [fieldParts, fieldNames, parts_names field, fieldParts_names fields]

end

mutual

/-- An irrefutable pattern matches every value. -/
theorem accepts_of_irrefutable : ∀ (tree : PatternTree) (value : Value),
    tree.isIrrefutable = true → tree.accepts runtime value = true
  | wildcard, _, _ | binding _, _, _ => rfl
  | constant _, _, irrefutable => by simp [isIrrefutable] at irrefutable
  | named _ inner, value, irrefutable => accepts_of_irrefutable inner value irrefutable
  | deconstruct _ own fields, value, irrefutable => by
    simp only [isIrrefutable, Bool.and_eq_true] at irrefutable
    simp [accepts, irrefutable.1, acceptFields_of_irrefutable fields value 0 irrefutable.2]

theorem acceptFields_of_irrefutable : ∀ (fields : List PatternTree) (value : Value) (index : Nat),
    allIrrefutable fields = true → acceptFields runtime fields value index = true
  | [], _, _, _ => rfl
  | field :: fields, value, index, irrefutable => by
    simp only [allIrrefutable, Bool.and_eq_true] at irrefutable
    simp [acceptFields, accepts_of_irrefutable field _ irrefutable.1,
      acceptFields_of_irrefutable fields value (index + 1) irrefutable.2]

end
end PatternTree
end ClassLang
