import ClassLang.Pattern.Store

/-! Branch instructions, and the instructions of a single pattern. -/

namespace ClassLang

/-- A place to jump to. -/
structure JumpLabel where
  raw : Nat
deriving Repr, DecidableEq, Inhabited

def JumpLabel.render (label : JumpLabel) : String := s!"L{label.raw}"

/-- A local that holds a value while it is matched. -/
structure Slot where
  raw : Nat
deriving Repr, DecidableEq, Inhabited

def Slot.render (slot : Slot) : String := s!"s{slot.raw}"

/-- One step of a compiled match. `compare` and `instanceOf` set the condition that the next
conditional jump reads. -/
inductive Instruction where
  | compare (slot : Slot) (value : Literal)
  | instanceOf (slot : Slot) (class_ : Name)
  /-- Drop the subject from the evaluation stack. -/
  | discard
  /-- Move the subject from the evaluation stack into a slot. -/
  | store (slot : Slot)
  /-- Load a component of the value in a slot into another slot. -/
  | project (source : Slot) (index : Nat) (target : Slot)
  | bind (name : Name) (slot : Slot)
  | jumpIfMismatch (label : JumpLabel)
  | jumpIfMatch (label : JumpLabel)
  | jump (label : JumpLabel)
  | mark (label : JumpLabel)
  /-- No arm matched. -/
  | matchError
deriving Repr, DecidableEq, Inhabited

namespace Instruction

def isBranch : Instruction → Bool
  | jumpIfMismatch _ | jumpIfMatch _ | jump _ => true
  | _ => false

def describe : Instruction → String
  | compare slot value => "compare " ++ slot.render ++ " " ++ value.describe
  | instanceOf slot name => "instanceof " ++ slot.render ++ " " ++ name
  | discard => "discard"
  | store slot => "store " ++ slot.render
  | project source index target =>
    "project " ++ source.render ++ s!" {index} " ++ target.render
  | bind name slot => "bind " ++ name ++ " " ++ slot.render
  | jumpIfMismatch label => "jump_if_mismatch " ++ label.render
  | jumpIfMatch label => "jump_if_match " ++ label.render
  | jump label => "jump " ++ label.render
  | mark label => "mark " ++ label.render
  | matchError => "match_error"

end Instruction

/-- Instructions in order, and the numbers of the next label and slot. -/
structure CodeBuffer where
  code : List Instruction := []
  nextLabel : Nat := 0
  nextSlot : Nat := 0
deriving Repr, DecidableEq, Inhabited

def CodeBuffer.branchCount (buffer : CodeBuffer) : Nat := buffer.code.countP (·.isBranch)

/-- The patterns being compiled and the instructions so far. -/
structure CompileState where
  store : PatternStore
  buffer : CodeBuffer := {}
deriving Repr, DecidableEq, Inhabited

abbrev CompileM := StateT CompileState (Except Abort)

namespace CompileM

def inspect {α : Type} (query : PatternStore → Except Abort α) : CompileM α := do
  query (← get).store

def emit (instruction : Instruction) : CompileM PUnit :=
  modify fun state =>
    { state with buffer := { state.buffer with code := state.buffer.code ++ [instruction] } }

def freshLabel : CompileM JumpLabel :=
  modifyGet fun state =>
    (⟨state.buffer.nextLabel⟩,
      { state with buffer := { state.buffer with nextLabel := state.buffer.nextLabel + 1 } })

def freshSlot : CompileM Slot :=
  modifyGet fun state =>
    (⟨state.buffer.nextSlot⟩,
      { state with buffer := { state.buffer with nextSlot := state.buffer.nextSlot + 1 } })

def markCompiled (id : Nat) : CompileM PUnit :=
  modify fun state => { state with store := state.store.markCompiled id }

/-- The slot of the subject; without one the subject is taken from the stack. -/
def ensureSlot : Option Slot → CompileM Slot
  | some slot => return slot
  | none => do
    let slot ← freshSlot
    emit (.store slot)
    return slot

/-- Run `action` with an empty buffer that continues the numbering, and return what it emitted
instead of adding it. -/
def aside (action : CompileM PUnit) : CompileM (List Instruction) := do
  let before := (← get).buffer.code
  modify fun state => { state with buffer := { state.buffer with code := [] } }
  action
  let emitted := (← get).buffer.code
  modify fun state => { state with buffer := { state.buffer with code := before } }
  return emitted

/-- Load every field that is not a wildcard into a slot of its own and go on with it there. -/
def projectFields (onField : Nat → Slot → CompileM PUnit) (slot : Slot) :
    Nat → List Nat → CompileM PUnit
  | _, [] => return
  | index, field :: fields => do
    unless ← inspect (·.isWildcard field) do
      let target ← freshSlot
      emit (.project slot index target)
      onField field target
    projectFields onField slot (index + 1) fields

/-- `compilePattern` by recursion on the nesting depth. -/
def compileWithin : Nat → Nat → Option Slot → JumpLabel → CompileM PUnit
  | 0, _, _, _ => throw .cyclic
  | depth + 1, id, slot, onMismatch => do
    let node ← inspect (·.node id)
    if node.state = .unbound then throw (.patternNotTyped id)
    match node.kind with
    | .wildcard => if slot.isNone then emit .discard
    | .constant value =>
      let slot ← ensureSlot slot
      emit (.compare slot value)
      emit (.jumpIfMismatch onMismatch)
    | .binding name inner =>
      let slot ← ensureSlot slot
      emit (.bind name slot)
      match inner with
      | none => pure ()
      | some inner => compileWithin depth inner (some slot) onMismatch
    | .deconstruct name fields =>
      let slot ← ensureSlot slot
      unless node.ownClass = some name do
        emit (.instanceOf slot name)
        emit (.jumpIfMismatch onMismatch)
      projectFields (fun field target => compileWithin depth field (some target) onMismatch)
        slot 0 fields
    markCompiled id

/-- The tests and bindings of a typed pattern. A test that fails jumps to `onMismatch`; code
that runs through has matched. Without a slot the subject is on the stack. -/
def compilePattern (id : Nat) (slot : Option Slot) (onMismatch : JumpLabel) : CompileM PUnit := do
  compileWithin ((← get).store.size + 1) id slot onMismatch

/-- `compileBindings` by recursion on the nesting depth. -/
def compileBindingsWithin : Nat → Nat → Slot → CompileM PUnit
  | 0, _, _ => throw .cyclic
  | depth + 1, id, slot => do
    match ← inspect (·.kind id) with
    | .wildcard | .constant _ => pure ()
    | .binding name inner =>
      emit (.bind name slot)
      match inner with
      | none => pure ()
      | some inner => compileBindingsWithin depth inner slot
    | .deconstruct _ fields => projectFields (compileBindingsWithin depth) slot 0 fields
    markCompiled id

/-- Only the bindings of a pattern, for a value known to match it. -/
def compileBindings (id : Nat) (slot : Slot) : CompileM PUnit := do
  compileBindingsWithin ((← get).store.size + 1) id slot

/-- `switchTest` by recursion on the nesting depth. -/
def switchTestWithin : Nat → Nat → Slot → CompileM PUnit
  | 0, _, _ => throw .cyclic
  | depth + 1, id, slot => do
    match ← inspect (·.kind id) with
    | .constant value => emit (.compare slot value)
    | .binding _ (some inner) => switchTestWithin depth inner slot
    | .deconstruct name _ => emit (.instanceOf slot name)
    | .wildcard | .binding _ none => pure ()

/-- The one test that decides a switchable pattern. -/
def switchTest (id : Nat) (slot : Slot) : CompileM PUnit := do
  switchTestWithin ((← get).store.size + 1) id slot

end CompileM
end ClassLang
