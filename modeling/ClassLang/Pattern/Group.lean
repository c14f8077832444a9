import ClassLang.Pattern.Code
import ClassLang.Pattern.Coverage

/-! All arms of one match: checking them and lowering them to branches. -/

namespace ClassLang

/-- One arm; the pattern is missing when it could not be typed. -/
structure GroupArm where
  pattern : Option Nat
  span : Span
deriving Repr, DecidableEq, Inhabited

structure MatchGroup where
  subject : TypeRef
  arms : List GroupArm := []
  span : Span
deriving Repr, DecidableEq, Inhabited

inductive Strategy where
  /-- One test of the subject for each arm, jumping to the arm when it holds. -/
  | branchChain
  /-- All tests of an arm in turn, going on to the next arm when one fails. -/
  | ifChain
deriving Repr, DecidableEq, Inhabited

def Strategy.render : Strategy → String
  | .branchChain => "BranchChain"
  | .ifChain => "IfChain"

structure GroupAnalysis where
  coverage : Coverage
  switchable : Bool
deriving Repr, DecidableEq, Inhabited

/-- Where an arm starts, and what it binds before its body runs. -/
structure ArmTarget where
  label : JumpLabel
  bindings : List Instruction := []
deriving Repr, DecidableEq, Inhabited

/-- A lowered match. The code starts with the subject on the evaluation stack; there is one
target for each arm, in order. -/
structure LoweredMatch where
  strategy : Strategy
  code : List Instruction
  arms : List ArmTarget
deriving Repr, DecidableEq, Inhabited

namespace MatchGroup

/-- The diagnostics of a coverage: unreachable arms first, then what no arm takes. -/
def coverageReports (group : MatchGroup) (coverage : Coverage) : List Diagnostic :=
  let unreachable := coverage.unreachable.filterMap fun index =>
    (group.arms[index]?).map fun arm => { code := .unreachablePattern, span := arm.span }
  if coverage.isExhaustive then unreachable
  else
    let quoted := coverage.witnesses.map fun witness => "`" ++ witness ++ "`"
    unreachable ++
      [{ code := .nonExhaustive, span := group.span, args := [", ".intercalate quoted] }]

/-- Judge exhaustiveness and reachability. A subject with an unresolved name in its type is not
judged for exhaustiveness: that name has been reported. -/
def check (group : MatchGroup) (hierarchy : ClassHierarchy) (store : PatternStore) :
    PoolM (GroupAnalysis × List Diagnostic) := do
  let coverage ← analyzeArms hierarchy store (group.arms.map (·.pattern)) group.subject
  let excused ← PoolM.inspect (·.containsUnresolved group.subject)
  let coverage := if excused then { coverage with witnesses := [] } else coverage
  let switchable ← group.arms.allM fun arm =>
    match arm.pattern with
    | some id => store.isSwitchable id
    | none => return true
  return ({ coverage, switchable }, group.coverageReports coverage)

/-- The arms with a pattern, by position. -/
def live (group : MatchGroup) : List (Nat × Nat) :=
  group.arms.zipIdx.filterMap fun (arm, index) => arm.pattern.map (index, ·)

/-- The start of an arm: arms take the first labels, in order. -/
def armLabel (index : Nat) : JumpLabel := ⟨index⟩

/-- Dispatch code for the live arms, with the bindings to perform on entry to an arm. An arm
that takes every value still possible ends the chain. -/
def dispatch (strategy : Strategy) (exhaustive : Bool) (subject : Slot) :
    List (Nat × Nat) → CompileM (List (Nat × List Instruction))
  | [] => do
    CompileM.emit .matchError
    return []
  | (index, pattern) :: rest => do
    let irrefutable ← CompileM.inspect (·.isIrrefutable pattern)
    if irrefutable || (rest.isEmpty && exhaustive) then
      let bindings ← CompileM.aside (CompileM.compileBindings pattern subject)
      match strategy with
      | .branchChain =>
        CompileM.emit (.jump (armLabel index))
        return [(index, bindings)]
      | .ifChain =>
        bindings.forM CompileM.emit
        CompileM.emit (.jump (armLabel index))
        return []
    else
      match strategy with
      | .branchChain =>
        CompileM.switchTest pattern subject
        CompileM.emit (.jumpIfMatch (armLabel index))
        let bindings ← CompileM.aside (CompileM.compileBindings pattern subject)
        return (index, bindings) :: (← dispatch strategy exhaustive subject rest)
      | .ifChain =>
        let next ← CompileM.freshLabel
        CompileM.compilePattern pattern (some subject) next
        CompileM.emit (.jump (armLabel index))
        CompileM.emit (.mark next)
        dispatch strategy exhaustive subject rest

/-- Dispatch code for a whole group: a leading wildcard needs no slot for the subject. -/
def lowerArms (group : MatchGroup) (analysis : GroupAnalysis) :
    CompileM (Strategy × List (Nat × List Instruction)) := do
  let strategy := if analysis.switchable then Strategy.branchChain else .ifChain
  match group.live with
  | (index, first) :: rest =>
    if ← CompileM.inspect (·.isWildcard first) then
      CompileM.compilePattern first none (armLabel index)
      CompileM.emit (.jump (armLabel index))
      return (.branchChain, [])
    else
      let subject ← CompileM.freshSlot
      CompileM.emit (.store subject)
      let entries ←
        dispatch strategy analysis.coverage.isExhaustive subject ((index, first) :: rest)
      return (strategy, entries)
  | [] =>
    let subject ← CompileM.freshSlot
    CompileM.emit (.store subject)
    let entries ← dispatch strategy analysis.coverage.isExhaustive subject []
    return (strategy, entries)

/-- Lower a checked group. Labels of arms come before all other labels. -/
def lower (group : MatchGroup) (analysis : GroupAnalysis) (store : PatternStore) :
    Except Abort (LoweredMatch × PatternStore) := do
  let start : CompileState := { store, buffer := { nextLabel := group.arms.length } }
  let ((strategy, entries), final) ← (group.lowerArms analysis).run start
  let arms := (List.range group.arms.length).map fun index =>
    { label := armLabel index, bindings := (entries.lookup index).getD [] }
  return ({ strategy, code := final.buffer.code, arms }, final.store)

/-- Check and lower a group: what is known about it, the reports, its code, and the patterns
afterwards. -/
def compile (group : MatchGroup) (hierarchy : ClassHierarchy) (store : PatternStore) :
    PoolM ((GroupAnalysis × List Diagnostic) × LoweredMatch × PatternStore) := do
  let (analysis, reports) ← group.check hierarchy store
  let lowered ← group.lower analysis store
  return ((analysis, reports), lowered)

end MatchGroup
end ClassLang
