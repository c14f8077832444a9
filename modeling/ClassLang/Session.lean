import ClassLang.Pipeline

/-! Compiling several units together. Every stage runs over all units before the next one
starts, so a unit may refer to any other. -/

namespace ClassLang

structure SessionConfig where
  /-- No further stage starts once this many errors are reported; 0 stands for no limit. -/
  errorLimit : Nat := 100
  diagnostics : BufferConfig := {}
deriving Repr, DecidableEq, Inhabited

/-- Never stop early, and keep every report. -/
def SessionConfig.unlimited : SessionConfig := { errorLimit := 0, diagnostics := .unlimited }

/-- A session can be compiled once, and no unit can be added afterwards. -/
inductive SessionFault where
  | alreadyCompiled
deriving Repr, DecidableEq, Inhabited

def SessionFault.message : SessionFault → String
  | .alreadyCompiled => "session already compiled; units cannot be added"

/-- What is handed on when a program is emitted: each member, and each match with its code. -/
inductive EmitEvent where
  | beginUnit (name : String)
  | member (id : Nat) (entry : Member)
  | lowered (expr : Nat) (code : LoweredMatch)
  | endUnit (name : String)
deriving Repr, DecidableEq, Inhabited

/-- One line for the log of an emission; the end of a unit is not logged. -/
def EmitEvent.line? : EmitEvent → Option String
  | .beginUnit name => some ("unit " ++ name)
  | .member id entry => some (s!"member {id} " ++ entry.name)
  | .lowered expr code => some (s!"match {expr} " ++ code.strategy.render)
  | .endUnit _ => none

structure Session where
  config : SessionConfig := {}
  program : Program := {}
  /-- Units waiting to be compiled. -/
  sources : List SourceUnit := []
  units : List CompilationUnit := []
  budget : ErrorBudget := { limit := config.errorLimit }
  compiled : Bool := false
deriving Repr, DecidableEq, Inhabited

/-- The shared parts, the units worked on so far and the errors counted. -/
structure PhaseState where
  program : Program
  units : List CompilationUnit
  budget : ErrorBudget
deriving Repr, DecidableEq, Inhabited

namespace PhaseState

/-- Run a stage on one unit if the unit is ready for it, and count the errors it adds. -/
def runUnit (stage : Stage) (state : PhaseState) (unit : CompilationUnit) :
    Except Abort PhaseState := do
  if unit.progress ≠ stage.required then
    return { state with units := state.units ++ [unit] }
  let (program, done) ← state.program.runStage stage unit
  let added := done.diagnostics.errorCount - unit.diagnostics.errorCount
  return { program, units := state.units ++ [done], budget := state.budget.charge added }

/-- Run a stage on all units in order, unless the error limit was reached before it. -/
def runPhase (state : PhaseState) (stage : Stage) : Except Abort PhaseState :=
  if state.budget.limitReached then .ok state
  else state.units.foldlM (runUnit stage) { state with units := [] }

end PhaseState

namespace Session

/-- Queue a unit; units are numbered in this order. -/
def addUnit (session : Session) (source : SourceUnit) : Except SessionFault (Nat × Session) :=
  if session.compiled then .error .alreadyCompiled
  else .ok (session.sources.length, { session with sources := session.sources ++ [source] })

/-- Declare all queued units in order. -/
def declareUnits (session : Session) : List CompilationUnit × Program :=
  session.sources.zipIdx.foldl (fun (units, program) (source, id) =>
    let (unit, program) := program.declareUnit id source
    let unit := { unit with diagnostics := { config := session.config.diagnostics } }
    (units ++ [unit], program)) ([], session.program)

/-- Declare the queued units and run every stage over them. -/
def run (session : Session) : Except Abort Session := do
  let (units, program) := session.declareUnits
  let start : PhaseState := { program, units, budget := session.budget }
  let final ← Stage.all.foldlM PhaseState.runPhase start
  return { session with
    program := final.program, units := final.units, budget := final.budget
    sources := [], compiled := true }

/-- Compile the queued units, unless that has been done. -/
def compile (session : Session) : Except SessionFault (Except Abort Session) :=
  if session.compiled then .error .alreadyCompiled else .ok session.run

/-- All diagnostics, unit by unit. -/
def diagnostics (session : Session) : List Diagnostic :=
  DiagnosticBuffer.merge (session.units.map (·.diagnostics))

def errorCount (session : Session) : Nat :=
  (session.units.map (·.diagnostics.errorCount)).sum

/-- What is emitted for one unit: its members in order, then its matches by position. -/
def unitEvents (unit : CompilationUnit) : List EmitEvent :=
  [.beginUnit unit.name]
    ++ unit.members.toList.zipIdx.map (fun (member, id) => .member id member)
    ++ unit.lowered.entries.map (fun (expr, code) => .lowered expr code)
    ++ [.endUnit unit.name]

/-- Emit all units, unless an error was reported anywhere. -/
def emit (session : Session) : Except Abort (Except ErrorGuaranteed (List EmitEvent)) := do
  if !session.compiled then throw .notCompiled
  match ErrorGuaranteed.ofCount? session.errorCount with
  | some guarantee => return .error guarantee
  | none =>
    let events ← session.units.mapM fun unit =>
      if unit.allMembersAt .constantsFolded then return unitEvents unit
      else throw (.unfinishedUnit unit.name unit.progress)
    return .ok events.flatten

end Session
end ClassLang
