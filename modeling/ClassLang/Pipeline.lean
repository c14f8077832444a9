import ClassLang.Declaration
import ClassLang.Stage.Bodies
import ClassLang.Stage.Conformance
import ClassLang.Stage.Constants

/-! Running the stages in their order. -/

namespace ClassLang
namespace StageM

/-- The work of a stage on one member. -/
def perform : Stage → Nat → StageM PUnit
  | .resolveTypes => resolveTypes
  | .resolve => resolveBody
  | .check => checkMember
  | .foldConstants => foldConstants

/-- Run a stage on one member, which must be ready for it. A member that is folded already may be
folded again; nothing happens to it. -/
def runMember (stage : Stage) (id : Nat) : StageM PUnit := do
  let unit := (← get).unit
  let member ← unit.members.get id
  if stage = .foldConstants ∧ member.progress.isTerminal then return
  if member.progress ≠ stage.required then
    throw (.stageOrder stage member.name unit.name member.progress)
  perform stage id
  let member ← inspect (·.unit.members.get id)
  setMember id { member with progress := stage.target }

end StageM

namespace Program

/-- Run an action of a stage on a unit: the shared parts and the unit afterwards, and the
reports. -/
def runOn (program : Program) (unit : CompilationUnit) (action : StageM PUnit) :
    Except Abort (Program × CompilationUnit × List Diagnostic) := do
  let (_, final) ← action.run { toProgram := program, unit }
  return (final.toProgram, final.unit, final.reports)

/-- Run a stage on one member. -/
def runMember (program : Program) (stage : Stage) (unit : CompilationUnit) (member : Nat) :
    Except Abort (Program × CompilationUnit × List Diagnostic) :=
  program.runOn unit (StageM.runMember stage member)

/-- Run a stage on every member of a unit, in order, reporting to the unit's own buffer. -/
def runStage (program : Program) (stage : Stage) (unit : CompilationUnit) :
    Except Abort (Program × CompilationUnit) := do
  let (program, unit, reports) ← program.runOn unit (unit.members.ids.forM (StageM.runMember stage))
  return (program, { unit with
    diagnostics := unit.diagnostics.reportAll reports
    progress := stage.target })

/-- Run all stages on a unit. -/
def runAll (program : Program) (unit : CompilationUnit) : Except Abort
    (Program × CompilationUnit) :=
  Stage.all.foldlM (fun (program, unit) stage => program.runStage stage unit) (program, unit)

end Program
end ClassLang
