import ClassLang.Diagnostic.Basic

/-! Collecting diagnostics, and the number of errors a session tolerates. -/

namespace ClassLang

/-- How a buffer treats what is reported to it. -/
structure BufferConfig where
  /-- Keep only the first of several reports that say the same. -/
  deduplicate : Bool := true
  warningsAsErrors : Bool := false
deriving Repr, DecidableEq, Inhabited

/-- Keep every report as it is. -/
def BufferConfig.unlimited : BufferConfig := { deduplicate := false }

/-- At least one error has been reported. -/
structure ErrorGuaranteed where
  errors : Nat
  positive : 0 < errors

namespace ErrorGuaranteed

def ofCount? (errors : Nat) : Option ErrorGuaranteed :=
  if positive : 0 < errors then some ⟨errors, positive⟩ else none

def render (_ : ErrorGuaranteed) : String := "error(s) emitted"

end ErrorGuaranteed

/-- The diagnostics of one unit, in the order of their reports. -/
structure DiagnosticBuffer where
  config : BufferConfig := {}
  diagnostics : List Diagnostic := []
  /-- What has been reported so far, kept only to find reports that say the same. -/
  seen : List (Code × Span × List String) := []
  /-- Number of errors among the diagnostics. -/
  errorCount : Nat := 0
deriving Repr, DecidableEq, Inhabited

namespace DiagnosticBuffer

def size (buffer : DiagnosticBuffer) : Nat := buffer.diagnostics.length

def guarantee? (buffer : DiagnosticBuffer) : Option ErrorGuaranteed :=
  ErrorGuaranteed.ofCount? buffer.errorCount

/-- The diagnostic as the buffer keeps it. -/
def promote (config : BufferConfig) (diagnostic : Diagnostic) : Diagnostic :=
  if config.warningsAsErrors && diagnostic.severity == .warning then
    { diagnostic with severity := .error }
  else diagnostic

/-- Add a diagnostic and count it if it is an error. -/
def push (buffer : DiagnosticBuffer) (diagnostic : Diagnostic) : DiagnosticBuffer :=
  { buffer with
    diagnostics := buffer.diagnostics ++ [diagnostic]
    errorCount := buffer.errorCount + if diagnostic.isError then 1 else 0 }

def report (buffer : DiagnosticBuffer) (diagnostic : Diagnostic) : DiagnosticBuffer :=
  let kept := promote buffer.config diagnostic
  if buffer.config.deduplicate then
    if buffer.seen.contains diagnostic.key then buffer
    else { buffer with seen := diagnostic.key :: buffer.seen }.push kept
  else buffer.push kept

def reportAll (buffer : DiagnosticBuffer) (diagnostics : List Diagnostic) : DiagnosticBuffer :=
  diagnostics.foldl report buffer

def withCode (buffer : DiagnosticBuffer) (code : Code) : List Diagnostic :=
  buffer.diagnostics.filter (·.code == code)

/-- The diagnostics of several buffers, one buffer after the other. -/
def merge (buffers : List DiagnosticBuffer) : List Diagnostic :=
  buffers.flatMap (·.diagnostics)

end DiagnosticBuffer

/-- The number of values of a counter of 64 bits. -/
def counterRange : Nat := 18446744073709551616

/-- Errors counted over all units, in a counter of 64 bits. Limit 0 stands for no limit. -/
structure ErrorBudget where
  limit : Nat := 0
  spent : Nat := 0
deriving Repr, DecidableEq, Inhabited

namespace ErrorBudget

/-- Count more errors. A counter that is full starts again at 0. -/
def charge (budget : ErrorBudget) (errors : Nat) : ErrorBudget :=
  { budget with spent := (budget.spent + errors) % counterRange }

def limitReached (budget : ErrorBudget) : Bool :=
  decide (0 < budget.limit ∧ budget.limit ≤ budget.spent)

end ErrorBudget
end ClassLang
