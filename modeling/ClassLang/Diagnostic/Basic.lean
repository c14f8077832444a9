import ClassLang.Diagnostic.Code
import ClassLang.Span

/-! One reported problem. -/

namespace ClassLang

/-- A second place with an explanation. -/
structure Label where
  span : Span
  message : String
deriving Repr, DecidableEq, Inhabited

/-- A problem at a place. The arguments fill the code's wording. -/
structure Diagnostic where
  code : Code
  severity : Severity := code.defaultSeverity
  span : Span
  args : List String := []
  labels : List Label := []
  notes : List String := []
deriving Repr, DecidableEq, Inhabited

namespace Diagnostic

def isError (diagnostic : Diagnostic) : Bool := diagnostic.severity == .error

/-- The code's wording with the arguments filled in; an argument that is not there shows as `?`. -/
def message (diagnostic : Diagnostic) : String :=
  String.join (diagnostic.code.template.map fun
    | .text text => text
    | .arg position => (diagnostic.args[position]?).getD "?")

def render (diagnostic : Diagnostic) : String :=
  diagnostic.severity.render ++ " [" ++ diagnostic.code.label ++ "] at " ++ diagnostic.span.render
    ++ ": " ++ diagnostic.message
    ++ String.join (diagnostic.labels.map fun label =>
        "\n  --> " ++ label.span.render ++ ": " ++ label.message)
    ++ String.join (diagnostic.notes.map fun note => "\n  = note: " ++ note)

/-- What a report says: two reports with the same code, place and arguments say the same. -/
def key (diagnostic : Diagnostic) : Code × Span × List String :=
  (diagnostic.code, diagnostic.span, diagnostic.args)

end Diagnostic

/-- Number of errors among the diagnostics. -/
def errorCount (diagnostics : List Diagnostic) : Nat := diagnostics.countP (·.isError)

end ClassLang
