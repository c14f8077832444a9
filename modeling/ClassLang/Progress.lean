/-! How far a member has come, and the stages that move it on. -/

namespace ClassLang

/-- Progress of one member, in the order in which it is made. -/
inductive Progress where
  | unresolved
  | typesResolved
  | resolved
  | checked
  | constantsFolded
deriving Repr, DecidableEq, Inhabited

namespace Progress

def all : List Progress := [unresolved, typesResolved, resolved, checked, constantsFolded]

/-- Number of stages completed. -/
def rank : Progress → Nat
  | unresolved => 0
  | typesResolved => 1
  | resolved => 2
  | checked => 3
  | constantsFolded => 4

/-- The progress from which this one is reached. -/
def predecessor? : Progress → Option Progress
  | unresolved => none
  | typesResolved => some unresolved
  | resolved => some typesResolved
  | checked => some resolved
  | constantsFolded => some checked

def isTerminal (progress : Progress) : Bool := progress == constantsFolded

def render : Progress → String
  | unresolved => "Unresolved"
  | typesResolved => "TypesResolved"
  | resolved => "Resolved"
  | checked => "Checked"
  | constantsFolded => "ConstantsFolded"

end Progress

/-- The four stages every member goes through. -/
inductive Stage where
  | resolveTypes
  | resolve
  | check
  | foldConstants
deriving Repr, DecidableEq, Inhabited

namespace Stage

/-- The stages in the order in which they run. -/
def all : List Stage := [resolveTypes, resolve, check, foldConstants]

/-- Progress of a member once the stage has run on it. -/
def target : Stage → Progress
  | resolveTypes => .typesResolved
  | resolve => .resolved
  | check => .checked
  | foldConstants => .constantsFolded

/-- Progress a member must have before the stage may run on it. -/
def required : Stage → Progress
  | resolveTypes => .unresolved
  | resolve => .typesResolved
  | check => .resolved
  | foldConstants => .checked

def name : Stage → String
  | resolveTypes => "resolve-types"
  | resolve => "resolve"
  | check => "check"
  | foldConstants => "fold-constants"

def ofName? (text : String) : Option Stage := all.find? (·.name == text)

theorem predecessor?_target (stage : Stage) : stage.target.predecessor? = some stage.required := by
  cases stage <;> rfl

end Stage
end ClassLang
