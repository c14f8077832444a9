/-! The kinds of problems that can be reported, with their wording. -/

namespace ClassLang

inductive Severity where
  | error
  | warning
  | note
deriving Repr, DecidableEq, Inhabited

def Severity.render : Severity → String
  | .error => "error"
  | .warning => "warning"
  | .note => "note"

def Severity.ofName? (text : String) : Option Severity :=
  [Severity.error, .warning, .note].find? (·.render == text)

/-- What a diagnostic is about. -/
inductive Category where
  | type
  | pattern
  | semantic
  | internal
deriving Repr, DecidableEq, Inhabited

def Category.render : Category → String
  | .type => "Type"
  | .pattern => "Pattern"
  | .semantic => "Semantic"
  | .internal => "Internal"

inductive Code where
  | typeMismatch
  | unknownType
  | unknownName
  | noApplicableOverload
  | cannotInferArgument
  | ambiguousCall
  | typeArgumentCount
  | outsideBound
  | varianceConflict
  | unknownMember
  | nonExhaustive
  | unreachablePattern
  | impossiblePattern
  | patternArity
  | inaccessible
  | duplicate
  | badOverride
  | overridesFinal
  | overridesNothing
  | missingImplementation
  | unknownAnnotationClass
  | deprecatedUse
  | abstractInstance
  | internalError
deriving Repr, DecidableEq, Inhabited

/-- A piece of a message: fixed text, or the argument at a position. -/
inductive Piece where
  | text (text : String)
  | arg (position : Nat)
deriving Repr, DecidableEq, Inhabited

namespace Code

def all : List Code :=
  [typeMismatch, unknownType, unknownName, noApplicableOverload, cannotInferArgument,
   ambiguousCall, typeArgumentCount, outsideBound, varianceConflict, unknownMember,
   nonExhaustive, unreachablePattern, impossiblePattern, patternArity,
   inaccessible, duplicate, badOverride, overridesFinal, overridesNothing,
   missingImplementation, unknownAnnotationClass, deprecatedUse, abstractInstance, internalError]

/-- The code as it is shown. Its first digit tells the category. -/
def label : Code → String
  | typeMismatch => "E2001"
  | unknownType => "E2002"
  | unknownName => "E2003"
  | noApplicableOverload => "E2004"
  | cannotInferArgument => "E2005"
  | ambiguousCall => "E2006"
  | typeArgumentCount => "E2007"
  | outsideBound => "E2008"
  | varianceConflict => "E2009"
  | unknownMember => "E2010"
  | nonExhaustive => "E3001"
  | unreachablePattern => "E3002"
  | impossiblePattern => "E3003"
  | patternArity => "E3004"
  | inaccessible => "E4001"
  | duplicate => "E4002"
  | badOverride => "E4003"
  | overridesFinal => "E4004"
  | overridesNothing => "E4005"
  | missingImplementation => "E4006"
  | unknownAnnotationClass => "E4007"
  | deprecatedUse => "E4008"
  | abstractInstance => "E4009"
  | internalError => "E9001"

def ofLabel? (text : String) : Option Code := all.find? (·.label == text)

def category : Code → Category
  | typeMismatch | unknownType | unknownName | noApplicableOverload | cannotInferArgument
  | ambiguousCall | typeArgumentCount | outsideBound | varianceConflict | unknownMember => .type
  | nonExhaustive | unreachablePattern | impossiblePattern | patternArity => .pattern
  | inaccessible | duplicate | badOverride | overridesFinal | overridesNothing
  | missingImplementation | unknownAnnotationClass | deprecatedUse | abstractInstance => .semantic
  | internalError => .internal

/-- The severity unless a report says otherwise. -/
def defaultSeverity : Code → Severity
  | unreachablePattern | deprecatedUse => .warning
  | _ => .error

/-- The wording, with positions for the arguments. -/
def template : Code → List Piece
  | typeMismatch =>
    [.text "type mismatch: expected `", .arg 0, .text "`, found `", .arg 1, .text "`"]
  | unknownType => [.text "cannot resolve type `", .arg 0, .text "`"]
  | unknownName => [.text "cannot resolve symbol `", .arg 0, .text "`"]
  | noApplicableOverload =>
    [.text "no applicable overload of `", .arg 0, .text "` for arguments (", .arg 1, .text ")"]
  | cannotInferArgument =>
    [.text "cannot infer type argument `", .arg 0, .text "` of `", .arg 1, .text "`"]
  | ambiguousCall =>
    [.text "ambiguous call to `", .arg 0, .text "`: ", .arg 1, .text " candidates apply"]
  | typeArgumentCount =>
    [.text "`", .arg 0, .text "` expects ", .arg 1, .text " type argument(s), found ", .arg 2]
  | outsideBound =>
    [.text "type argument `", .arg 0, .text "` is not within bound `", .arg 1,
      .text "` of `", .arg 2, .text "`"]
  | varianceConflict =>
    [.arg 0, .text " type parameter `", .arg 1, .text "` appears in ", .arg 2, .text " position"]
  | unknownMember => [.text "`", .arg 0, .text "` has no member named `", .arg 1, .text "`"]
  | nonExhaustive => [.text "non-exhaustive match: ", .arg 0, .text " not covered"]
  | unreachablePattern => [.text "unreachable pattern"]
  | impossiblePattern =>
    [.text "pattern of type `", .arg 0, .text "` can never match `", .arg 1, .text "`"]
  | patternArity =>
    [.text "`", .arg 0, .text "` has ", .arg 1, .text " component(s), pattern has ", .arg 2]
  | inaccessible => [.text "`", .arg 0, .text "` is ", .arg 1, .text " in `", .arg 2, .text "`"]
  | duplicate => [.text "duplicate declaration of `", .arg 0, .text "`"]
  | badOverride => [.text "`", .arg 0, .text "` cannot override `", .arg 1, .text "`: ", .arg 2]
  | overridesFinal => [.text "`", .arg 0, .text "` overrides final method of `", .arg 1, .text "`"]
  | overridesNothing =>
    [.text "`", .arg 0, .text "` is annotated `@Override` but overrides nothing"]
  | missingImplementation =>
    [.text "`", .arg 0, .text "` must implement abstract method `", .arg 1, .text "` of `", .arg 2,
      .text "`"]
  | unknownAnnotationClass => [.text "cannot resolve annotation `@", .arg 0, .text "`"]
  | deprecatedUse => [.text "`", .arg 0, .text "` is deprecated"]
  | abstractInstance => [.text "cannot instantiate abstract class `", .arg 0, .text "`"]
  | internalError => [.text "internal compiler error: ", .arg 0]

/-- The wording with each argument position in braces. -/
def templateText (code : Code) : String :=
  String.join (code.template.map fun
    | .text text => text
    | .arg position => "\x7b" ++ toString position ++ "\x7d")

end Code
end ClassLang
