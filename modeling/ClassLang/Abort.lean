import ClassLang.Progress
import ClassLang.Type.Ref

/-! Breaches of an internal invariant. They end the computation; they are never reported as
diagnostics of the program being compiled. -/

namespace ClassLang

inductive Abort where
  /-- A position outside its arena or table was read. -/
  | outOfRange
  /-- A graph that must be acyclic is not, so a walk through it would not end. -/
  | cyclic
  | typeNotPooled (type : TypeRef)
  | paramNotPooled (param : ParamRef)
  /-- A refutable pattern was compiled before it was given a type. -/
  | patternNotTyped (pattern : Nat)
  | stageOrder (stage : Stage) (member unit : Name) (found : Progress)
  /-- Emission was asked for before compilation. -/
  | notCompiled
  /-- A unit without errors came to emission with a stage missing. -/
  | unfinishedUnit (unit : Name) (progress : Progress)
deriving Repr, DecidableEq, Inhabited

namespace Abort

/-- The text of an internal compiler error; the remaining breaches have none. -/
def message? : Abort → Option String
  | outOfRange | cyclic => none
  | typeNotPooled type => ice (type.tag ++ " is not in the type pool")
  | paramNotPooled param => ice (param.tag ++ " is not in the type pool")
  | patternNotTyped pattern => ice s!"pattern PatId({pattern}) compiled before it was typed"
  | stageOrder stage member unit found =>
    ice (stage.name ++ " on `" ++ member ++ "` in unit `" ++ unit ++ "` requires state Some("
      ++ stage.required.render ++ "), found " ++ found.render)
  | notCompiled => ice "session has not been compiled yet"
  | unfinishedUnit unit progress =>
    ice ("unit `" ++ unit ++ "` reached emission at " ++ progress.render)
where
  ice (text : String) : Option String := some ("internal compiler error: " ++ text)

end Abort
end ClassLang
