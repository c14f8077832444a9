import ClassLang.Type.Pool

/-! The two texts of a pooled type: as it would be written, and in full detail. -/

namespace ClassLang
namespace TypePool

/-- `display` by recursion on the nesting depth. -/
def displayWithin (pool : TypePool) : Nat → TypeRef → Except Abort String
  | 0, _ => throw .cyclic
  | depth + 1, type => do
    if type.isAbsent then return "<none>"
    match ← pool.node type with
    | .any => return "any"
    | .void => return "void"
    | .int => return "int"
    | .float => return "float"
    | .bool => return "bool"
    | .char => return "char"
    | .string => return "string"
    | .class_ name | .unresolved name => return name
    | .applied base args =>
      let shown ← args.mapM (displayWithin pool depth)
      return base ++ "<" ++ ", ".intercalate shown ++ ">"
    | .var param _ => return (← pool.param param).name
    | .wildcard .invariant _ => return "?"
    | .wildcard .covariant bound => return "? extends " ++ (← displayWithin pool depth bound)
    | .wildcard .contravariant bound => return "? super " ++ (← displayWithin pool depth bound)

/-- The type as it would be written. Messages show types this way. -/
def display (pool : TypePool) (type : TypeRef) : Except Abort String :=
  pool.displayWithin (pool.size + 1) type

/-- `describe` by recursion on the nesting depth. -/
def describeWithin (pool : TypePool) : Nat → TypeRef → Except Abort String
  | 0, _ => throw .cyclic
  | depth + 1, type => do
    if type.isAbsent then return "<none>"
    match ← pool.node type with
    | .any => return "any"
    | .void => return "void"
    | .int => return "int"
    | .float => return "float"
    | .bool => return "bool"
    | .char => return "char"
    | .string => return "string"
    | .class_ name => return name
    | .unresolved name => return "!" ++ name
    | .applied base args =>
      let shown ← args.mapM (describeWithin pool depth)
      return base ++ "<" ++ ", ".intercalate shown ++ ">"
    | .var param variance =>
      let declared ← pool.param param
      return "'" ++ declared.name ++ "#" ++ declared.owner ++ ":" ++ variance.keyword
    | .wildcard .invariant bound =>
      if bound = .any then return "?" else return "? = " ++ (← describeWithin pool depth bound)
    | .wildcard .covariant bound => return "? extends " ++ (← describeWithin pool depth bound)
    | .wildcard .contravariant bound => return "? super " ++ (← describeWithin pool depth bound)

/-- The type in full detail: owners and variances of variables, bounds of every wildcard, and a
mark on names that were not found. -/
def describe (pool : TypePool) (type : TypeRef) : Except Abort String :=
  pool.describeWithin (pool.size + 1) type

end TypePool
end ClassLang
