import ClassLang.Name
import ClassLang.Span
import ClassLang.Variance

/-! Types as they are written, before any name in them is looked up. -/

namespace ClassLang

/-- A written type. Primitive names are ordinary names here. -/
inductive TypeExpr where
  | named (name : Name) (args : List TypeExpr) (span : Span)
  | wildcard (variance : Variance) (bound : Option TypeExpr) (span : Span)
  /-- Nothing was written. -/
  | infer
deriving Repr, Inhabited

namespace TypeExpr

mutual

/-- Equality of written types, spans included. -/
def decEq : (first second : TypeExpr) → Decidable (first = second)
  | .named n as s, .named m bs t =>
    match decEqList as bs with
    | .isTrue sameArgs =>
      if same : n = m ∧ s = t then .isTrue (by rw [same.1, same.2, sameArgs])
      else .isFalse (by intro h; injection h with hn _ hs; exact same ⟨hn, hs⟩)
    | .isFalse differ => .isFalse (by intro h; injection h with _ ha _; exact differ ha)
  | .wildcard v b s, .wildcard w c t =>
    match decEqOption b c with
    | .isTrue sameBound =>
      if same : v = w ∧ s = t then .isTrue (by rw [same.1, same.2, sameBound])
      else .isFalse (by intro h; injection h with hv _ hs; exact same ⟨hv, hs⟩)
    | .isFalse differ => .isFalse (by intro h; injection h with _ hb _; exact differ hb)
  | .infer, .infer => .isTrue rfl
  | .named .., .wildcard .. => .isFalse (by intro h; cases h)
  | .named .., .infer => .isFalse (by intro h; cases h)
  | .wildcard .., .named .. => .isFalse (by intro h; cases h)
  | .wildcard .., .infer => .isFalse (by intro h; cases h)
  | .infer, .named .. => .isFalse (by intro h; cases h)
  | .infer, .wildcard .. => .isFalse (by intro h; cases h)

def decEqList : (first second : List TypeExpr) → Decidable (first = second)
  | [], [] => .isTrue rfl
  | [], _ :: _ => .isFalse (by intro h; cases h)
  | _ :: _, [] => .isFalse (by intro h; cases h)
  | a :: as, b :: bs =>
    match decEq a b with
    | .isTrue sameHead =>
      match decEqList as bs with
      | .isTrue sameTail => .isTrue (by rw [sameHead, sameTail])
      | .isFalse differ => .isFalse (by intro h; injection h with _ ht; exact differ ht)
    | .isFalse differ => .isFalse (by intro h; injection h with hh _; exact differ hh)

def decEqOption : (first second : Option TypeExpr) → Decidable (first = second)
  | none, none => .isTrue rfl
  | none, some _ => .isFalse (by intro h; cases h)
  | some _, none => .isFalse (by intro h; cases h)
  | some a, some b =>
    match decEq a b with
    | .isTrue same => .isTrue (by rw [same])
    | .isFalse differ => .isFalse (by intro h; injection h with hh; exact differ hh)

end

instance : DecidableEq TypeExpr := decEq

/-- Where the type is written; nothing written stands nowhere. -/
def span : TypeExpr → Span
  | named _ _ span => span
  | wildcard _ _ span => span
  | infer => .dummy

mutual

/-- The names that occur, in the order in which they are written. -/
def names : TypeExpr → List Name
  | infer => []
  | named name args _ => name :: namesOfAll args
  | wildcard _ bound _ => namesOfBound bound

def namesOfAll : List TypeExpr → List Name
  | [] => []
  | first :: rest => names first ++ namesOfAll rest

def namesOfBound : Option TypeExpr → List Name
  | none => []
  | some bound => names bound

end

mutual

/-- The written type with every span, for inspection. -/
def describe : TypeExpr → String
  | infer => "infer"
  | named name args span =>
    match args with
    | [] => name ++ "@" ++ span.render
    | first :: rest =>
      name ++ "<" ++ describe first ++ describeRest rest ++ ">@" ++ span.render
  | wildcard variance bound span =>
    "?" ++ variance.keyword ++ describeBound bound ++ "@" ++ span.render

def describeRest : List TypeExpr → String
  | [] => ""
  | next :: rest => ", " ++ describe next ++ describeRest rest

def describeBound : Option TypeExpr → String
  | none => ""
  | some bound => "(" ++ describe bound ++ ")"

end

end TypeExpr
end ClassLang
