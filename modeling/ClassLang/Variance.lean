/-! Variance of type parameters and of wildcards. -/

namespace ClassLang

inductive Variance where
  | invariant
  | covariant
  | contravariant
deriving Repr, DecidableEq, Inhabited

namespace Variance

def flip : Variance → Variance
  | invariant => invariant
  | covariant => contravariant
  | contravariant => covariant

/-- The variance `inner` has when seen through a position of variance `outer`. -/
def compose (inner outer : Variance) : Variance :=
  match outer, inner with
  | invariant, _ => invariant
  | _, invariant => invariant
  | covariant, v => v
  | contravariant, v => v.flip

def render : Variance → String
  | invariant => "invariant"
  | covariant => "covariant"
  | contravariant => "contravariant"

/-- The keyword form used where a variance is written down. -/
def keyword : Variance → String
  | invariant => "inv"
  | covariant => "out"
  | contravariant => "in"

def ofKeyword? : String → Option Variance
  | "inv" => some invariant
  | "out" => some covariant
  | "in" => some contravariant
  | _ => none

end Variance
end ClassLang
