import ClassLang.Name
import ClassLang.Source.Decimal

/-! Literal values and the operators on them. -/

namespace ClassLang

/-- A literal. Integers have 64 bits; a float is kept as its bits, so two literals are equal
exactly when they are written alike. -/
inductive Literal where
  | int (value : Int64)
  | float (bits : UInt64)
  | bool (value : Bool)
  | char (value : Char)
  | str (value : Name)
deriving Repr, DecidableEq, Inhabited

namespace Literal

/-- Whether the bits are those of a not-a-number: all exponent bits and some fraction bit set. -/
def isNaNBits (bits : UInt64) : Bool :=
  decide (0x7ff0000000000000 < bits &&& 0x7fffffffffffffff)

/-- Sixteen lower-case hexadecimal digits. -/
def hex64 (bits : UInt64) : String :=
  String.ofList ((List.range 16).map fun position =>
    Nat.digitChar ((bits.toNat >>> (4 * (15 - position))) % 16))

/-- Read hexadecimal digits as `hex64` writes them. -/
def ofHex64 (text : String) : UInt64 :=
  text.toList.foldl (fun bits digit =>
    bits * 16 + (if digit.isDigit then digit.toNat - 48 else digit.toNat - 87).toUInt64) 0

/-- The literal with its kind, for inspection. -/
def describe : Literal → String
  | int value => "int:" ++ toString value.toInt
  | float bits => "float:" ++ if isNaNBits bits then "nan" else hex64 bits
  | bool value => "bool:" ++ if value then "true" else "false"
  | char value => "char:" ++ String.singleton value
  | str value => "str:" ++ value

/-- The literal as it is written. -/
def render : Literal → String
  | int value => toString value.toInt
  | float bits => decimalText bits
  | bool value => if value then "true" else "false"
  | char value => "'" ++ String.singleton value ++ "'"
  | str value => "\"" ++ value ++ "\""

end Literal

inductive BinaryOp where
  | add | sub | mul | div | mod
  | eq | notEq | lt | ltEq | gt | gtEq
  | and | or
  | bitAnd | bitOr | bitXor | shl | shr
deriving Repr, DecidableEq, Inhabited

namespace BinaryOp

def symbol : BinaryOp → String
  | add => "+" | sub => "-" | mul => "*" | div => "/" | mod => "%"
  | eq => "==" | notEq => "!=" | lt => "<" | ltEq => "<=" | gt => ">" | gtEq => ">="
  | and => "&&" | or => "||"
  | bitAnd => "&" | bitOr => "|" | bitXor => "^" | shl => "<<" | shr => ">>"

def all : List BinaryOp :=
  [add, sub, mul, div, mod, eq, notEq, lt, ltEq, gt, gtEq, and, or, bitAnd, bitOr, bitXor, shl, shr]

def ofSymbol? (text : String) : Option BinaryOp :=
  all.find? (·.symbol == text)

def isComparison : BinaryOp → Bool
  | eq | notEq | lt | ltEq | gt | gtEq => true
  | _ => false

def isLogical : BinaryOp → Bool
  | and | or => true
  | _ => false

/-- Operators defined on integers only. -/
def isBitwise : BinaryOp → Bool
  | bitAnd | bitOr | bitXor | shl | shr => true
  | _ => false

end BinaryOp

inductive UnaryOp where
  | neg | not | bitNot
deriving Repr, DecidableEq, Inhabited

namespace UnaryOp

def symbol : UnaryOp → String
  | neg => "-" | not => "!" | bitNot => "~"

def word : UnaryOp → String
  | neg => "neg" | not => "not" | bitNot => "bitnot"

def ofSymbol? (text : String) : Option UnaryOp :=
  [neg, not, bitNot].find? (·.symbol == text)

end UnaryOp
end ClassLang
