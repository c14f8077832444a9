/-! The decimal text of a float: the fewest digits that read back as the same number, the nearest
of them when several do, written out without an exponent. All arithmetic is exact. -/

namespace ClassLang

/-- A positive number `mantissa * 2 ^ exponent` of the 64-bit float format. -/
structure Binary where
  mantissa : Nat
  exponent : Int
  /-- The next smaller float is half as far away as the next larger one. -/
  closeBelow : Bool
deriving Repr, DecidableEq, Inhabited

namespace Binary

/-- The number with a biased exponent and fraction as they are stored; not for the largest
exponent, which stands for no finite number. -/
def ofFields (biased fraction : Nat) : Binary where
  mantissa := if biased = 0 then fraction else fraction + Nat.pow 2 52
  exponent := (max biased 1 : Nat) - 1075
  closeBelow := decide (fraction = 0 ∧ 1 < biased)

/-- The number and the ends of the interval that rounds to it, as multiples of a common unit: a
quarter of the distance to the next larger float. -/
def quarters (value : Binary) : Nat × Nat × Nat :=
  let center := 4 * value.mantissa
  (if value.closeBelow then center - 1 else center - 2, center, center + 2)

/-- `base ^ n` as a fraction: above the line for positive `n`, below it for negative `n`. -/
def scale (base : Nat) (n : Int) : Nat × Nat := (base.pow n.toNat, base.pow (-n).toNat)

end Binary

/-- The number `digits * 10 ^ exponent`. -/
structure Decimal where
  digits : Nat
  exponent : Int
deriving Repr, DecidableEq, Inhabited

namespace Decimal

/-- A multiple of `10 ^ exponent` that rounds to `value`, if there is one; the nearest of two, and
the even one when both are equally near. The ends of the interval round to an even mantissa. -/
def onGrid? (value : Binary) (exponent : Int) : Option Decimal :=
  let (above, below) := Binary.scale 2 (value.exponent - 2)
  let (up, down) := Binary.scale 10 exponent
  let (least, center, greatest) := value.quarters
  let scaled (quarters : Nat) := quarters * above * down
  let step := up * below
  let even := value.mantissa % 2 == 0
  let digits := scaled center / step
  let lower := scaled least < digits * step || (even && scaled least == digits * step)
  let upper := (digits + 1) * step < scaled greatest
    || (even && (digits + 1) * step == scaled greatest)
  let rest := 2 * (scaled center - digits * step)
  let preferLower := rest < step || (rest == step && digits % 2 == 0)
  if lower && (preferLower || !upper) then some ⟨digits, exponent⟩
  else if upper then some ⟨digits + 1, exponent⟩
  else none

/-- The first hit on the grids `10 ^ exponent`, `10 ^ (exponent - 1)` and so on. -/
def coarsest? (value : Binary) : Nat → Int → Option Decimal
  | 0, _ => none
  | grids + 1, exponent =>
    match onGrid? value exponent with
    | some decimal => some decimal
    | none => coarsest? value grids (exponent - 1)

/-- The decimal with the fewest digits that rounds to `value`: every float lies between the grids
searched. -/
def shortest (value : Binary) : Decimal := (coarsest? value 700 309).getD ⟨0, 0⟩

/-- The number written out, with a point only before digits that follow it. -/
def render (decimal : Decimal) : String :=
  let digits := Nat.toDigits 10 decimal.digits
  if 0 ≤ decimal.exponent then
    String.ofList (digits ++ List.replicate decimal.exponent.toNat '0')
  else
    let places := (-decimal.exponent).toNat
    let padded := List.replicate (places + 1 - digits.length) '0' ++ digits
    let whole := padded.length - places
    String.ofList (padded.take whole ++ '.' :: padded.drop whole)

end Decimal

/-- The decimal text of a float, given its bits. -/
def decimalText (bits : UInt64) : String :=
  let sign := if bits.toNat / Nat.pow 2 63 = 0 then "" else "-"
  let biased := bits.toNat / Nat.pow 2 52 % Nat.pow 2 11
  let fraction := bits.toNat % Nat.pow 2 52
  if biased = 2047 then if fraction = 0 then sign ++ "inf" else "NaN"
  else if biased = 0 ∧ fraction = 0 then sign ++ "0"
  else sign ++ (Decimal.shortest (.ofFields biased fraction)).render

end ClassLang
