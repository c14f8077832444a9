import ClassLang.Stage.Constants
import Mathlib.Data.Int.Bitwise
import Mathlib.Order.Compare

/-! Folding of integers against the integers themselves: an operation on 64 bits is evaluated
exactly when its result has 64 bits, and then gives that result. -/

namespace ClassLang

/-- The integer has 64 bits. -/
def Fits (value : Int) : Prop := -2 ^ 63 ≤ value ∧ value < 2 ^ 63

theorem fits_toInt (word : Int64) : Fits word.toInt := ⟨word.le_toInt, word.toInt_lt⟩

/-- Quotients have 64 bits, but for one. -/
theorem fits_tdiv (a b : Int64) (nonzero : b.toInt ≠ 0) :
    Fits (a.toInt.tdiv b.toInt) ↔ ¬(a.toInt = -2 ^ 63 ∧ b.toInt = -1) := by
  obtain ⟨low, high⟩ := fits_toInt a
  constructor
  · rintro ⟨_, above⟩ ⟨least, minus⟩
    rw [least, minus] at above
    exact absurd above (by decide)
  · intro other
    have shrinks := Int.natAbs_tdiv_le_natAbs a.toInt b.toInt
    have bounded : -2 ^ 63 ≤ a.toInt.tdiv b.toInt ∧ a.toInt.tdiv b.toInt ≤ 2 ^ 63 := by omega
    refine ⟨bounded.1, Int.not_le.mp fun large => other ?_⟩
    -- Only the least integer is as large as that, and only division by a unit leaves it so.
    have top := Int.le_antisymm bounded.2 large
    have least : a.toInt = -2 ^ 63 := by omega
    refine ⟨least, ?_⟩
    have split := Int.mul_tdiv_add_tmod a.toInt b.toInt
    have rest : (a.toInt.tmod b.toInt).natAbs < b.toInt.natAbs :=
      Int.natAbs_tmod _ _ ▸ Nat.mod_lt _ (Int.natAbs_pos.mpr nonzero)
    rw [top] at split
    omega

/-- Remainders have 64 bits. -/
theorem fits_tmod (a b : Int64) : Fits (a.toInt.tmod b.toInt) := by
  obtain ⟨low, high⟩ := fits_toInt a
  have shrinks : (a.toInt.tmod b.toInt).natAbs ≤ a.toInt.natAbs :=
    Int.natAbs_tmod _ _ ▸ Nat.mod_le _ _
  -- The remainder has the sign of the dividend.
  have sign : 0 ≤ a.toInt → 0 ≤ a.toInt.tmod b.toInt := Int.tmod_nonneg _
  have sign' : 0 ≤ -a.toInt → 0 ≤ -a.toInt.tmod b.toInt :=
    Int.neg_tmod a.toInt b.toInt ▸ Int.tmod_nonneg _
  constructor <;> omega

/-! Shifts by as many places as there are bits at most. -/

section
variable {b : Int64} (low : 0 ≤ b.toInt) (high : b.toInt < 64)
include low high

theorem smod_places : (b.toBitVec.smod 64).toNat = b.toInt.toNat := by
  have signed : (b.toBitVec.smod 64).toInt = b.toInt := by
    rw [BitVec.toInt_smod, Int64.toInt_toBitVec]
    exact Int.fmod_eq_of_lt low high
  have natural : (b.toBitVec.smod 64).toInt = (b.toBitVec.smod 64).toNat :=
    BitVec.toInt_eq_toNat_of_lt (by
      have := (b.toBitVec.smod 64).isLt
      rw [BitVec.toInt_eq_toNat_cond] at signed
      split at signed <;> omega)
  omega

theorem toInt_shiftLeft (a : Int64) : (a <<< b).toInt = (a.toInt * 2 ^ b.toInt.toNat).bmod
    (2 ^ 64) := by
  rw [← Int64.toInt_toBitVec, Int64.toBitVec_shiftLeft, BitVec.shiftLeft_eq', smod_places low high,
    BitVec.toInt_shiftLeft, Nat.shiftLeft_eq, ← Int64.toInt_toBitVec a,
      BitVec.toInt_eq_toNat_bmod a.toBitVec]
  push_cast
  rw [Int.bmod_mul_bmod]

theorem toInt_shiftRight (a : Int64) : (a >>> b).toInt = a.toInt / 2 ^ b.toInt.toNat := by
  rw [← Int64.toInt_toBitVec, Int64.toBitVec_shiftRight, BitVec.toInt_sshiftRight',
    smod_places low high, Int64.toInt_toBitVec, Int.shiftRight_eq_div_pow]
  push_cast
  rfl

/-- Shifting back recovers the operand exactly if no bit was lost. -/
theorem shiftRight_shiftLeft_iff (a : Int64) :
    (a <<< b) >>> b = a ↔ Fits (a.toInt * 2 ^ b.toInt.toNat) := by
  rw [← Int64.toInt_inj, toInt_shiftRight low high, toInt_shiftLeft low high]
  have positive : (0 : Int) < 2 ^ b.toInt.toNat := Int.pow_pos (by decide)
  constructor
  · intro recovered
    -- The shifted word is a multiple of the power, as it differs from the product by one of 2 ^ 64.
    have divides : (2 ^ b.toInt.toNat : Int) ∣ (a.toInt * 2 ^ b.toInt.toNat).bmod (2 ^ 64) := by
      have power : (2 ^ b.toInt.toNat : Int) ∣ 2 ^ 64 := pow_dvd_pow 2 (by omega)
      rw [Int.bmod_eq_self_sub_mul_bdiv]
      exact Int.dvd_sub (Int.dvd_mul_left _ _) (Int.dvd_mul_of_dvd_left (mod_cast power))
    have product := Int.ediv_mul_cancel divides
    rw [recovered] at product
    rw [product]
    have word := fits_toInt (a <<< b)
    rwa [toInt_shiftLeft low high] at word
  · rintro ⟨below, above⟩
    rw [Int.bmod_eq_of_le (by omega) (by omega)]
    exact Int.mul_ediv_cancel _ (Int.ne_of_gt positive)

end

/-- The bits of a signed word go on with its sign. -/
theorem testBit_toInt {width : Nat} (word : BitVec width) (place : Nat) :
    word.toInt.testBit place = if place < width then word.getLsbD place else word.msb := by
  have small := word.isLt
  rw [BitVec.toInt_eq_msb_cond]
  cases negative : word.msb with
  | false =>
    simp only [Bool.false_eq_true, if_false]
    change word.toNat.testBit place = _
    split
    · exact BitVec.testBit_toNat word
    · rw [BitVec.testBit_toNat, BitVec.getLsbD_of_ge _ _ (by omega)]
  | true =>
    have flipped : (word.toNat : Int) - (2 ^ width : Nat) = Int.negSucc
        (2 ^ width - (word.toNat + 1)) := by
      omega
    simp only [if_true, flipped]
    change (!(2 ^ width - (word.toNat + 1)).testBit place) = _
    rw [Nat.testBit_two_pow_sub_succ small, BitVec.testBit_toNat]
    split <;> simp [*]

namespace Literal

/-- An operation has a result exactly if it is defined, and the result is this integer. -/
structure Exact (result : Option Literal) (defined : Prop) (value : Int) : Prop where
  defined : result.isSome = true ↔ defined
  value : ∀ literal, result = some literal → ∃ word : Int64, literal = int word ∧ word.toInt = value

namespace Exact
variable {result : Option Literal} {defined other : Prop} {value : Int}

theorem congr (exact_ : Exact result defined value) (same : defined ↔ other) :
    Exact result other value :=
  ⟨exact_.defined.trans same, exact_.value⟩

theorem some {word : Int64} (same : word.toInt = value) (holds : defined) :
    Exact (some (int word)) defined value :=
  ⟨iff_of_true rfl holds, fun _ found => ⟨word, (Option.some.inj found).symm, same⟩⟩

theorem none (fails : ¬defined) : Exact none defined value :=
  ⟨iff_of_false nofun fails, nofun⟩

/-- Under a condition. -/
theorem ite {condition : Prop} [Decidable condition] {yes no : Option Literal}
    (holds : condition → Exact yes defined value) (fails : ¬condition → Exact no defined value) :
    Exact (if condition then yes else no) defined value := by
  split
  · exact holds ‹_›
  · exact fails ‹_›

end Exact

theorem checkedInt64_exact (value : Int) : Exact ((checkedInt64 value).map int)
    (Fits value) value := by
  unfold checkedInt64
  split
  · rename_i range
    have fits : Fits value := by unfold Fits; omega
    exact .some (Int64.toInt_ofInt_of_le fits.1 fits.2) fits
  · rename_i outside
    exact .none (by unfold Fits; omega)

theorem checkedInt64_isNone (value : Int) : (checkedInt64 value).isNone = true ↔ ¬Fits value := by
  rw [← (checkedInt64_exact value).defined]
  cases checkedInt64 value <;> simp

section
variable (a b : Int64)

theorem evalInt?_div :
    Exact (evalInt? .div a b) (b.toInt ≠ 0 ∧ ¬(a.toInt = -2 ^ 63 ∧ b.toInt = -1))
      (a.toInt.tdiv b.toInt) := by
  refine .ite (fun zero => .none ?_) fun nonzero => ?_
  · subst zero
    exact fun defined => defined.1 rfl
  · have divisor : b.toInt ≠ 0 := fun zero => nonzero (Int64.toInt_inj.mp zero)
    refine (checkedInt64_exact _).congr ?_
    rw [fits_tdiv a b divisor, and_iff_right divisor]

theorem evalInt?_mod :
    Exact (evalInt? .mod a b) (b.toInt ≠ 0 ∧ ¬(a.toInt = -2 ^ 63 ∧ b.toInt = -1))
      (a.toInt.tmod b.toInt) := by
  have zero_iff : b = 0 ↔ b.toInt = 0 := Int64.toInt_inj.symm
  refine .ite (fun fails => .none fun defined => ?_) fun defined => ?_
  · rcases fails with zero | overflow
    · exact defined.1 (zero_iff.mp zero)
    · exact (checkedInt64_isNone _).mp overflow ((fits_tdiv a b defined.1).mpr defined.2)
  · rw [not_or, zero_iff, checkedInt64_isNone, not_not] at defined
    refine (checkedInt64_exact _).congr (iff_of_true (fits_tmod a b) ⟨defined.1, ?_⟩)
    exact (fits_tdiv a b defined.1).mp defined.2

theorem evalInt?_shl :
    Exact (evalInt? .shl a b) ((0 ≤ b.toInt ∧ b.toInt < 64) ∧ Fits (a.toInt * 2 ^ b.toInt.toNat))
      (a.toInt * 2 ^ b.toInt.toNat) := by
  have low_iff : 0 ≤ b ↔ 0 ≤ b.toInt := Int64.le_iff_toInt_le
  have high_iff : b < 64 ↔ b.toInt < 64 := Int64.lt_iff_toInt_lt
  refine .ite (fun facts => ?_) fun unknown => .none fun defined => ?_
  · rw [low_iff, high_iff] at facts
    obtain ⟨low, high, recovered⟩ := facts
    have fits := (shiftRight_shiftLeft_iff low high a).mp recovered
    refine .some ?_ ⟨⟨low, high⟩, fits⟩
    rw [toInt_shiftLeft low high,
      Int.bmod_eq_of_le (by have := fits.1; omega) (by have := fits.2; omega)]
  · obtain ⟨⟨low, high⟩, fits⟩ := defined
    rw [low_iff, high_iff] at unknown
    exact unknown ⟨low, high, (shiftRight_shiftLeft_iff low high a).mpr fits⟩

theorem evalInt?_shr :
    Exact (evalInt? .shr a b) (0 ≤ b.toInt ∧ b.toInt < 64) (a.toInt.fdiv (2 ^ b.toInt.toNat)) := by
  have low_iff : 0 ≤ b ↔ 0 ≤ b.toInt := Int64.le_iff_toInt_le
  have high_iff : b < 64 ↔ b.toInt < 64 := Int64.lt_iff_toInt_lt
  refine .ite (fun facts => ?_) fun unknown => .none ?_
  · rw [low_iff, high_iff] at facts
    refine .some ?_ facts
    rw [toInt_shiftRight facts.1 facts.2, Int.fdiv_eq_ediv_of_nonneg _ (Int.pow_nonneg (by decide))]
  · rwa [← low_iff, ← high_iff]

/-- The comparisons agree with the order of the integers. -/
theorem compareBy_compare (a b : Int) :
    compareBy .eq (compare a b) = decide (a = b) ∧ compareBy .notEq (compare a b) = decide (a ≠ b) ∧
    compareBy .lt (compare a b) = decide (a < b) ∧ compareBy .ltEq (compare a b) = decide (a ≤ b) ∧
    compareBy .gt (compare a b) = decide (b < a) ∧
    compareBy .gtEq (compare a b) = decide (b ≤ a) := by
  have yes {holds : Prop} [Decidable holds] (promised : holds) : true = decide holds :=
    (decide_eq_true promised).symm
  have no {holds : Prop} [Decidable holds] (refuted : ¬holds) : false = decide holds :=
    (decide_eq_false refuted).symm
  rcases Int.lt_trichotomy a b with less | same | more
  · rw [Int.compare_eq_lt.mpr less]
    exact ⟨no (by omega), yes (by omega), yes less, yes (by omega), no (by omega), no (by omega)⟩
  · rw [Int.compare_eq_eq.mpr same]
    exact ⟨yes same, no (by omega), no (by omega), yes (by omega), no (by omega), yes (by omega)⟩
  · rw [Int.compare_eq_gt.mpr more]
    exact ⟨no (by omega), yes (by omega), no (by omega), no (by omega), yes more, yes (by omega)⟩

/-- The signed word has the bits that an operation puts together place by place. -/
theorem testBit_bitwise (place : Nat) :
    (a &&& b).toInt.testBit place = (a.toInt.testBit place && b.toInt.testBit place) ∧
    (a ||| b).toInt.testBit place = (a.toInt.testBit place || b.toInt.testBit place) ∧
    (a ^^^ b).toInt.testBit place = (a.toInt.testBit place ^^ b.toInt.testBit place) := by
  simp only [← Int64.toInt_toBitVec, testBit_toInt]
  split <;> simp

/-- Integer operations are folded exactly. Sums, differences and products are folded when they have
64 bits; quotients, truncated, and remainders, with the sign of the dividend, unless the divisor is
zero or the quotient needs one bit more; a shift to the left by 0 to 63 places when no bit is lost,
a shift to the right always, rounding down; operations on bits and comparisons always. -/
theorem integer_folding_exact :
    Exact (evalBinary? .add (int a) (int b)) (Fits (a.toInt + b.toInt)) (a.toInt + b.toInt) ∧
    Exact (evalBinary? .sub (int a) (int b)) (Fits (a.toInt - b.toInt)) (a.toInt - b.toInt) ∧
    Exact (evalBinary? .mul (int a) (int b)) (Fits (a.toInt * b.toInt)) (a.toInt * b.toInt) ∧
    Exact (evalBinary? .div (int a) (int b)) (b.toInt ≠ 0 ∧ ¬(a.toInt = -2 ^ 63 ∧ b.toInt = -1))
      (a.toInt.tdiv b.toInt) ∧
    Exact (evalBinary? .mod (int a) (int b)) (b.toInt ≠ 0 ∧ ¬(a.toInt = -2 ^ 63 ∧ b.toInt = -1))
      (a.toInt.tmod b.toInt) ∧
    Exact (evalBinary? .shl (int a) (int b))
      ((0 ≤ b.toInt ∧ b.toInt < 64) ∧ Fits (a.toInt * 2 ^ b.toInt.toNat))
      (a.toInt * 2 ^ b.toInt.toNat) ∧
    Exact (evalBinary? .shr (int a) (int b)) (0 ≤ b.toInt ∧ b.toInt < 64)
      (a.toInt.fdiv (2 ^ b.toInt.toNat)) ∧
    (∃ word : Int64, evalBinary? .bitAnd (int a) (int b) = some (int word) ∧
      ∀ place, word.toInt.testBit place = (a.toInt.testBit place && b.toInt.testBit place)) ∧
    (∃ word : Int64, evalBinary? .bitOr (int a) (int b) = some (int word) ∧
      ∀ place, word.toInt.testBit place = (a.toInt.testBit place || b.toInt.testBit place)) ∧
    (∃ word : Int64, evalBinary? .bitXor (int a) (int b) = some (int word) ∧
      ∀ place, word.toInt.testBit place = (a.toInt.testBit place ^^ b.toInt.testBit place)) ∧
    evalBinary? .eq (int a) (int b) = some (bool (decide (a.toInt = b.toInt))) ∧
    evalBinary? .notEq (int a) (int b) = some (bool (decide (a.toInt ≠ b.toInt))) ∧
    evalBinary? .lt (int a) (int b) = some (bool (decide (a.toInt < b.toInt))) ∧
    evalBinary? .ltEq (int a) (int b) = some (bool (decide (a.toInt ≤ b.toInt))) ∧
    evalBinary? .gt (int a) (int b) = some (bool (decide (b.toInt < a.toInt))) ∧
    evalBinary? .gtEq (int a) (int b) = some (bool (decide (b.toInt ≤ a.toInt))) ∧
    Exact (evalUnary? .neg (int a)) (a.toInt ≠ -2 ^ 63) (-a.toInt) ∧
    Exact (evalUnary? .bitNot (int a)) True (-a.toInt - 1) := by
  obtain ⟨eq, notEq, lt, ltEq, gt, gtEq⟩ := compareBy_compare a.toInt b.toInt
  have comparison {op : BinaryOp} {holds : Bool}
      (same : compareBy op (compare a.toInt b.toInt) = holds) :
      some (bool (compareBy op (compare a.toInt b.toInt))) = some (bool holds) := by rw [same]
  refine ⟨checkedInt64_exact _, checkedInt64_exact _, checkedInt64_exact _, evalInt?_div a b,
    evalInt?_mod a b, evalInt?_shl a b, evalInt?_shr a b, ?_, ?_, ?_, comparison eq,
      comparison notEq,
    comparison lt, comparison ltEq, comparison gt, comparison gtEq, ?_, ?_⟩
  · exact ⟨a &&& b, rfl, fun place => (testBit_bitwise a b place).1⟩
  · exact ⟨a ||| b, rfl, fun place => (testBit_bitwise a b place).2.1⟩
  · exact ⟨a ^^^ b, rfl, fun place => (testBit_bitwise a b place).2.2⟩
  · have range := fits_toInt a
    exact (checkedInt64_exact _).congr (by unfold Fits at range ⊢; omega)
  · refine .some ?_ trivial
    have range := fits_toInt a
    rw [Int64.toInt_not, Int.bmod_eq_of_le] <;> unfold Fits at range <;> omega

end
end Literal
end ClassLang
