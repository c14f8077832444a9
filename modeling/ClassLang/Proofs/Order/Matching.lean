import ClassLang.Name
import Mathlib.Logic.Equiv.Defs
import Mathlib.Algebra.BigOperators.Group.List.Basic
import Mathlib.Order.Monotone.Basic

/-! Numbers that are paired with numbers, and the renaming that carries each to its partner. -/

namespace ClassLang

/-- Pairs of numbers below a size, of which either determines the other. -/
structure Matching (size : Nat) (pairs : Nat → Nat → Prop) : Prop where
  inside : ∀ first second, pairs first second → first < size ∧ second < size
  right : ∀ first second second', pairs first second → pairs first second' → second = second'
  left : ∀ first first' second, pairs first second → pairs first' second → first = first'

namespace Matching

variable {size : Nat} {pairs : Nat → Nat → Prop}

theorem swap (matching : Matching size pairs) : Matching size fun first second =>
  pairs second first where
  inside first second paired := (matching.inside second first paired).symm
  right first second second' := matching.left second second' first
  left first first' second := matching.right second first first'

open Classical in
/-- The partner of a number. A number without one goes beyond the size, and what stands beyond it
comes back to the numbers that are nobody's partner. -/
noncomputable def image (size : Nat) (pairs : Nat → Nat → Prop) (number : Nat) : Nat :=
  if number < size then
    if paired : ∃ second, pairs number second then paired.choose else size + number
  else if number < size + size then
    if paired : ∃ first, pairs first (number - size) then size + paired.choose else number - size
  else number

variable (matching : Matching size pairs) {number second : Nat}
include matching

theorem image_of_pair (paired : pairs number second) : image size pairs number = second := by
  have some_ : ∃ second, pairs number second := ⟨second, paired⟩
  unfold image
  rw [if_pos (matching.inside _ _ paired).1, dif_pos some_]
  exact matching.right _ _ _ some_.choose_spec paired

theorem image_beyond_of_pair (paired : pairs number second) :
    image size pairs (size + second) = size + number := by
  have some_ : ∃ first, pairs first (size + second - size) :=
    ⟨number, by rwa [Nat.add_sub_cancel_left]⟩
  have inside := (matching.inside _ _ paired).2
  unfold image
  rw [if_neg (by omega), if_pos (by omega), dif_pos some_]
  have chosen : pairs some_.choose second := by
    have holds := some_.choose_spec
    generalize some_.choose = first at holds
    rwa [Nat.add_sub_cancel_left] at holds
  rw [matching.left _ _ _ chosen paired]

omit matching in
theorem image_alone (inside : number < size) (alone : ∀ second, ¬ pairs number second) :
    image size pairs number = size + number := by
  unfold image
  rw [if_pos inside, dif_neg (not_exists.mpr alone)]

omit matching in
theorem image_beyond_alone (inside : number < size) (alone : ∀ first, ¬ pairs first number) :
    image size pairs (size + number) = number := by
  unfold image
  rw [if_neg (by omega), if_pos (by omega), dif_neg]
  · exact Nat.add_sub_cancel_left _ _
  · rw [Nat.add_sub_cancel_left]
    exact not_exists.mpr alone

omit matching in
theorem image_outside (outside : size + size ≤ number) : image size pairs number = number := by
  unfold image
  rw [if_neg (by omega), if_neg (by omega)]

theorem image_image (number : Nat) :
    image size (fun first second => pairs second first) (image size pairs number) = number := by
  by_cases inside : number < size
  · by_cases paired : ∃ second, pairs number second
    · obtain ⟨second, paired⟩ := paired
      rw [matching.image_of_pair paired, matching.swap.image_of_pair paired]
    · rw [image_alone inside (not_exists.mp paired),
        image_beyond_alone inside (not_exists.mp paired)]
  · by_cases near : number < size + size
    · obtain ⟨offset, rfl⟩ := Nat.exists_eq_add_of_le (Nat.not_lt.mp inside)
      have offsetInside : offset < size := by omega
      by_cases paired : ∃ first, pairs first offset
      · obtain ⟨first, paired⟩ := paired
        rw [matching.image_beyond_of_pair paired, matching.swap.image_beyond_of_pair paired]
      · rw [image_beyond_alone offsetInside (not_exists.mp paired),
          image_alone offsetInside (not_exists.mp paired)]
    · rw [image_outside (Nat.not_lt.mp near), image_outside (Nat.not_lt.mp near)]

/-- The pairs are part of a renaming of all numbers that pairs no others below the size. -/
theorem exists_equiv : ∃ carry : Nat ≃ Nat,
    (∀ first second, pairs first second → carry first = second) ∧
    ∀ number, number < size → carry number < size → pairs number (carry number) := by
  let carry : Nat ≃ Nat :=
    { toFun := image size pairs
      invFun := image size fun first second => pairs second first
      left_inv := matching.image_image
      right_inv := matching.swap.image_image }
  refine ⟨carry, fun _ _ => matching.image_of_pair, fun number inside stays => ?_⟩
  by_cases paired : ∃ second, pairs number second
  · obtain ⟨second, paired⟩ := paired
    change pairs number (image size pairs number)
    rwa [matching.image_of_pair paired]
  · have beyond := image_alone inside (not_exists.mp paired)
    change image size pairs number < size at stays
    omega

end Matching

/-! Blocks of numbers, one behind the other. -/

/-- The first number of a block. -/
def blockStart (sizes : List Nat) (block : Nat) : Nat := (sizes.take block).sum

/-- The number stands at an offset in a block. -/
def InBlock (sizes : List Nat) (block offset number : Nat) : Prop :=
  offset < sizes.getD block 0 ∧ number = blockStart sizes block + offset

section
variable {sizes sizes' : List Nat} {block other offset offset' number : Nat}

theorem blockStart_succ : ∀ (sizes : List Nat) (block : Nat),
    blockStart sizes (block + 1) = blockStart sizes block + sizes.getD block 0
  | [], block => by simp [blockStart]
  | size :: rest, 0 => by simp [blockStart]
  | size :: rest, block + 1 => by
    have later := blockStart_succ rest block
    simp only [blockStart, List.take_succ_cons, List.sum_cons, List.getD_cons_succ] at later ⊢
    omega

theorem blockStart_mono (sizes : List Nat) : Monotone (blockStart sizes) := by
  apply monotone_nat_of_le_succ
  intro block
  rw [blockStart_succ]
  exact Nat.le_add_right _ _

theorem blockStart_le_sum (sizes : List Nat) (block : Nat) :
    blockStart sizes block ≤ sizes.sum := by
  rw [← List.sum_take_add_sum_drop sizes block]
  exact Nat.le_add_right _ _

namespace InBlock

theorem lt_start (inside : InBlock sizes block offset number) (before : block < other) :
    number < blockStart sizes other := by
  apply Nat.lt_of_lt_of_le _ (blockStart_mono sizes before)
  rw [inside.2, blockStart_succ]
  exact Nat.add_lt_add_left inside.1 _

theorem lt_sum (inside : InBlock sizes block offset number) : number < sizes.sum :=
  Nat.lt_of_lt_of_le (inside.lt_start (Nat.lt_succ_self block)) (blockStart_le_sum sizes _)

/-- No number stands in two blocks. -/
theorem unique (earlier : InBlock sizes block offset number)
    (later : InBlock sizes other offset' number) : block = other ∧ offset = offset' := by
  have same : block = other := by
    rcases Nat.lt_trichotomy block other with before | same | behind
    · have apart := earlier.lt_start before
      rw [later.2] at apart
      omega
    · exact same
    · have apart := later.lt_start behind
      rw [earlier.2] at apart
      omega
  subst same
  exact ⟨rfl, Nat.add_left_cancel (earlier.2.symm.trans later.2)⟩

end InBlock

theorem exists_inBlock : ∀ {sizes : List Nat} {number : Nat}, number < sizes.sum →
    ∃ block offset, InBlock sizes block offset number
  | [], _, inside => absurd inside (Nat.not_lt_zero _)
  | size :: rest, number, inside => by
    by_cases bound : number < size
    · exact ⟨0, number, bound, (Nat.zero_add number).symm⟩
    · rw [List.sum_cons] at inside
      have later : number - size < rest.sum := by omega
      obtain ⟨block, offset, below, same⟩ := exists_inBlock later
      refine ⟨block + 1, offset, below, ?_⟩
      have first : blockStart (size :: rest) (block + 1) = size + blockStart rest block := by
        simp [blockStart]
      omega

/-- Blocks that change places with all their numbers. -/
theorem exists_blockwise {units : Nat ≃ Nat}
    (same : ∀ block, sizes'.getD (units block) 0 = sizes.getD block 0) :
    ∃ carry : Nat ≃ Nat,
      (∀ block, ∀ offset < sizes.getD block 0,
        carry (blockStart sizes block + offset) = blockStart sizes' (units block) + offset) ∧
      ∀ number, sizes.sum ≤ number → sizes'.sum ≤ carry number := by
  let pairs (number number' : Nat) : Prop :=
    ∃ block offset, InBlock sizes block offset number ∧ InBlock sizes' (units block) offset number'
  have matching : Matching (max sizes.sum sizes'.sum) pairs := by
    constructor
    case inside =>
      rintro number number' ⟨block, offset, inBlock, there⟩
      exact ⟨Nat.lt_of_lt_of_le inBlock.lt_sum (Nat.le_max_left _ _),
        Nat.lt_of_lt_of_le there.lt_sum (Nat.le_max_right _ _)⟩
    case right =>
      rintro number first second ⟨block, offset, inBlock, there⟩ ⟨other, offset', here', there'⟩
      obtain ⟨rfl, rfl⟩ := inBlock.unique here'
      exact there.2.trans there'.2.symm
    case left =>
      rintro first second number ⟨block, offset, inBlock, there⟩ ⟨other, offset', here', there'⟩
      obtain ⟨moved, rfl⟩ := there.unique there'
      cases units.injective moved
      exact inBlock.2.trans here'.2.symm
  obtain ⟨carry, carried, -⟩ := matching.exists_equiv
  refine ⟨carry, ?_, ?_⟩
  · intro block offset inside
    apply carried
    exact ⟨block, offset, ⟨inside, rfl⟩, (same block).symm ▸ inside, rfl⟩
  · -- A number that went to a block would be in the block that went there.
    intro number outside
    by_contra inside
    obtain ⟨block, offset, there⟩ := exists_inBlock (Nat.not_le.mp inside)
    obtain ⟨origin, rfl⟩ := units.surjective block
    have inBlock : InBlock sizes origin offset (blockStart sizes origin + offset) :=
      ⟨same origin ▸ there.1, rfl⟩
    have met := carried _ _ ⟨origin, offset, inBlock, there⟩
    have same := carry.injective met
    have below := inBlock.lt_sum
    omega

end

end ClassLang
