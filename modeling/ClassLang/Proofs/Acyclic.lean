import Mathlib.Data.Finset.Card
import Mathlib.Data.Finset.Range
import Mathlib.Logic.Relation

/-! Acyclic graphs. A node of a finite graph without cycles has a rank below the number of nodes
that every edge lowers, so a walk that counts its steps by the number of nodes reaches its end. -/

namespace ClassLang
open Relation

variable {α : Type}

/-- No path leads from a node back to it. -/
def Acyclic (edge : α → α → Prop) : Prop := ∀ node, ¬ TransGen edge node node

namespace Acyclic
variable {edge : α → α → Prop}

/-- A measure that every edge lowers excludes cycles. -/
theorem of_measure (measure : α → Nat)
    (lowers : ∀ source target, edge source target → measure target < measure source) :
    Acyclic edge := by
  have along : ∀ {source target}, TransGen edge source target →
      measure target < measure source := by
    intro source target path
    induction path with
    | single step => exact lowers _ _ step
    | tail _ step ih => exact (lowers _ _ step).trans ih
  exact fun node cycle => Nat.lt_irrefl _ (along cycle)

open Classical in
/-- The number of nodes that can be reached is lowered by every edge. -/
theorem exists_rank (acyclic : Acyclic edge) (nodes : Finset α)
    (inside : ∀ source target, edge source target → target ∈ nodes) :
    ∃ rank : α → Nat, (∀ node ∈ nodes, rank node < nodes.card) ∧
      ∀ source target, edge source target → rank target < rank source := by
  let reached (node : α) : Finset α := nodes.filter (TransGen edge node)
  refine ⟨fun node => (reached node).card, ?_, ?_⟩
  · intro node member
    refine Finset.card_lt_card ⟨Finset.filter_subset _ _, fun whole => ?_⟩
    exact acyclic node (Finset.mem_filter.mp (whole member)).2
  · intro source target step
    refine Finset.card_lt_card ⟨fun node member => ?_, fun back => ?_⟩
    · obtain ⟨present, path⟩ := Finset.mem_filter.mp member
      exact Finset.mem_filter.mpr ⟨present, .head step path⟩
    · have self : target ∈ reached target :=
        back (Finset.mem_filter.mpr ⟨inside _ _ step, .single step⟩)
      exact acyclic target (Finset.mem_filter.mp self).2

/-- `exists_rank` for graphs on the positions of an array. -/
theorem exists_rank_below {edge : Nat → Nat → Prop} (acyclic : Acyclic edge) {size : Nat}
    (inside : ∀ source target, edge source target → target < size) :
    ∃ rank : Nat → Nat, (∀ node < size, rank node < size) ∧
      ∀ source target, edge source target → rank target < rank source := by
  obtain ⟨rank, bounded, lowers⟩ :=
    acyclic.exists_rank (Finset.range size) fun source target step =>
    Finset.mem_range.mpr (inside source target step)
  refine ⟨rank, fun node below => ?_, lowers⟩
  simpa using bounded node (Finset.mem_range.mpr below)

end Acyclic
end ClassLang
