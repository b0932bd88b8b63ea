import Mathlib.Data.Finset.Card
import Mathlib.Data.Finset.Range
import Mathlib.Order.UpperLower.Basic
import Mathlib.Tactic.Common

/-!
# Initial segments of the natural numbers

A finite set of natural numbers is counted by its cardinality, and bounded by
its largest element.  The two agree exactly for the initial segments:
`isLowerSet_iff_lt_card`.
-/

namespace InitialSegment

/-- A finite set without holes is the range of its cardinality. -/
theorem eq_range_of_lt_card {S : Finset Nat} (h : ∀ p ∈ S, p < S.card) :
    S = Finset.range S.card := by
  refine Finset.eq_of_subset_of_card_le (fun p hp => Finset.mem_range.mpr (h p hp)) ?_
  rw [Finset.card_range]

/-- The elements of a finite set are below its cardinality if and only if the
set has no holes. -/
theorem isLowerSet_iff_lt_card (S : Finset Nat) :
    IsLowerSet {p | p ∈ S} ↔ ∀ p ∈ S, p < S.card := by
  constructor
  · intro hlower p hp
    have hsub : Finset.range (p + 1) ⊆ S := by
      intro q hq
      exact hlower (Nat.lt_succ_iff.mp (Finset.mem_range.mp hq)) hp
    have hcard := Finset.card_le_card hsub
    rw [Finset.card_range] at hcard
    exact hcard
  · intro hlt p q hqp hp
    rw [Set.mem_ofPred_eq, eq_range_of_lt_card hlt, Finset.mem_range] at hp ⊢
    exact Nat.lt_of_le_of_lt hqp hp

end InitialSegment
