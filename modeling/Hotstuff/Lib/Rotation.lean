import Mathlib.Algebra.Order.BigOperators.Group.Finset
import Mathlib.Data.Nat.Periodic

/-! Turns that rotate: who is bad is bad again after one full rotation. -/
namespace Rotation

open Finset

variable {bad : Nat → Prop} [DecidablePred bad] {period length : Nat}

theorem card_window (periodic : Function.Periodic bad period) (start : Nat) :
    #{k ∈ range period | bad (start + k)} = period.count bad := by
  rw [← Nat.filter_Ico_card_eq_of_periodic start period bad periodic]
  apply card_nbij (start + ·)
  · intro k hk
    simp only [coe_filter, mem_range, Set.mem_ofPred_eq, mem_Ico] at hk ⊢
    exact ⟨⟨by omega, by omega⟩, hk.2⟩
  · exact fun _ _ _ _ same => Nat.add_left_cancel same
  · intro x hx
    simp only [coe_filter, mem_Ico, Set.mem_ofPred_eq] at hx
    refine ⟨x - start, ?_, by simp only; omega⟩
    simp only [coe_filter, mem_range, Set.mem_ofPred_eq]
    exact ⟨by omega, by rw [Nat.add_sub_cancel' hx.1.1]; exact hx.2⟩

/-- Each bad turn spoils as many starts as the run is long. If that leaves a start over, a run
of good turns begins within one rotation, wherever one begins to look. -/
theorem exists_run (periodic : Function.Periodic bad period)
    (few : length * period.count bad < period) (start : Nat) :
    ∃ k < period, ∀ j < length, ¬ bad (start + k + j) := by
  by_contra none
  push Not at none
  have covered : range period ⊆
      (range length).biUnion fun j => {k ∈ range period | bad (start + j + k)} := by
    intro k hk
    obtain ⟨j, short, spoiled⟩ := none k (mem_range.mp hk)
    simp only [mem_biUnion, mem_filter, mem_range]
    exact ⟨j, short, mem_range.mp hk, by rwa [Nat.add_right_comm]⟩
  have count : period ≤ length * period.count bad := calc
    period = #(range period) := (card_range period).symm
    _ ≤ #((range length).biUnion fun j => {k ∈ range period | bad (start + j + k)}) :=
      card_le_card covered
    _ ≤ ∑ j ∈ range length, #{k ∈ range period | bad (start + j + k)} := card_biUnion_le
    _ = ∑ _j ∈ range length, period.count bad :=
      sum_congr rfl fun j _ => card_window periodic (start + j)
    _ = length * period.count bad := by rw [sum_const, card_range, smul_eq_mul]
  omega

end Rotation
