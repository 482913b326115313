import Mathlib.Algebra.BigOperators.Group.Finset.Basic
import Mathlib.Algebra.Order.BigOperators.Group.Finset
import Mathlib.Algebra.Order.Ring.Nat

/-!
# Cumulative tables

Bins with weights, and the levels that the sums of their weights reach on a scale from -1 to one
less than its length. The first bin whose level is not below a draw is one that has a weight.
-/

namespace Switcheck.Sync.Cumulative

open Finset

/-- The weight of the first `k` bins. -/
def upTo (weight : Nat → Nat) (k : Nat) : Nat := ∑ i ∈ range k, weight i

/-- The level after `k` of `n` bins. -/
def level (weight : Nat → Nat) (n scale k : Nat) : Int :=
  ((upTo weight k * scale / upTo weight n : Nat) : Int) - 1

variable {weight : Nat → Nat} {n scale k l : Nat} {v : Int}

theorem upTo_succ (weight : Nat → Nat) (k : Nat) :
    upTo weight (k + 1) = upTo weight k + weight k := sum_range_succ weight k

theorem upTo_mono (le : k ≤ l) : upTo weight k ≤ upTo weight l :=
  sum_le_sum_of_subset (range_mono le)

theorem upTo_le {bound : Nat} (each : ∀ i, weight i ≤ bound) (k : Nat) :
    upTo weight k ≤ k * bound := by
  have total := sum_le_card_nsmul (range k) weight bound fun i _ => each i
  rwa [card_range, nsmul_eq_mul] at total

theorem level_zero : level weight n scale 0 = -1 := by
  simp [level, upTo]

theorem level_mono (le : k ≤ l) : level weight n scale k ≤ level weight n scale l := by
  have quotients : upTo weight k * scale / upTo weight n ≤ upTo weight l * scale / upTo weight n :=
    Nat.div_le_div_right (Nat.mul_le_mul_right scale (upTo_mono le))
  unfold level
  omega

theorem level_top (some : 0 < upTo weight n) : level weight n scale n = scale - 1 := by
  rw [level, Nat.mul_div_cancel_left scale some]

/-- The bin that a draw finds. -/
theorem level_draw (some : 0 < upTo weight n) (low : 0 ≤ v) (high : v < scale)
    (least : IsLeast {k | k < n → v ≤ level weight n scale (k + 1)} k) :
    k < n ∧ 0 < weight k ∧ level weight n scale k < v ∧ v ≤ level weight n scale (k + 1) := by
  obtain ⟨reached, first⟩ := least
  have bins : n ≠ 0 := by
    rintro rfl
    exact absurd some (Nat.lt_irrefl 0)
  have inside : k < n := by
    have last : n - 1 ∈ {k | k < n → v ≤ level weight n scale (k + 1)} := by
      intro _
      rw [Nat.sub_add_cancel (Nat.pos_of_ne_zero bins), level_top some]
      omega
    have le := first last
    omega
  have below : level weight n scale k < v := by
    cases k with
    | zero =>
      rw [level_zero]
      omega
    | succ k =>
      by_contra not
      have le := first fun _ => not_lt.mp not
      omega
  refine ⟨inside, Nat.pos_of_ne_zero fun none => ?_, below, reached inside⟩
  have same : level weight n scale (k + 1) = level weight n scale k := by
    rw [level, upTo_succ, none, Nat.add_zero, level]
  exact absurd (reached inside) (by omega)

end Switcheck.Sync.Cumulative
