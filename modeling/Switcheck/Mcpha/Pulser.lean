import Mathlib.Algebra.BigOperators.Group.Finset.Piecewise
import Switcheck.Server.LowerBound
import Switcheck.Sync.Cumulative

/-!
# The pulse generator of `mcpha`

Command 29 makes a cumulative table of the spectrum, in which `pulser_handler` looks up random
draws.
-/

namespace Switcheck

open Sync LowerBound Cumulative

namespace Pulser

def randMax : BitVec 64 := 2147483647

/-- `value` after the first `k` bins, and `total` after all of them. -/
def value (spectrum : Nat → BitVec 32) : Nat → BitVec 64
  | 0 => 0
  | k + 1 => value spectrum k + (spectrum k).setWidth 64

def total (spectrum : Nat → BitVec 32) : BitVec 64 := value spectrum 4096

/-- `value * RAND_MAX / total - 1`, in `int64_t`; a product that does not fit wraps around. -/
def hist (spectrum : Nat → BitVec 32) (k : Nat) : BitVec 64 :=
  (value spectrum (k + 1) * randMax).sdiv (total spectrum) - 1

/-- `lower_bound(hist, 4096, v)` for the draw `rand() % RAND_MAX`. -/
def amplitude (spectrum : Nat → BitVec 32) (draw : Int) : Nat :=
  lowerBound (fun k => (hist spectrum k).toInt) 4096 draw

def counts (spectrum : Nat → BitVec 32) (k : Nat) : Nat := (spectrum k).toNat

/-- The entry of the table before bin `k`, which is -1 before the first. -/
def before (spectrum : Nat → BitVec 32) : Nat → Int
  | 0 => -1
  | k + 1 => (hist spectrum k).toInt

structure Samples (spectrum : Nat → BitVec 32) : Prop where
  nondecreasing : Ascending (fun k => (hist spectrum k).toInt) 4096
  last : (hist spectrum 4095).toInt = 2147483647 - 1
  draws : ∀ v : Int, 0 ≤ v → v ≤ 2147483647 - 1 →
    amplitude spectrum v < 4096 ∧ spectrum (amplitude spectrum v) ≠ 0 ∧
      before spectrum (amplitude spectrum v) < v ∧
        v ≤ (hist spectrum (amplitude spectrum v)).toInt

variable {spectrum : Nat → BitVec 32} {k : Nat}

theorem counts_le (spectrum : Nat → BitVec 32) (k : Nat) : counts spectrum k ≤ 2 ^ 32 :=
  (spectrum k).isLt.le

theorem upTo_counts_le (le : k ≤ 4096) : upTo (counts spectrum) k ≤ 2 ^ 44 := by
  have small := upTo_le (counts_le spectrum) k
  omega

theorem value_toNat (le : k ≤ 4096) :
    (value spectrum k).toNat = upTo (counts spectrum) k := by
  induction k with
  | zero => rfl
  | succ k ih =>
    have bound : upTo (counts spectrum) (k + 1) ≤ 2 ^ 44 := upTo_counts_le le
    rw [upTo_succ] at bound ⊢
    rw [value, BitVec.toNat_add, ih (by omega), BitVec.toNat_setWidth_of_le (by decide)]
    exact Nat.mod_eq_of_lt (by unfold counts at bound ⊢; omega)

theorem value_toInt (le : k ≤ 4096) :
    (value spectrum k).toInt = upTo (counts spectrum) k := by
  have bound : upTo (counts spectrum) k ≤ 2 ^ 44 := upTo_counts_le le
  rw [BitVec.toInt_eq_toNat_of_lt (by rw [value_toNat le]; omega), value_toNat le]

theorem product_toInt (le : k ≤ 4096) : (value spectrum k * randMax).toInt =
    ((upTo (counts spectrum) k : Int) * 2147483647).bmod (2 ^ 64) := by
  rw [BitVec.toInt_mul, value_toInt le]
  rfl

/-- The quotient of two words less one, where neither step overflows. -/
theorem quotient_toInt {a b : BitVec 64} {q : Int} (quotient : a.toInt.tdiv b.toInt = q)
    (low : -2 ^ 63 < q) (high : q < 2 ^ 63) : (a.sdiv b - 1).toInt = q - 1 := by
  have fits (r : Int) (low : -2 ^ 63 ≤ r) (high : r < 2 ^ 63) : r.bmod (2 ^ 64) = r :=
    Int.bmod_eq_of_le_mul_two (by omega) (by omega)
  rw [BitVec.toInt_sub, BitVec.toInt_sdiv, quotient, fits q low.le high]
  exact fits (q - 1) (by omega) (by omega)

/-- With no product over 2^63 the table has the levels of the cumulative weights. -/
theorem hist_toInt (fits : upTo (counts spectrum) 4096 ≤ 4294967298) (inside : k < 4096) :
    (hist spectrum k).toInt = level (counts spectrum) 4096 2147483647 (k + 1) := by
  have part : upTo (counts spectrum) (k + 1) ≤ upTo (counts spectrum) 4096 := upTo_mono inside
  have product : (value spectrum (k + 1) * randMax).toInt =
      (upTo (counts spectrum) (k + 1) * 2147483647 : Nat) := by
    rw [product_toInt (k := k + 1) inside]
    exact Int.bmod_eq_of_le_mul_two (by push_cast; omega) (by push_cast; omega)
  have quotient : (value spectrum (k + 1) * randMax).toInt.tdiv (total spectrum).toInt =
      (upTo (counts spectrum) (k + 1) * 2147483647 / upTo (counts spectrum) 4096 : Nat) := by
    rw [product, total, value_toInt le_rfl, Int.tdiv_eq_ediv_of_nonneg (Int.natCast_nonneg _)]
    rfl
  have small := Nat.div_le_self (upTo (counts spectrum) (k + 1) * 2147483647)
    (upTo (counts spectrum) 4096)
  unfold level
  generalize upTo (counts spectrum) (k + 1) * 2147483647 / upTo (counts spectrum) 4096 = q
    at quotient small ⊢
  exact quotient_toInt quotient (by omega) (by omega)

theorem before_eq (fits : upTo (counts spectrum) 4096 ≤ 4294967298) (inside : k ≤ 4096) :
    before spectrum k = level (counts spectrum) 4096 2147483647 k := by
  cases k with
  | zero => exact level_zero.symm
  | succ k => exact hist_toInt fits inside

theorem samples_of_fits (some : 0 < upTo (counts spectrum) 4096)
    (fits : upTo (counts spectrum) 4096 ≤ 4294967298) : Samples spectrum := by
  have ascending : Ascending (fun k => (hist spectrum k).toInt) 4096 := by
    intro i j le inside
    dsimp only
    rw [hist_toInt fits inside, hist_toInt fits (by omega)]
    exact level_mono (Nat.succ_le_succ le)
  refine ⟨ascending, ?_, fun v low high => ?_⟩
  · rw [hist_toInt fits (by decide), level_top some]
    rfl
  · have found : IsLeast _ (amplitude spectrum v) := isLeast_lowerBound ascending v
    have same : {k | k < 4096 → v ≤ (hist spectrum k).toInt} =
        {k | k < 4096 → v ≤ level (counts spectrum) 4096 2147483647 (k + 1)} :=
      Set.ext fun k => forall_congr' fun inside => by rw [hist_toInt fits inside]
    rw [same] at found
    obtain ⟨inside, weight, below, reached⟩ := level_draw some low (by omega) found
    refine ⟨inside, fun none => ?_, ?_, ?_⟩
    · have zero : counts spectrum (amplitude spectrum v) = 0 := by
        rw [counts, none]
        rfl
      exact absurd weight (by rw [zero]; decide)
    · rw [before_eq fits inside.le]
      exact below
    · rw [hist_toInt fits inside]
      exact reached

/-- A last entry of `RAND_MAX - 1` needs a product of that size. -/
theorem fits_of_last (last : (hist spectrum 4095).toInt = 2147483647 - 1) :
    upTo (counts spectrum) 4096 ≤ 4294967298 := by
  by_contra large
  have divisor : (total spectrum).toInt = upTo (counts spectrum) 4096 := value_toInt le_rfl
  simp only [hist, Nat.reduceAdd] at last
  generalize value spectrum 4096 * randMax = product at last
  generalize total spectrum = divisor' at last divisor
  have high := product.toInt_lt
  have low := product.le_toInt
  have size := Int.natAbs_tdiv product.toInt divisor'.toInt
  have half : product.toInt.natAbs.div divisor'.toInt.natAbs ≤ product.toInt.natAbs / 2 :=
    Nat.div_le_div_left (by omega) (by decide)
  have entry := quotient_toInt (a := product) (b := divisor') rfl (by omega) (by omega)
  have quotient : product.toInt.tdiv divisor'.toInt = 2147483647 := by omega
  have positive : 0 ≤ product.toInt := by
    by_contra negative
    have mirrored := Int.tdiv_nonneg (a := -product.toInt) (b := divisor'.toInt) (by omega)
      (by omega)
    rw [Int.neg_tdiv] at mirrored
    omega
  have whole := Int.mul_tdiv_add_tmod product.toInt divisor'.toInt
  have remainder := Int.tmod_nonneg divisor'.toInt positive
  rw [quotient] at whole
  omega

/-- The table is right and every draw finds its bin exactly when the counts of the spectrum sum up
to no more than 2^32 + 2. -/
theorem samples_iff (some : ∃ k < 4096, spectrum k ≠ 0) :
    Samples spectrum ↔ upTo (counts spectrum) 4096 ≤ 4294967298 := by
  obtain ⟨k, inside, count⟩ := some
  have positive : 0 < upTo (counts spectrum) 4096 := by
    have part : upTo (counts spectrum) (k + 1) ≤ upTo (counts spectrum) 4096 := upTo_mono inside
    have weight : 0 < counts spectrum k := BitVec.toNat_pos_of_ne_zero count
    rw [upTo_succ] at part
    omega
  exact ⟨fun samples => fits_of_last samples.last, samples_of_fits positive⟩

/-- One count in bin 7. -/
def oneBin (k : Nat) : BitVec 32 := if k = 7 then 1 else 0

theorem samples_iff_oneBin : Samples oneBin :=
  (samples_iff ⟨7, by decide, by decide⟩).mpr (by
    simp [upTo, counts, oneBin, apply_ite BitVec.toNat, Finset.sum_ite_eq'])

/-- Two full bins: the sum is 2^33 - 2, and its product with `RAND_MAX` overflows. -/
def fullBins (k : Nat) : BitVec 32 := if k < 2 then 0xffffffff else 0

theorem fullBins_overflow : ¬ ∀ spectrum : Nat → BitVec 32,
    (∃ k < 4096, spectrum k ≠ 0) → Samples spectrum := by
  intro claim
  have samples := claim fullBins ⟨0, by decide, by decide⟩
  have fits := fits_of_last samples.last
  have part : upTo (counts fullBins) 2 ≤ upTo (counts fullBins) 4096 := upTo_mono (by decide)
  have two : upTo (counts fullBins) 2 = 8589934590 := by decide
  omega

end Pulser

end Switcheck
