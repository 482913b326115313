import Mathlib.Order.Lattice
import Switcheck.Sync.Framing
import Switcheck.Adc.Tags

/-!
# Maximum tracking

`max_sum_abs` is cleared by `nreset_max_sum` alone, and `max_sum_out` follows it by a clock.
-/

namespace Switcheck.Adc

open Sync Circuit

variable {w : Nat} {past : List (Tick w)} {s : Adc w} {i : AdcPins}

def heldPair (s : Adc w) : SamplePair w := ⟨s.intDatAReg, s.intDatBReg⟩

/-- `sum_abs` in the clocks since `nreset_max_sum` was last low. -/
def sumsSeen (past : List (Tick w)) : List Nat :=
  (rest (fun c => !c.pins.nresetMaxSum) past).map fun c => c.regs.sumAbs.toNat

def peak (past : List (Tick w)) : Nat := (sumsSeen past).foldl max 0

structure MaxTracked (past : List (Tick w)) (s : Adc w) : Prop where
  sum : ∀ before c d, past = before ++ [c, d] → s.sumAbs.toNat = (heldPair c.regs).sum
  peak : s.maxSumOut.toNat = peak past.dropLast
  /-- Two clocks after one with `nreset_max_sum` high. -/
  grows : ∀ before c d, past = before ++ [c, d] → c.pins.nresetMaxSum = true →
    d.regs.maxSumOut.toNat ≤ s.maxSumOut.toNat
  nonneg : 0 ≤ s.maxSumOut.toInt

theorem peak_snoc (past : List (Tick w)) (c : Tick w) :
    peak (past ++ [c]) =
      if c.pins.nresetMaxSum then max (peak past) c.regs.sumAbs.toNat else 0 := by
  unfold peak sumsSeen
  rw [rest_snoc]
  cases c.pins.nresetMaxSum with
  | false => rfl
  | true => simp

/-- The sum has `ADC_DATA_WIDTH + 1` bits, so it fits the 15 bits below the sign of the port. -/
theorem peak_lt (width : w ≤ 14) (past : List (Tick w)) : peak past < 2 ^ 15 := by
  induction past using List.reverseRecOn with
  | nil => exact Nat.two_pow_pos 15
  | append_singleton past c ih =>
    have narrow : c.regs.sumAbs.toNat < 2 ^ 15 :=
      Nat.lt_of_lt_of_le c.regs.sumAbs.isLt (Nat.pow_le_pow_right Nat.two_pos (by omega))
    rw [peak_snoc]
    split
    · exact Nat.max_lt.mpr ⟨ih, narrow⟩
    · exact Nat.two_pow_pos 15

theorem posedge_maxSum (s : Adc w) (i : AdcPins) :
    (posedge true s i).maxSumAbs =
      (if !i.nresetMaxSum then 0
        else if s.maxSumAbs.toNat < s.sumAbs.toNat then s.sumAbs.setWidth 16 else s.maxSumAbs) ∧
    (posedge true s i).maxSumOut = s.maxSumAbs := by
  cases trigger : i.nresetTrigger with
  | false => simp [posedge, trigger]
  | true => cases on : s.triggerNow i <;> simp [posedge, trigger, on]

theorem posedge_peak (width : w ≤ 14) (abs : s.maxSumAbs.toNat = peak past) :
    (posedge true s i).maxSumAbs.toNat = peak (past ++ [⟨s, i⟩]) := by
  have exact : (s.sumAbs.setWidth 16).toNat = s.sumAbs.toNat := by
    have narrow := s.sumAbs.isLt
    have fits : 2 ^ (w + 1) ≤ 2 ^ 16 := Nat.pow_le_pow_right Nat.two_pos (by omega)
    rw [BitVec.toNat_setWidth, Nat.mod_eq_of_lt (by omega)]
  rw [(posedge_maxSum s i).1, peak_snoc, ← abs]
  cases i.nresetMaxSum with
  | false => rfl
  | true =>
    rw [Bool.not_true, if_neg Bool.false_ne_true, if_pos rfl]
    split
    · rename_i rises
      rw [exact]
      exact (Nat.max_eq_right (Nat.le_of_lt rises)).symm
    · rename_i stays
      exact (Nat.max_eq_left (Nat.le_of_not_lt stays)).symm

theorem run_peak (width : w ≤ 14) (run : (circuit w).Run past s) :
    s.maxSumAbs.toNat = peak past ∧ s.maxSumOut.toNat = peak past.dropLast := by
  induction run with
  | reset reset =>
    obtain ⟨s₀, i, rfl⟩ := reset
    exact ⟨rfl, rfl⟩
  | @tick past s run i inv =>
    refine ⟨posedge_peak width inv.1, ?_⟩
    rw [List.dropLast_concat]
    exact (congrArg BitVec.toNat (posedge_maxSum s i).2).trans inv.1

theorem run_sum {before : List (Tick w)} {c d : Tick w}
    (run : (circuit w).Run (before ++ [c, d]) s) (first : c.pins.nresetTrigger = true)
    (second : d.pins.nresetTrigger = true) : s.sumAbs.toNat = (heldPair c.regs).sum := by
  rw [List.append_cons] at run
  obtain ⟨earlier, -⟩ := run.snoc.1.snoc
  have pipeline := run_pipeline earlier
  have pair : heldPair c.regs = pairAgo before 0 := by
    unfold heldPair
    rw [pipeline.datA, pipeline.datB]
  rw [(run_pipeline run).sum, (pairAgo_captured (before ++ [c]) d second).2,
    (pairAgo_captured before c first).2, pair]

theorem run_grows (width : w ≤ 14) {before : List (Tick w)} {c d : Tick w}
    (run : (circuit w).Run (before ++ [c, d]) s) (high : c.pins.nresetMaxSum = true) :
    d.regs.maxSumOut.toNat ≤ s.maxSumOut.toNat := by
  rw [List.append_cons] at run
  have now := (run_peak width run).2
  have earlier := (run_peak width run.snoc.1).2
  rw [List.dropLast_concat] at now earlier
  rw [now, earlier, peak_snoc, if_pos high]
  exact Nat.le_max_left _ _

theorem run_maxTracked (width : w ≤ 14) (run : (circuit w).Run past s)
    (high : Held (fun _ c => c.pins.nresetTrigger = true) past) : MaxTracked past s := by
  have peak := (run_peak width run).2
  refine ⟨?_, peak, ?_, ?_⟩
  · rintro before c d rfl
    rw [List.append_cons, held_snoc, held_snoc] at high
    exact run_sum run high.1.2 high.2
  · rintro before c d rfl released
    exact run_grows width run released
  · have small := peak_lt width past.dropLast
    rw [BitVec.toInt_eq_toNat_of_lt (by omega)]
    exact Int.natCast_nonneg _

/-- The most negative sample of 14 bits on both channels: 8192 each. -/
theorem run_maxTracked_extreme :
    MaxTracked ((circuit 14).trace fresh (List.replicate 5 (sampled 1 0x1fff)))
      ((circuit 14).after fresh (List.replicate 5 (sampled 1 0x1fff))) ∧
    ((circuit 14).after fresh (List.replicate 5 (sampled 1 0x1fff))).maxSumOut.toInt = 16384 :=
  ⟨run_maxTracked (by decide) (run_trace fresh_reset _) (by decide +kernel), by decide +kernel⟩

end Switcheck.Adc
