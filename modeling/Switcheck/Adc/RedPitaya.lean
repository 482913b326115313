import Switcheck.Adc.Core

/-!
# `axis_red_pitaya_adc`

The other reader of the ADC bus takes the upper bits of it. Here both modules sit on one bus.
-/

namespace Switcheck

open Sync

/-- The registers of `axis_red_pitaya_adc`, for `ADC_DATA_WIDTH = w`. -/
structure AxisRedPitayaAdc (w : Nat) where
  intDatAReg : BitVec w
  intDatBReg : BitVec w

namespace AxisRedPitayaAdc

variable {w : Nat}

def posedge (adcDatA adcDatB : BitVec 16) : AxisRedPitayaAdc w where
  intDatAReg := adcDatA.extractLsb' (16 - w) w
  intDatBReg := adcDatB.extractLsb' (16 - w) w

/-- `{{(PADDING_WIDTH+1){r[w-1]}}, ~r[w-2:0]}`. -/
def signed (r : BitVec w) : BitVec 16 :=
  let sign : BitVec 1 := BitVec.ofBool (r.getLsbD (w - 1))
  (sign.replicate (16 - w + 1) ++ ~~~(r.extractLsb' 0 (w - 1))).setWidth 16

def mAxisTdata (s : AxisRedPitayaAdc w) : BitVec 32 := signed s.intDatBReg ++ signed s.intDatAReg

end AxisRedPitayaAdc

structure AdcPair (w : Nat) where
  adc : Adc w
  reference : AxisRedPitayaAdc w

namespace AdcPair

variable {w : Nat} {past : List (Clock (AdcPair w) AdcPins)} {s : AdcPair w} {d : BitVec 16}

/-- Both modules on one bus. `axis_red_pitaya_adc` has no reset. -/
def circuit (w : Nat) : Circuit (AdcPair w) AdcPins where
  Reset s := (Adc.circuit w).Reset s.adc
  tick s i := ⟨s.adc.posedge true i, AxisRedPitayaAdc.posedge i.adcDatA i.adcDatB⟩

structure Agree (s : AdcPair w) : Prop where
  a : s.adc.intDatAReg.toInt = (s.reference.mAxisTdata.extractLsb' 0 16).toInt
  b : s.adc.intDatBReg.toInt = (s.reference.mAxisTdata.extractLsb' 16 16).toInt

/-- After a clock that captures. -/
def Agrees (past : List (Clock (AdcPair w) AdcPins)) (s : AdcPair w) : Prop :=
  ∀ c, past.getLast? = some c → c.pins.nresetTrigger = true → Agree s

/-- The code in the upper bits of the bus is the one in the lower bits, but for its top bit. -/
def SameCode (w : Nat) (d : BitVec 16) : Prop :=
  d.getLsbD 15 = !d.getLsbD (w - 1) ∧
    ∀ k, k < w - 1 → d.getLsbD (16 - w + k) = d.getLsbD k

def SameCodes (_ : List (Clock (AdcPair w) AdcPins)) (c : Clock (AdcPair w) AdcPins) : Prop :=
  c.pins.nresetTrigger = true → SameCode w c.pins.adcDatA ∧ SameCode w c.pins.adcDatB

instance (w : Nat) (d : BitVec 16) : Decidable (SameCode w d) :=
  inferInstanceAs (Decidable (_ ∧ _))

instance (before : List (Clock (AdcPair w) AdcPins)) (c : Clock (AdcPair w) AdcPins) :
    Decidable (SameCodes before c) :=
  inferInstanceAs (Decidable (_ → _))

/-! ### The two formats bit by bit -/

theorem getLsbD_inverted (sign : Bool) {m n : Nat} (x : BitVec n) (k : Nat) :
    ((BitVec.ofBool sign).replicate m ++ ~~~x).getLsbD k =
      if k < n then !x.getLsbD k else decide (k - n < m) && sign := by
  rw [BitVec.getLsbD_append]
  split
  · rename_i low
    simp [low]
  · rw [BitVec.getLsbD_replicate, Nat.mod_one, Nat.one_mul, BitVec.getLsbD_ofBool]
    simp

theorem getLsbD_signed (positive : 0 < w) (r : BitVec w) {k : Nat} (low : k < 16) :
    (AxisRedPitayaAdc.signed r).getLsbD k =
      if k < w - 1 then !r.getLsbD k else r.getLsbD (w - 1) := by
  unfold AxisRedPitayaAdc.signed
  rw [BitVec.getLsbD_setWidth, getLsbD_inverted]
  split
  · rename_i inner
    simp [low, inner]
  · have count : k - (w - 1) < 16 - w + 1 := by omega
    simp [low, count]

theorem getLsbD_captured (narrow : w ≤ 16) (d : BitVec 16) {k : Nat} (low : k < w) :
    (Adc.captured w d).getLsbD k = !d.getLsbD k := by
  have inner : k < w - 1 ∨ k = w - 1 := by omega
  unfold Adc.captured
  rw [BitVec.getLsbD_setWidth, decide_eq_true low, Bool.true_and, BitVec.getLsbD, BitVec.toNat_add,
    Nat.testBit_mod_two_pow, decide_eq_true (show k < 32 by omega), Bool.true_and,
    BitVec.toNat_ofNat, Nat.one_shiftLeft, Nat.mod_eq_of_lt
      (Nat.pow_lt_pow_right Nat.one_lt_two (show w - 1 < 32 by omega)), Nat.add_comm]
  rcases inner with inner | rfl
  · rw [Nat.testBit_two_pow_add_gt inner, BitVec.testBit_toNat, BitVec.getLsbD_setWidth,
      getLsbD_inverted, if_pos inner]
    simp [inner, show k < 32 by omega]
  · rw [Nat.testBit_two_pow_add_eq, BitVec.testBit_toNat, BitVec.getLsbD_setWidth,
      getLsbD_inverted, if_neg (Nat.lt_irrefl _)]
    simp [show w - 1 < 32 by omega]

theorem captured_eq_signed_iff (positive : 1 < w) (narrow : w ≤ 15) (d : BitVec 16) :
    (Adc.captured w d).toInt = (AxisRedPitayaAdc.signed (d.extractLsb' (16 - w) w)).toInt ↔
      SameCode w d := by
  have wide : w ≤ 16 := Nat.le_succ_of_le narrow
  have sign : (Adc.captured w d).msb = !d.getLsbD (w - 1) := by
    rw [BitVec.msb_eq_getLsbD_last, getLsbD_captured wide d (by omega)]
  have code {k : Nat} (low : k < w) : (d.extractLsb' (16 - w) w).getLsbD k = d.getLsbD (16 - w + k) := by
    simp [low]
  have top : 16 - w + (w - 1) = 15 := by omega
  rw [← BitVec.toInt_signExtend_of_le wide, BitVec.toInt_inj]
  constructor
  · intro same
    refine ⟨?_, fun k inner => ?_⟩
    · have last := congrArg (BitVec.getLsbD · 15) same
      rw [BitVec.getLsbD_signExtend, if_neg (by omega), sign, getLsbD_signed (by omega) _ (by omega),
        if_neg (by omega), code (by omega), top] at last
      simpa using last.symm
    · have bit := congrArg (BitVec.getLsbD · k) same
      rw [BitVec.getLsbD_signExtend, if_pos (by omega), getLsbD_captured wide d (by omega),
        getLsbD_signed (by omega) _ (by omega), if_pos inner, code (by omega)] at bit
      have full : k < 16 := by omega
      simpa [full] using bit.symm
  · rintro ⟨flipped, same⟩
    refine BitVec.eq_of_getLsbD_eq fun k full => ?_
    rw [BitVec.getLsbD_signExtend, getLsbD_signed (by omega) _ full, decide_eq_true full,
      Bool.true_and]
    by_cases inner : k < w - 1
    · rw [if_pos (by omega), if_pos inner, getLsbD_captured wide d (by omega), code (by omega),
        same k inner]
    · rw [if_neg inner, code (by omega), top, flipped]
      split
      · rename_i last
        obtain rfl : k = w - 1 := by omega
        exact getLsbD_captured wide d last
      · exact sign

/-! ### Both modules on one bus -/

theorem posedge_captures {s : Adc w} {i : AdcPins} (high : i.nresetTrigger = true) :
    (s.posedge true i).intDatAReg = Adc.captured w i.adcDatA ∧
    (s.posedge true i).intDatBReg = Adc.captured w i.adcDatB := by
  cases on : s.triggerNow i <;> simp [Adc.posedge, high, on]

theorem agree_tick (positive : 1 < w) (narrow : w ≤ 15) {i : AdcPins}
    (high : i.nresetTrigger = true) :
    Agree ((circuit w).tick s i) ↔ SameCode w i.adcDatA ∧ SameCode w i.adcDatB := by
  obtain ⟨a, b⟩ := posedge_captures (s := s.adc) high
  have low : ((circuit w).tick s i).reference.mAxisTdata.extractLsb' 0 16 =
      AxisRedPitayaAdc.signed (i.adcDatA.extractLsb' (16 - w) w) :=
    BitVec.extractLsb'_append_eq_right
  have upper : ((circuit w).tick s i).reference.mAxisTdata.extractLsb' 16 16 =
      AxisRedPitayaAdc.signed (i.adcDatB.extractLsb' (16 - w) w) :=
    BitVec.extractLsb'_append_eq_left
  rw [← captured_eq_signed_iff positive narrow, ← captured_eq_signed_iff positive narrow, ← a, ← b,
    ← low, ← upper]
  exact ⟨fun ⟨a, b⟩ => ⟨a, b⟩, fun ⟨a, b⟩ => ⟨a, b⟩⟩

/-- The samples agree in every state of a run exactly when each clock that captures finds the same
code in the upper and in the lower bits of the bus, the top bit inverted. -/
theorem run_agrees_iff (positive : 1 < w) (narrow : w ≤ 15) (run : (circuit w).Run past s) :
    (Agrees past s ∧ Held (fun before c => Agrees before c.regs) past) ↔ Held SameCodes past := by
  refine run.throughout_iff ?_ ?_
  · rintro s - c ⟨⟩
  · intro past s i _ _
    unfold Agrees SameCodes
    simp only [List.getLast?_concat, Option.some.injEq, forall_eq']
    exact forall_congr' fun high => agree_tick positive narrow high

def bus (a b : BitVec 16) : AdcPins := { Adc.quiet 1 with adcDatA := a, adcDatB := b }

def start : AdcPair 14 := ⟨Adc.fresh, ⟨0, 0⟩⟩

theorem start_reset : (circuit 14).Reset start := Adc.fresh_reset

theorem run_agrees_iff_sameCode :
    Agrees ((circuit 14).trace start [bus 0x8000 0x2aaa, bus 0x7fff 0x8000])
      ((circuit 14).after start [bus 0x8000 0x2aaa, bus 0x7fff 0x8000]) :=
  ((run_agrees_iff (by decide) (by decide) (Circuit.run_trace start_reset _)).mpr
    (by decide +kernel)).1

/-- The code 0 of both channels: -1 in `ADC`, 8191 in `axis_red_pitaya_adc`. -/
theorem zeroCode_disagrees :
    (circuit 14).Run ((circuit 14).trace start [bus 0 0]) ((circuit 14).after start [bus 0 0]) ∧
    ((circuit 14).after start [bus 0 0]).adc.intDatAReg.toInt = -1 ∧
    (((circuit 14).after start [bus 0 0]).reference.mAxisTdata.extractLsb' 0 16).toInt = 8191 ∧
    ¬ Agrees ((circuit 14).trace start [bus 0 0]) ((circuit 14).after start [bus 0 0]) := by
  have own : ((circuit 14).after start [bus 0 0]).adc.intDatAReg.toInt = -1 := by decide +kernel
  have other : (((circuit 14).after start [bus 0 0]).reference.mAxisTdata.extractLsb' 0 16).toInt =
      8191 := by decide +kernel
  refine ⟨Circuit.run_trace start_reset _, own, other, fun agrees => ?_⟩
  have same := (agrees ⟨start, bus 0 0⟩ rfl rfl).a
  rw [own, other] at same
  cases same

end AdcPair

end Switcheck
