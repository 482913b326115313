import Switcheck.Sync.Circuit
import Switcheck.Modules.Buffers
import Switcheck.Modules.Verilog

/-!
# `ADC`

The capture core: sample conditioning, trigger, and the stream of 32-bit words it sends, in
series of `limiter_val` words. `trigger_now` is written and read within one clock, so it is a
wire here. `m_axis_tlast` is not reset.
-/

namespace Switcheck

open Sync

/-- The registers of `ADC`, for `ADC_DATA_WIDTH = w`. -/
structure Adc (w : Nat) where
  intDatAReg : BitVec w
  intDatBReg : BitVec w
  absA : BitVec w
  absB : BitVec w
  sumAbs : BitVec (w + 1)
  maxSumAbs : BitVec 16
  curLimiter : BitVec 64
  sampleCounter : BitVec 64
  axisDataReg : BitVec 32
  mAxisTvalid : Bool
  mAxisTlast : Bool
  maxSumOut : BitVec 16
  lastDetrigged : BitVec 64
  firstTrigged : BitVec 64
  samplesSent : BitVec 32
  triggerActivated : Bool
  triggersCount : BitVec 16

structure AdcPins where
  adcDatA : BitVec 16
  adcDatB : BitVec 16
  biasA : BitVec 16
  biasB : BitVec 16
  limiter : BitVec 8
  triggerLevel : BitVec 16
  nresetTrigger : Bool
  nresetMaxSum : Bool
  adcMultBeforeBiasA : BitVec 8
  adcMultBeforeBiasB : BitVec 8
  adcMultAfterBiasA : BitVec 8
  adcMultAfterBiasB : BitVec 8

namespace Adc

variable {w : Nat}

/-! ### Sample conditioning -/

/-- `{{(PADDING_WIDTH+1){d[w-1]}}, ~d[w-2:0]} + MID_SCALE`, kept in `w` bits. -/
def captured (w : Nat) (d : BitVec 16) : BitVec w :=
  let sign : BitVec 1 := BitVec.ofBool (d.getLsbD (w - 1))
  let padded := sign.replicate (16 - w + 1) ++ ~~~(d.extractLsb' 0 (w - 1))
  (padded.setWidth 32 + BitVec.ofNat 32 (1 <<< (w - 1))).setWidth w

def absolute (d : BitVec w) : BitVec w := if d.msb then ~~~d + 1 else d

/-- Multiply, add the bias, multiply again: `a_ext` and `b_ext`. -/
def scaled (dat : BitVec w) (multBefore : BitVec 8) (bias : BitVec 16) (multAfter : BitVec 8) :
    BitVec 16 :=
  let ext : BitVec 16 := dat.signExtend 16
  let before : BitVec 24 := ext.signExtend 24 * multBefore.signExtend 24
  let biased : BitVec 24 := before + bias.signExtend 24
  let after : BitVec 32 := biased.signExtend 32 * multAfter.signExtend 32
  after.extractLsb' 0 16

section Wires

variable (s : Adc w) (i : AdcPins)

def aExt : BitVec 16 := scaled s.intDatAReg i.adcMultBeforeBiasA i.biasA i.adcMultAfterBiasA

def bExt : BitVec 16 := scaled s.intDatBReg i.adcMultBeforeBiasB i.biasB i.adcMultAfterBiasB

def tagged (tag : BitVec 2) : BitVec 32 :=
  tag ++ (s.aExt i).extractLsb' 0 15 ++ (s.bExt i).extractLsb' 0 15

def levelReached : Bool := decide (i.triggerLevel.toNat ≤ s.sumAbs.toNat)

def levelLeft : Bool := decide (s.sumAbs.toNat ≤ i.triggerLevel.toNat)

def triggerNow : Bool := s.levelReached i || s.triggerActivated

end Wires

theorem tagged_tag (s : Adc w) (i : AdcPins) (tag : BitVec 2) :
    (s.tagged i tag).extractLsb' 30 2 = tag := by
  unfold tagged
  rw [BitVec.append_assoc]
  exact BitVec.extractLsb'_append_eq_left

def limiterVal (limiter : BitVec 8) : BitVec 64 :=
  if 63 < limiter.toNat then BitVec.allOnes 64 else 1#64 <<< limiter.toNat

def seriesEnds (s : Adc w) (i : AdcPins) : Bool :=
  s.curLimiter == limiterVal i.limiter - 1

def posedge (aresetn : Bool) (s : Adc w) (i : AdcPins) : Adc w :=
  if !aresetn then
    { intDatAReg := 0
      intDatBReg := 0
      absA := 0
      absB := 0
      sumAbs := 0
      mAxisTvalid := false
      mAxisTlast := s.mAxisTlast
      axisDataReg := 0
      triggerActivated := false
      triggersCount := 0
      maxSumAbs := 0
      sampleCounter := 0
      samplesSent := 0
      maxSumOut := 0
      lastDetrigged := 0
      firstTrigged := 0
      curLimiter := 0 }
  else
    let s' : Adc w :=
      { s with
        maxSumAbs :=
          if !i.nresetMaxSum then 0
          else if s.maxSumAbs.toNat < s.sumAbs.toNat then s.sumAbs.setWidth 16
          else s.maxSumAbs
        maxSumOut := s.maxSumAbs }
    if !i.nresetTrigger then
      { s' with
        lastDetrigged := 0
        firstTrigged := 0
        triggersCount := 0
        triggerActivated := false
        curLimiter := 0 }
    else
      let s' : Adc w :=
        { s' with
          sampleCounter := s.sampleCounter + 1
          intDatAReg := captured w i.adcDatA
          intDatBReg := captured w i.adcDatB
          absA := absolute s.intDatAReg
          absB := absolute s.intDatBReg
          sumAbs := s.absA.setWidth (w + 1) + s.absB.setWidth (w + 1)
          triggersCount :=
            if s.triggerNow i && !s.triggerActivated then s.triggersCount + 1 else s.triggersCount
          firstTrigged :=
            if s.triggerNow i && !s.triggerActivated then s.sampleCounter else s.firstTrigged }
      if s.triggerNow i then
        { s' with
          lastDetrigged := if s.levelLeft i then s.sampleCounter else s.lastDetrigged
          triggerActivated := !s.seriesEnds i
          axisDataReg :=
            if s.seriesEnds i then s.tagged i 0b11
            else if s.levelLeft i then s.tagged i 0b10
            else s.tagged i 0b00
          samplesSent := s.samplesSent + 1
          curLimiter := if s.seriesEnds i then 0 else s.curLimiter + 1
          mAxisTlast := s.seriesEnds i
          mAxisTvalid := true }
      else
        { s' with
          mAxisTvalid := false
          mAxisTlast := false }

/-- The core out of reset, with whatever `m_axis_tlast` reset found. -/
def circuit (w : Nat) : Circuit (Adc w) AdcPins where
  Reset s := ∃ s₀ i, s = posedge false s₀ i
  tick := posedge true

abbrev Tick (w : Nat) := Clock (Adc w) AdcPins

def quiet (limiter : BitVec 8) : AdcPins where
  adcDatA := 0
  adcDatB := 0
  biasA := 0
  biasB := 0
  limiter := limiter
  triggerLevel := 0
  nresetTrigger := true
  nresetMaxSum := true
  adcMultBeforeBiasA := 1
  adcMultBeforeBiasB := 1
  adcMultAfterBiasA := 1
  adcMultAfterBiasB := 1

def fresh : Adc 14 :=
  posedge false ⟨0, 0, 0, 0, 0, 0, 0, 0, 0, false, false, 0, 0, 0, 0, false, 0⟩ (quiet 0)

theorem fresh_reset : (circuit 14).Reset fresh := ⟨_, _, rfl⟩

/-- A sample of about `d` on each channel, against a level of 100. -/
def sampled (limiter : BitVec 8) (d : BitVec 16) : AdcPins :=
  { quiet limiter with adcDatA := d, adcDatB := d, triggerLevel := 100 }

def pulses (limiter : BitVec 8) (gaps : List Nat) : List AdcPins :=
  gaps.flatMap fun gap => sampled limiter 200 :: List.replicate gap (sampled limiter 0)

def word (s : Adc w) : List (Bool × BitVec 32) := beat s.mAxisTvalid (s.mAxisTlast, s.axisDataReg)

/-- The words presented so far, the current clock included. -/
def presented (past : List (Tick w)) (s : Adc w) : List (Bool × BitVec 32) :=
  past.flatMap (fun c => c.regs.word) ++ s.word

theorem presented_snoc (past : List (Tick w)) (c : Tick w) (s : Adc w) :
    presented (past ++ [c]) s = presented past c.regs ++ s.word := by
  simp [presented]

/-! ### What one clock does to the stream side -/

section Step

variable {s : Adc w} {i : AdcPins}

theorem triggerNow_of_not {s : Adc w} {i : AdcPins} (off : ¬ s.triggerNow i = true) :
    s.triggerActivated = false := by
  simp only [triggerNow, Bool.or_eq_true, not_or, Bool.not_eq_true] at off
  exact off.2

theorem posedge_held (low : i.nresetTrigger = false) :
    (posedge true s i).mAxisTvalid = s.mAxisTvalid ∧
    (posedge true s i).mAxisTlast = s.mAxisTlast ∧
    (posedge true s i).axisDataReg = s.axisDataReg ∧
    (posedge true s i).samplesSent = s.samplesSent := by
  simp [posedge, low]

theorem posedge_idle (high : i.nresetTrigger = true) (off : s.triggerNow i = false) :
    (posedge true s i).word = [] ∧ (posedge true s i).mAxisTlast = false ∧
    (posedge true s i).samplesSent = s.samplesSent ∧
    (posedge true s i).triggerActivated = s.triggerActivated ∧
    (posedge true s i).curLimiter = s.curLimiter ∧
    (posedge true s i).triggersCount = s.triggersCount := by
  simp [posedge, word, high, off]

theorem posedge_send (high : i.nresetTrigger = true) (on : s.triggerNow i = true) :
    (posedge true s i).word = [(s.seriesEnds i, (posedge true s i).axisDataReg)] ∧
    (posedge true s i).mAxisTvalid = true ∧
    (posedge true s i).samplesSent = s.samplesSent + 1 ∧
    (posedge true s i).triggerActivated = (!s.seriesEnds i) ∧
    (posedge true s i).curLimiter = (if s.seriesEnds i then 0 else s.curLimiter + 1) ∧
    (posedge true s i).triggersCount =
      (if s.triggerActivated then s.triggersCount else s.triggersCount + 1) ∧
    (posedge true s i).axisDataReg =
      (if s.seriesEnds i then s.tagged i 0b11
        else if s.levelLeft i then s.tagged i 0b10 else s.tagged i 0b00) := by
  refine ⟨?_, ?_, ?_, ?_, ?_, ?_, ?_⟩
  all_goals simp [posedge, word, high, on]
  cases s.triggerActivated <;> simp

end Step

theorem run_presented_length {past : List (Tick w)} {s : Adc w} (run : (circuit w).Run past s)
    (level : Held (fun _ c => c.pins.nresetTrigger = true ∧ c.pins.triggerLevel = 0) past) :
    (presented past s).length = past.length := by
  refine run.invariant (P := fun past s => (presented past s).length = past.length) ?_ ?_ level
  · rintro _ ⟨s₀, i, rfl⟩
    rfl
  · rintro past s i - same ⟨high, zero⟩
    have low : i.triggerLevel = 0 := zero
    have on : s.triggerNow i = true := by simp [triggerNow, levelReached, low]
    obtain ⟨word, -⟩ := posedge_send high on
    rw [presented_snoc, List.length_append, List.length_append, same, circuit, word]
    rfl

end Adc

end Switcheck
