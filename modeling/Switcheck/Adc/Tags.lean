import Switcheck.Adc.Core

/-!
# Tag and payload

The payload of a word is the pair captured last, its tag and the start of a series are decided
on `sum_abs`, which is two samples behind: `abs_a` and `abs_b` are one register, their sum
another.
-/

namespace Switcheck.Adc

open Sync Circuit

variable {w : Nat} {past : List (Tick w)} {s : Adc w} {i : AdcPins}

structure SamplePair (w : Nat) where
  a : BitVec w
  b : BitVec w

def SamplePair.sum (x : SamplePair w) : Nat := x.a.toInt.natAbs + x.b.toInt.natAbs

/-- The pair as the 15-bit fields of a word have it. -/
def SamplePair.payload (x : SamplePair w) (i : AdcPins) : BitVec 30 :=
  (scaled x.a i.adcMultBeforeBiasA i.biasA i.adcMultAfterBiasA).extractLsb' 0 15 ++
    (scaled x.b i.adcMultBeforeBiasB i.biasB i.adcMultAfterBiasB).extractLsb' 0 15

/-- The pairs captured so far: one in each clock with the trigger out of reset. -/
def samples (past : List (Tick w)) : List (SamplePair w) :=
  (past.filter fun c => c.pins.nresetTrigger).map fun c =>
    ⟨captured w c.pins.adcDatA, captured w c.pins.adcDatB⟩

def pairAgo (past : List (Tick w)) (n : Nat) : SamplePair w :=
  (samples past).reverse.getD n ⟨0, 0⟩

/-- The word a clock sends, and the level it is about, both of one pair. -/
structure AboutPair (x : SamplePair w) (c : Tick w) : Prop where
  payload : (posedge true c.regs c.pins).axisDataReg.extractLsb' 0 30 = x.payload c.pins
  tag : c.regs.seriesEnds c.pins = false →
    ((posedge true c.regs c.pins).axisDataReg.extractLsb' 30 2 = 0b10 ↔
      x.sum ≤ c.pins.triggerLevel.toNat)
  start : c.regs.triggerActivated = false → c.pins.triggerLevel.toNat ≤ x.sum

def Sends (c : Tick w) : Prop :=
  c.pins.nresetTrigger = true ∧ c.regs.triggerNow c.pins = true

def TagsPayload (before : List (Tick w)) (c : Tick w) : Prop :=
  Sends c → AboutPair (pairAgo before 0) c

/-- The pair judged, two samples before the payload's, is on the same side of the level. -/
structure SameSide (before : List (Tick w)) (c : Tick w) : Prop where
  tag : c.regs.seriesEnds c.pins = false →
    ((pairAgo before 2).sum ≤ c.pins.triggerLevel.toNat ↔
      (pairAgo before 0).sum ≤ c.pins.triggerLevel.toNat)
  start : c.regs.triggerActivated = false →
    c.pins.triggerLevel.toNat ≤ (pairAgo before 2).sum →
      c.pins.triggerLevel.toNat ≤ (pairAgo before 0).sum

def JudgedAlike (before : List (Tick w)) (c : Tick w) : Prop := Sends c → SameSide before c

instance (c : Tick w) : Decidable (Sends c) := inferInstanceAs (Decidable (_ ∧ _))

instance (before : List (Tick w)) (c : Tick w) : Decidable (SameSide before c) :=
  decidable_of_iff ((c.regs.seriesEnds c.pins = false →
      ((pairAgo before 2).sum ≤ c.pins.triggerLevel.toNat ↔
        (pairAgo before 0).sum ≤ c.pins.triggerLevel.toNat)) ∧
    (c.regs.triggerActivated = false → c.pins.triggerLevel.toNat ≤ (pairAgo before 2).sum →
      c.pins.triggerLevel.toNat ≤ (pairAgo before 0).sum))
    ⟨fun ⟨tag, start⟩ => ⟨tag, start⟩, fun ⟨tag, start⟩ => ⟨tag, start⟩⟩

instance (before : List (Tick w)) (c : Tick w) : Decidable (JudgedAlike before c) :=
  inferInstanceAs (Decidable (_ → _))

/-! ### The sample pipeline -/

theorem absolute_toNat (d : BitVec w) : (absolute d).toNat = d.toInt.natAbs := by
  have size := d.isLt
  have flip : ~~~d + 1 = -d := (BitVec.neg_eq_not_add d).symm
  rw [absolute, flip, BitVec.toInt_eq_msb_cond]
  cases negative : d.msb with
  | false => simp
  | true =>
    have some : 0 < d.toNat := Nat.pos_of_ne_zero fun zero => by
      have none : d = 0#w := BitVec.eq_of_toNat_eq (by simpa using zero)
      rw [none, BitVec.msb_zero] at negative
      cases negative
    rw [if_pos rfl, if_pos rfl, BitVec.toNat_neg, Nat.mod_eq_of_lt (by omega)]
    omega

theorem sum_toNat (a b : BitVec w) :
    (a.setWidth (w + 1) + b.setWidth (w + 1)).toNat = a.toNat + b.toNat := by
  have left := a.isLt
  have right := b.isLt
  rw [BitVec.toNat_add, BitVec.toNat_setWidth, BitVec.toNat_setWidth, Nat.mod_add_mod,
    Nat.add_mod_mod, Nat.mod_eq_of_lt]
  rw [Nat.pow_succ]
  omega

theorem pairAgo_held (past : List (Tick w)) (c : Tick w) (low : c.pins.nresetTrigger = false)
    (n : Nat) :
    pairAgo (past ++ [c]) n = pairAgo past n := by
  simp [pairAgo, samples, low]

theorem pairAgo_captured (past : List (Tick w)) (c : Tick w)
    (high : c.pins.nresetTrigger = true) :
    pairAgo (past ++ [c]) 0 = ⟨captured w c.pins.adcDatA, captured w c.pins.adcDatB⟩ ∧
      ∀ n, pairAgo (past ++ [c]) (n + 1) = pairAgo past n := by
  simp [pairAgo, samples, high]

/-- The registers hold the last three samples, each one stage further. -/
structure Pipeline (past : List (Tick w)) (s : Adc w) : Prop where
  datA : s.intDatAReg = (pairAgo past 0).a
  datB : s.intDatBReg = (pairAgo past 0).b
  absA : s.absA = absolute (pairAgo past 1).a
  absB : s.absB = absolute (pairAgo past 1).b
  sum : s.sumAbs.toNat = (pairAgo past 2).sum

theorem pipeline_reset (reset : (circuit w).Reset s) : Pipeline [] s := by
  obtain ⟨s₀, i, rfl⟩ := reset
  refine ⟨rfl, rfl, ?_, ?_, ?_⟩
  all_goals simp [posedge, pairAgo, samples, absolute, SamplePair.sum]

theorem posedge_samples_low (low : i.nresetTrigger = false) :
    (posedge true s i).intDatAReg = s.intDatAReg ∧ (posedge true s i).intDatBReg = s.intDatBReg ∧
    (posedge true s i).absA = s.absA ∧ (posedge true s i).absB = s.absB ∧
    (posedge true s i).sumAbs = s.sumAbs := by
  simp [posedge, low]

theorem posedge_samples (high : i.nresetTrigger = true) :
    (posedge true s i).intDatAReg = captured w i.adcDatA ∧
    (posedge true s i).intDatBReg = captured w i.adcDatB ∧
    (posedge true s i).absA = absolute s.intDatAReg ∧
    (posedge true s i).absB = absolute s.intDatBReg ∧
    (posedge true s i).sumAbs = s.absA.setWidth (w + 1) + s.absB.setWidth (w + 1) := by
  cases on : s.triggerNow i <;> simp [posedge, high, on]

theorem pipeline_step (inv : Pipeline past s) :
    Pipeline (past ++ [⟨s, i⟩]) (posedge true s i) := by
  cases trigger : i.nresetTrigger with
  | false =>
    have same := pairAgo_held past ⟨s, i⟩ trigger
    obtain ⟨datA, datB, absA, absB, sum⟩ := posedge_samples_low (s := s) trigger
    refine ⟨?_, ?_, ?_, ?_, ?_⟩
    · rw [same, datA, inv.datA]
    · rw [same, datB, inv.datB]
    · rw [same, absA, inv.absA]
    · rw [same, absB, inv.absB]
    · rw [same, sum, inv.sum]
  | true =>
    obtain ⟨now, earlier⟩ := pairAgo_captured past ⟨s, i⟩ trigger
    obtain ⟨datA, datB, absA, absB, sum⟩ := posedge_samples (s := s) trigger
    refine ⟨?_, ?_, ?_, ?_, ?_⟩
    · rw [now, datA]
    · rw [now, datB]
    · rw [earlier, absA, inv.datA]
    · rw [earlier, absB, inv.datB]
    · rw [earlier, sum, sum_toNat, inv.absA, inv.absB, absolute_toNat, absolute_toNat]
      rfl

theorem run_pipeline (run : (circuit w).Run past s) : Pipeline past s := by
  induction run with
  | reset reset => exact pipeline_reset reset
  | tick _ i inv => exact pipeline_step inv

/-! ### The word of one clock -/

theorem tagged_payload (s : Adc w) (i : AdcPins) (tag : BitVec 2) :
    (s.tagged i tag).extractLsb' 0 30 =
      (SamplePair.mk s.intDatAReg s.intDatBReg).payload i := by
  unfold tagged SamplePair.payload
  rw [BitVec.append_assoc]
  exact BitVec.extractLsb'_append_eq_right

theorem levelLeft_iff (inv : Pipeline past s) :
    s.levelLeft i = true ↔ (pairAgo past 2).sum ≤ i.triggerLevel.toNat := by
  rw [levelLeft, decide_eq_true_iff, inv.sum]

theorem levelReached_iff (inv : Pipeline past s) :
    s.levelReached i = true ↔ i.triggerLevel.toNat ≤ (pairAgo past 2).sum := by
  rw [levelReached, decide_eq_true_iff, inv.sum]

theorem word_payload (inv : Pipeline past s) (sends : Sends ⟨s, i⟩) :
    (posedge true s i).axisDataReg.extractLsb' 0 30 = (pairAgo past 0).payload i := by
  obtain ⟨-, -, -, -, -, -, data⟩ := posedge_send sends.1 sends.2
  have pair : SamplePair.mk s.intDatAReg s.intDatBReg = pairAgo past 0 := by
    rw [inv.datA, inv.datB]
  rw [data, ← pair]
  split
  · exact tagged_payload s i _
  · split <;> exact tagged_payload s i _

theorem word_tag (inv : Pipeline past s) (sends : Sends ⟨s, i⟩) (more : s.seriesEnds i = false) :
    (posedge true s i).axisDataReg.extractLsb' 30 2 = 0b10 ↔
      (pairAgo past 2).sum ≤ i.triggerLevel.toNat := by
  obtain ⟨-, -, -, -, -, -, data⟩ := posedge_send sends.1 sends.2
  rw [data, more, if_neg Bool.false_ne_true, ← levelLeft_iff inv]
  cases s.levelLeft i with
  | true => exact iff_of_true (tagged_tag s i _) rfl
  | false =>
    refine iff_of_false (fun ten => ?_) Bool.false_ne_true
    rw [if_neg Bool.false_ne_true, tagged_tag] at ten
    cases ten

theorem start_reaches (inv : Pipeline past s) (sends : Sends ⟨s, i⟩)
    (idle : s.triggerActivated = false) : i.triggerLevel.toNat ≤ (pairAgo past 2).sum := by
  have on : s.triggerNow i = true := sends.2
  rw [triggerNow, idle, Bool.or_false] at on
  exact (levelReached_iff inv).mp on

theorem tagsPayload_iff (inv : Pipeline past s) :
    TagsPayload past ⟨s, i⟩ ↔ JudgedAlike past ⟨s, i⟩ := by
  refine forall_congr' fun sends => ⟨fun ⟨_, tag, start⟩ => ?_, fun ⟨tag, start⟩ => ?_⟩
  · exact ⟨fun more => (word_tag inv sends more).symm.trans (tag more), fun idle _ => start idle⟩
  · exact ⟨word_payload inv sends, fun more => (word_tag inv sends more).trans (tag more),
      fun idle => start idle (start_reaches inv sends idle)⟩

/-- Tag and start of every word are about the pair in its payload exactly when the pair judged
is always on the side of the level the payload's pair is on. -/
theorem run_tagsPayload_iff (run : (circuit w).Run past s) :
    Held TagsPayload past ↔ Held JudgedAlike past := by
  refine run.held_congr (G := fun _ => True) (fun _ _ _ => trivial) ?_ trivial
  intro past s i run _
  exact tagsPayload_iff (run_pipeline run)

theorem run_tagsPayload_iff_plateau :
    Held TagsPayload ((circuit 14).trace fresh (List.replicate 8 (sampled 1 200))) ∧
    ((circuit 14).after fresh (List.replicate 8 (sampled 1 200))).samplesSent = 5 :=
  ⟨(run_tagsPayload_iff (run_trace fresh_reset (List.replicate 8 (sampled 1 200)))).mpr
    (by decide +kernel), by decide +kernel⟩

/-- A pulse of one sample starts a series whose first word carries the sample two later, far below
the level and yet without tag 10. -/
theorem onePulse_mismatched :
    (circuit 14).Run ((circuit 14).trace fresh (pulses 1 [3]))
      ((circuit 14).after fresh (pulses 1 [3])) ∧
    ¬ Held TagsPayload ((circuit 14).trace fresh (pulses 1 [3])) ∧
    (pairAgo ((circuit 14).trace fresh (pulses 1 [2])) 0).sum = 2 ∧
    ((circuit 14).after fresh (pulses 1 [3])).axisDataReg.extractLsb' 30 2 = 0b00 := by
  refine ⟨run_trace fresh_reset _, fun held => ?_, by decide +kernel, by decide +kernel⟩
  have pins : pulses 1 [3] = pulses 1 [2] ++ [sampled 1 0] := rfl
  rw [pins, trace_snoc, held_snoc] at held
  obtain ⟨-, -, start⟩ := held.2 (by decide +kernel)
  exact absurd (start (by decide +kernel)) (by decide +kernel)

end Switcheck.Adc
