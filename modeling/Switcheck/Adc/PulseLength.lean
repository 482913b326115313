import Switcheck.Adc.Timestamps

/-!
# Pulse length

`first_trigged` is written when a series starts, `last_detrigged` with the first sample of it
that is not above the level: in between the difference of the two wraps.
-/

namespace Switcheck.Adc

open Sync Circuit

variable {w : Nat} {past : List (Tick w)} {s : Adc w} {i : AdcPins}

/-- `PULSE_LEN` does not wrap, once there has been a trigger since the last trigger reset. -/
def LengthValid (past : List (Tick w)) (s : Adc w) : Prop :=
  (firstTrigger past).isSome = true → s.firstTrigged.toNat ≤ s.lastDetrigged.toNat

/-- What a clock stamps keeps the order: a series starts on a sample that is not above the level,
or below a `last_detrigged` the counter has yet to reach; a low sample within a series is not
before `first_trigged`. -/
structure StampsOrdered (before : List (Tick w)) (c : Tick w) : Prop where
  start : starts (before.getLast?, c) = true → c.regs.levelLeft c.pins = true ∨
    c.regs.sampleCounter.toNat ≤ c.regs.lastDetrigged.toNat
  low : starts (before.getLast?, c) = false → c.regs.triggerNow c.pins = true →
    c.regs.levelLeft c.pins = true → (firstTrigger before).isSome = true →
      c.regs.firstTrigged.toNat ≤ c.regs.sampleCounter.toNat

def KeepsOrder (before : List (Tick w)) (c : Tick w) : Prop :=
  c.pins.nresetTrigger = true → StampsOrdered before c

instance (before : List (Tick w)) (c : Tick w) : Decidable (StampsOrdered before c) :=
  decidable_of_iff ((starts (before.getLast?, c) = true → c.regs.levelLeft c.pins = true ∨
      c.regs.sampleCounter.toNat ≤ c.regs.lastDetrigged.toNat) ∧
    (starts (before.getLast?, c) = false → c.regs.triggerNow c.pins = true →
      c.regs.levelLeft c.pins = true → (firstTrigger before).isSome = true →
        c.regs.firstTrigged.toNat ≤ c.regs.sampleCounter.toNat))
    ⟨fun ⟨start, low⟩ => ⟨start, low⟩, fun ⟨start, low⟩ => ⟨start, low⟩⟩

instance (before : List (Tick w)) (c : Tick w) : Decidable (KeepsOrder before c) :=
  inferInstanceAs (Decidable (_ → _))

theorem lengthValid_low (low : i.nresetTrigger = false) :
    LengthValid (past ++ [⟨s, i⟩]) (posedge true s i) := by
  intro triggered
  rw [firstTrigger_low past low] at triggered
  cases triggered

theorem lengthValid_start (high : i.nresetTrigger = true)
    (start : starts (past.getLast?, ⟨s, i⟩) = true) :
    LengthValid (past ++ [⟨s, i⟩]) (posedge true s i) ↔
      (s.levelLeft i = true ∨ s.sampleCounter.toNat ≤ s.lastDetrigged.toNat) := by
  have fires : (s.triggerNow i && !s.triggerActivated) = true := start
  have on : s.triggerNow i = true := ((Bool.and_eq_true _ _).mp fires).1
  have triggered : (firstTrigger (past ++ [⟨s, i⟩])).isSome = true := by
    rw [firstTrigger_high past high, if_pos start]
    cases firstTrigger past <;> rfl
  obtain ⟨first, last⟩ := posedge_stamps (s := s) high
  rw [fires, if_pos rfl] at first
  rw [on, Bool.true_and] at last
  unfold LengthValid
  rw [first, last]
  cases s.levelLeft i with
  | true => exact iff_of_true (fun _ => Nat.le_refl _) (.inl rfl)
  | false => simp [triggered]

theorem LengthValid.onward (inv : LengthValid past s) (high : i.nresetTrigger = true)
    (onward : starts (past.getLast?, ⟨s, i⟩) = false) :
    LengthValid (past ++ [⟨s, i⟩]) (posedge true s i) ↔
      (s.triggerNow i = true → s.levelLeft i = true → (firstTrigger past).isSome = true →
        s.firstTrigged.toNat ≤ s.sampleCounter.toNat) := by
  have holds : (s.triggerNow i && !s.triggerActivated) = false := onward
  have same : firstTrigger (past ++ [⟨s, i⟩]) = firstTrigger past := by
    rw [firstTrigger_high past high, onward]
    exact Option.or_none
  obtain ⟨first, last⟩ := posedge_stamps (s := s) high
  rw [holds] at first
  unfold LengthValid
  rw [same, first, last]
  cases low : s.triggerNow i && s.levelLeft i with
  | false =>
    refine iff_of_true inv fun on left => ?_
    rw [on, left] at low
    cases low
  | true =>
    obtain ⟨on, left⟩ := (Bool.and_eq_true _ _).mp low
    simp [on, left]

theorem lengthValid_step (inv : LengthValid past s) :
    LengthValid (past ++ [⟨s, i⟩]) (posedge true s i) ↔ KeepsOrder past ⟨s, i⟩ := by
  unfold KeepsOrder
  cases trigger : i.nresetTrigger with
  | false => exact iff_of_true (lengthValid_low trigger) fun high => by cases high
  | true =>
    cases start : starts (past.getLast?, ⟨s, i⟩) with
    | true =>
      rw [lengthValid_start trigger start]
      constructor
      · intro ordered _
        refine ⟨fun _ => ordered, fun onward => ?_⟩
        rw [start] at onward
        cases onward
      · exact fun ordered => (ordered rfl).start start
    | false =>
      rw [inv.onward trigger start]
      constructor
      · intro ordered _
        refine ⟨fun fires => ?_, fun _ => ordered⟩
        rw [start] at fires
        cases fires
      · exact fun ordered => (ordered rfl).low start

/-- The pulse length wraps in no state of a run exactly when every clock keeps the two stamps in
order. -/
theorem run_lengthValid_iff (run : (circuit w).Run past s) :
    (LengthValid past s ∧ Held (fun before c => LengthValid before c.regs) past) ↔
      Held KeepsOrder past := by
  refine run.throughout_iff ?_ ?_
  · rintro s - ⟨⟩
  · intro past s i _ inv
    exact lengthValid_step inv

/-- A pulse that only touches the level: 100 on each channel against 200. -/
def touching : List AdcPins :=
  { sampled 1 99 with triggerLevel := 200 } ::
    List.replicate 6 { sampled 1 0 with triggerLevel := 200 }

theorem run_lengthValid_iff_touching :
    LengthValid ((circuit 14).trace fresh touching) ((circuit 14).after fresh touching) ∧
    ((circuit 14).after fresh touching).firstTrigged = 3 ∧
    ((circuit 14).after fresh touching).lastDetrigged = 4 :=
  ⟨((run_lengthValid_iff (run_trace fresh_reset touching)).mpr (by decide +kernel)).1,
    by decide +kernel, by decide +kernel⟩

/-- A pulse above the level, read in the clock after its series starts. -/
theorem onePulse_wraps :
    (circuit 14).Run ((circuit 14).trace fresh (pulses 1 [3]))
      ((circuit 14).after fresh (pulses 1 [3])) ∧
    (firstTrigger ((circuit 14).trace fresh (pulses 1 [3]))).isSome = true ∧
    ((circuit 14).after fresh (pulses 1 [3])).lastDetrigged <
      ((circuit 14).after fresh (pulses 1 [3])).firstTrigged ∧
    ¬ LengthValid ((circuit 14).trace fresh (pulses 1 [3]))
      ((circuit 14).after fresh (pulses 1 [3])) := by
  have triggered : (firstTrigger ((circuit 14).trace fresh (pulses 1 [3]))).isSome = true := by
    decide +kernel
  have wraps : ((circuit 14).after fresh (pulses 1 [3])).lastDetrigged <
      ((circuit 14).after fresh (pulses 1 [3])).firstTrigged := by
    decide +kernel
  refine ⟨run_trace fresh_reset _, triggered, wraps, fun valid => ?_⟩
  exact absurd (valid triggered) (Nat.not_le.mpr (BitVec.lt_def.mp wraps))

end Switcheck.Adc
