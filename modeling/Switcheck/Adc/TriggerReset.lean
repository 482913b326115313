import Switcheck.Adc.Series

/-!
# Trigger reset

The `nreset_trigger` branch clears the trigger but not `m_axis_tvalid`: a word under way when a
pulse starts is presented again in every clock of the pulse, and `samples_sent` does not see it.
A pulse that starts between two series leaves the series whole.
-/

namespace Switcheck.Adc

open Sync Circuit

variable {w : Nat} {limiter : BitVec 8} {past : List (Tick w)} {s : Adc w} {i : AdcPins}

def InTriggerReset (past : List (Tick w)) : Prop :=
  ∃ c, past.getLast? = some c ∧ c.pins.nresetTrigger = false

structure Consistent (past : List (Tick w)) (s : Adc w) : Prop where
  sent : s.samplesSent = BitVec.ofNat 32 (presented past s).length
  silent : InTriggerReset past → s.mAxisTvalid = false
  released : ∀ c, past.getLast? = some c → c.pins.nresetTrigger = false →
    c.regs.mAxisTvalid = true → s.mAxisTlast = false

/-- No word is presented in a clock of a pulse. -/
def SilentPulse (_ : List (Tick w)) (c : Tick w) : Prop :=
  c.pins.nresetTrigger = false → c.regs.mAxisTvalid = false

/-- Every pulse of `nreset_trigger` starts in a clock that presents no word. -/
def PulseWhenIdle (before : List (Tick w)) (c : Tick w) : Prop :=
  c.pins.nresetTrigger = false → ¬ InTriggerReset before → c.regs.mAxisTvalid = false

instance (past : List (Tick w)) : Decidable (InTriggerReset past) :=
  match last : past.getLast? with
  | none => isFalse (by simp [InTriggerReset, last])
  | some c => decidable_of_iff (c.pins.nresetTrigger = false) (by simp [InTriggerReset, last])

instance (before : List (Tick w)) (c : Tick w) : Decidable (PulseWhenIdle before c) :=
  inferInstanceAs (Decidable (_ → _ → _))

theorem inTriggerReset_snoc (c : Tick w) :
    InTriggerReset (past ++ [c]) ↔ c.pins.nresetTrigger = false := by
  simp [InTriggerReset]

theorem consistent_reset (reset : (circuit w).Reset s) : Consistent [] s := by
  obtain ⟨s₀, i, rfl⟩ := reset
  refine ⟨rfl, fun _ => rfl, ?_⟩
  rintro c ⟨⟩

theorem posedge_sent (high : i.nresetTrigger = true) :
    (posedge true s i).samplesSent =
      s.samplesSent + BitVec.ofNat 32 (posedge true s i).word.length := by
  cases on : s.triggerNow i with
  | true =>
    obtain ⟨word, -, sent, -⟩ := posedge_send high on
    rw [sent, word]
    rfl
  | false =>
    obtain ⟨word, -, sent, -⟩ := posedge_idle high on
    rw [sent, word]
    exact (BitVec.add_zero _).symm

theorem Consistent.silentPulse (inv : Consistent past s) (idle : PulseWhenIdle past ⟨s, i⟩) :
    SilentPulse past ⟨s, i⟩ := by
  intro low
  by_cases before : InTriggerReset past
  · exact inv.silent before
  · exact idle low before

theorem consistent_step (inv : Consistent past s) (idle : PulseWhenIdle past ⟨s, i⟩) :
    Consistent (past ++ [⟨s, i⟩]) (posedge true s i) := by
  have length : (presented (past ++ [⟨s, i⟩]) (posedge true s i)).length =
      (presented past s).length + (posedge true s i).word.length := by
    rw [presented_snoc, List.length_append]
  cases trigger : i.nresetTrigger with
  | true =>
    refine ⟨?_, ?_, ?_⟩
    · rw [posedge_sent trigger, length, BitVec.ofNat_add, inv.sent]
    · intro low
      rw [inTriggerReset_snoc, trigger] at low
      cases low
    · intro c last low
      simp only [List.getLast?_append, List.getLast?_singleton, Option.some_or,
        Option.some.injEq] at last
      rw [← last, trigger] at low
      cases low
  | false =>
    obtain ⟨valid, tlast, -, sent⟩ := posedge_held (s := s) trigger
    have none : s.mAxisTvalid = false := inv.silentPulse idle trigger
    refine ⟨?_, fun _ => valid.trans none, ?_⟩
    · rw [sent, length, posedge_low_word trigger none]
      exact inv.sent
    · intro c last _ active
      simp only [List.getLast?_append, List.getLast?_singleton, Option.some_or,
        Option.some.injEq] at last
      rw [← last, none] at active
      cases active

theorem run_consistent (run : (circuit w).Run past s) (idle : Held PulseWhenIdle past) :
    Consistent past s ∧ Held (fun before c => Consistent before c.regs) past :=
  run.entails (fun _ reset => consistent_reset reset) (fun _ _ _ _ inv _ => inv)
    (fun _ _ _ _ inv idle _ => consistent_step inv idle) idle

theorem run_silentPulse (run : (circuit w).Run past s) (idle : Held PulseWhenIdle past) :
    Held SilentPulse past :=
  (run.entails (fun _ reset => consistent_reset reset)
    (fun _ _ _ _ inv idle => inv.silentPulse idle)
    (fun _ _ _ _ inv idle _ => consistent_step inv idle) idle).2

/-- With a constant limiter the words presented are whole series and the one under way. -/
theorem run_cut (run : (circuit w).Run past s) (idle : Held PulseWhenIdle past)
    (same : Held (fun _ c => c.pins.limiter = limiter) past) : Cut limiter past s := by
  refine run.invariant (fun _ reset => cut_reset reset) ?_
    (held_and.mpr ⟨run_silentPulse run idle, same⟩)
  intro past s i _ cut ⟨silent, same⟩
  cases trigger : i.nresetTrigger with
  | false => exact cut.low trigger (silent trigger)
  | true =>
    cases on : s.triggerNow i with
    | true => exact cut_send cut ⟨trigger, same⟩ on
    | false => exact cut.idle trigger on

theorem pulseWhenIdle_of_consistent (inv : Consistent (past ++ [⟨s, i⟩]) (posedge true s i)) :
    PulseWhenIdle past ⟨s, i⟩ := by
  intro low _
  rw [← (posedge_held (s := s) low).1]
  exact inv.silent ((inTriggerReset_snoc _).mpr low)

/-- The stream stays consistent with `samples_sent` exactly when no pulse starts on a word. -/
theorem run_consistent_iff (run : (circuit w).Run past s) :
    (Consistent past s ∧ Held (fun before c => Consistent before c.regs) past) ↔
      Held PulseWhenIdle past := by
  refine run.throughout_iff (fun _ reset => consistent_reset reset) ?_
  intro past s i _ inv
  exact ⟨pulseWhenIdle_of_consistent, consistent_step inv⟩

def pulsed (k : Nat) : List AdcPins :=
  List.replicate k (quiet 1) ++ List.replicate 2 { quiet 1 with nresetTrigger := false } ++
    [quiet 1, quiet 1]

theorem run_consistent_iff_atIdle :
    Consistent ((circuit 14).trace fresh (pulsed 0)) ((circuit 14).after fresh (pulsed 0)) :=
  ((run_consistent_iff (run_trace fresh_reset (pulsed 0))).mpr (by decide +kernel)).1

/-- A pulse after the first word of a series presents that word three times, counted once. A
pulse on the last word leaves `m_axis_tlast` up. -/
theorem midSeries_repeats :
    (circuit 14).Run ((circuit 14).trace fresh ((pulsed 1).take 3))
      ((circuit 14).after fresh ((pulsed 1).take 3)) ∧
    ¬ Consistent ((circuit 14).trace fresh ((pulsed 1).take 3))
      ((circuit 14).after fresh ((pulsed 1).take 3)) ∧
    ((circuit 14).after fresh ((pulsed 1).take 3)).samplesSent = 1 ∧
    (presented ((circuit 14).trace fresh ((pulsed 1).take 3))
      ((circuit 14).after fresh ((pulsed 1).take 3))).length = 3 ∧
    ((circuit 14).after fresh ((pulsed 2).take 4)).mAxisTlast = true := by
  refine ⟨run_trace fresh_reset _, ?_, by decide +kernel, by decide +kernel, by decide +kernel⟩
  intro consistent
  exact absurd (consistent.silent ⟨_, rfl, rfl⟩) (by decide +kernel)

end Switcheck.Adc
