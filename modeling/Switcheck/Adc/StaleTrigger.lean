import Switcheck.Adc.Tags
import Switcheck.Adc.Timestamps

/-!
# Samples from before a trigger reset

The capture pipeline stands still while `nreset_trigger` is low and goes on where it stopped: the
first three samples judged afterwards were captured before.
-/

namespace Switcheck.Adc

open Sync Circuit

variable {w : Nat} {past : List (Tick w)} {s : Adc w} {i : AdcPins}

def capturedPair (c : Tick w) : SamplePair w :=
  ⟨captured w c.pins.adcDatA, captured w c.pins.adcDatB⟩

/-- The pair in `sum_abs`, the last but two captured, comes from a clock after the last one with
`nreset_trigger` low. -/
def CapturedSince (past : List (Tick w)) (s : Adc w) : Prop :=
  ∃ before c later, past = before ++ c :: later ∧ (samples later).length = 2 ∧
    s.sumAbs.toNat = (capturedPair c).sum ∧ ∀ d ∈ c :: later, d.pins.nresetTrigger = true

def StartsFresh (before : List (Tick w)) (c : Tick w) : Prop :=
  c.pins.nresetTrigger = true → starts (before.getLast?, c) = true → CapturedSince before c.regs

/-- In the first three clocks after one with `nreset_trigger` low, or after reset, the pair captured
last but two is below the level. -/
def QuietRelease (before : List (Tick w)) (c : Tick w) : Prop :=
  c.pins.nresetTrigger = true → (sinceReset before).length < 3 →
    (pairAgo before 2).sum < c.pins.triggerLevel.toNat

instance (before : List (Tick w)) (c : Tick w) : Decidable (QuietRelease before c) :=
  inferInstanceAs (Decidable (_ → _ → _))

/-! ### The clocks since the trigger reset -/

theorem samples_length_high {later : List (Tick w)}
    (high : ∀ d ∈ later, d.pins.nresetTrigger = true) :
    (samples later).length = later.length := by
  unfold samples
  rw [List.filter_eq_self.mpr high, List.length_map]

theorem sinceReset_length_append (before : List (Tick w)) {later : List (Tick w)}
    (high : ∀ d ∈ later, d.pins.nresetTrigger = true) :
    (sinceReset (before ++ later)).length = (sinceReset before).length + later.length := by
  induction later using List.reverseRecOn with
  | nil => simp
  | append_singleton later d ih =>
    have last : d.pins.nresetTrigger = true := high d (by simp)
    rw [← List.append_assoc, sinceReset_snoc, if_pos last, List.length_append,
      ih fun e member => high e (List.mem_append_left _ member), List.length_append,
      List.length_singleton, List.length_singleton, Nat.add_assoc]

theorem sinceReset_split {n : Nat} (long : n ≤ (sinceReset past).length) :
    ∃ before later, past = before ++ later ∧ later.length = n ∧
      ∀ d ∈ later, d.pins.nresetTrigger = true := by
  induction past using List.reverseRecOn generalizing n with
  | nil =>
    obtain rfl : n = 0 := Nat.le_zero.mp long
    exact ⟨[], [], rfl, rfl, by simp⟩
  | append_singleton past c ih =>
    cases n with
    | zero => exact ⟨past ++ [c], [], (List.append_nil _).symm, rfl, by simp⟩
    | succ n =>
      rw [sinceReset_snoc] at long
      split at long
      · rename_i high
        rw [List.length_append, List.length_singleton] at long
        obtain ⟨before, later, rfl, length, highs⟩ := ih (Nat.le_of_succ_le_succ long)
        refine ⟨before, later ++ [c], List.append_assoc .., by simp [length], ?_⟩
        intro d member
        rcases List.mem_append.mp member with earlier | now
        · exact highs d earlier
        · rw [List.mem_singleton.mp now]
          exact high
      · cases long

theorem pairAgo_captured_at (before later : List (Tick w)) {c : Tick w}
    (high : c.pins.nresetTrigger = true) :
    pairAgo (before ++ c :: later) (samples later).length = capturedPair c := by
  induction later using List.reverseRecOn with
  | nil => exact (pairAgo_captured before c high).1
  | append_singleton later d ih =>
    rw [← List.cons_append, ← List.append_assoc]
    cases trigger : d.pins.nresetTrigger with
    | false =>
      have same : samples (later ++ [d]) = samples later := by simp [samples, trigger]
      rw [same, pairAgo_held _ d trigger, ih]
    | true =>
      have grown : (samples (later ++ [d])).length = (samples later).length + 1 := by
        simp [samples, trigger]
      rw [grown, (pairAgo_captured _ d trigger).2, ih]

theorem judged_captured {before later : List (Tick w)} {c : Tick w}
    (run : (circuit w).Run (before ++ c :: later) s) (two : (samples later).length = 2)
    (high : c.pins.nresetTrigger = true) :
    s.sumAbs.toNat = (capturedPair c).sum := by
  have pair := pairAgo_captured_at before later high
  rw [two] at pair
  rw [(run_pipeline run).sum, pair]

theorem capturedSince_iff (run : (circuit w).Run past s) :
    CapturedSince past s ↔ 3 ≤ (sinceReset past).length := by
  constructor
  · rintro ⟨before, c, later, rfl, two, -, high⟩
    have length : later.length = 2 := by
      rw [← two, samples_length_high fun d member => high d (List.mem_cons_of_mem _ member)]
    rw [sinceReset_length_append before high, List.length_cons, length]
    exact Nat.le_add_left 3 _
  · intro long
    obtain ⟨before, later, rfl, length, high⟩ := sinceReset_split long
    cases later with
    | nil => cases length
    | cons c later =>
      have two : (samples later).length = 2 := by
        rw [samples_length_high fun d member => high d (List.mem_cons_of_mem _ member)]
        exact Nat.succ.inj length
      exact ⟨before, c, later, rfl, two,
        judged_captured run two (high c List.mem_cons_self), high⟩

/-! ### The first three clocks -/

theorem starts_iff (e : Option (Tick w)) :
    starts (e, ⟨s, i⟩) = true ↔ s.levelReached i = true ∧ s.triggerActivated = false := by
  unfold starts triggerNow
  cases s.triggerActivated <;> simp

theorem posedge_activated_low (low : i.nresetTrigger = false) :
    (posedge true s i).triggerActivated = false := by
  simp [posedge, low]

/-- While every series so far has started on a fresh pair, none is under way in the first three
clocks. -/
theorem run_idle (run : (circuit w).Run past s) (fresh : Held StartsFresh past)
    (few : (sinceReset past).length ≤ 3) : s.triggerActivated = false := by
  induction run with
  | reset reset =>
    obtain ⟨s₀, i, rfl⟩ := reset
    rfl
  | @tick past s run i ih =>
    obtain ⟨before, now⟩ := (held_snoc _ _ _).mp fresh
    cases trigger : i.nresetTrigger with
    | false => exact posedge_activated_low trigger
    | true =>
      rw [sinceReset_snoc, if_pos trigger, List.length_append, List.length_singleton] at few
      have idle : s.triggerActivated = false := ih before (by omega)
      have quiet : s.triggerNow i = false := by
        refine Bool.eq_false_iff.mpr fun on => ?_
        have reached : s.levelReached i = true := by
          rwa [triggerNow, idle, Bool.or_false] at on
        have long := (capturedSince_iff run).mp
          (now trigger ((starts_iff past.getLast?).mpr ⟨reached, idle⟩))
        omega
      exact ((posedge_idle trigger quiet).2.2.2.1).trans idle

/-- No series starts on a pair captured before the last trigger reset ended exactly when the three
pairs the pipeline keeps over it are all below the level when it goes on. -/
theorem run_startsFresh_iff (run : (circuit w).Run past s) :
    Held StartsFresh past ↔ Held QuietRelease past := by
  constructor
  · refine run.derive ?_
    intro past s i run fresh now high few
    refine Nat.lt_of_not_le fun reached => ?_
    have idle := run_idle run fresh (Nat.le_of_lt few)
    have start := (starts_iff (i := i) past.getLast?).mpr
      ⟨(levelReached_iff (run_pipeline run)).mpr reached, idle⟩
    exact absurd ((capturedSince_iff run).mp (now high start)) (Nat.not_le.mpr few)
  · refine run.derive ?_
    intro past s i run _ quiet high start
    obtain ⟨reached, -⟩ := (starts_iff past.getLast?).mp start
    refine (capturedSince_iff run).mpr (Nat.le_of_not_lt fun few => ?_)
    exact absurd (quiet high few) (Nat.not_lt.mpr ((levelReached_iff (run_pipeline run)).mp reached))

/-- A trigger reset of one clock. -/
def released (before after : BitVec 16) : List AdcPins :=
  [sampled 1 before, { sampled 1 0 with nresetTrigger := false }, sampled 1 after, sampled 1 0,
    sampled 1 0, sampled 1 0]

theorem run_startsFresh_iff_released :
    Held StartsFresh ((circuit 14).trace fresh (released 0 200)) ∧
    ((circuit 14).after fresh (released 0 200)).triggersCount = 1 :=
  ⟨(run_startsFresh_iff (run_trace fresh_reset (released 0 200))).mpr (by decide +kernel),
    by decide +kernel⟩

/-- A pulse captured before the trigger reset starts a series three clocks after it, though the bus
has been quiet since. -/
theorem released_stale :
    (circuit 14).Run ((circuit 14).trace fresh (released 200 0))
      ((circuit 14).after fresh (released 200 0)) ∧
    ((circuit 14).after fresh (released 200 0)).triggersCount = 1 ∧
    ¬ Held StartsFresh ((circuit 14).trace fresh (released 200 0)) := by
  refine ⟨run_trace fresh_reset _, by decide +kernel, fun held => ?_⟩
  have pins : released 200 0 = (released 200 0).take 4 ++ [sampled 1 0] ++ [sampled 1 0] := rfl
  rw [pins, trace_snoc, trace_snoc, held_snoc, held_snoc] at held
  have since := held.1.2 rfl (by decide +kernel)
  have few : (sinceReset ((circuit 14).trace fresh ((released 200 0).take 4))).length = 2 := by
    decide +kernel
  rw [capturedSince_iff (run_trace fresh_reset _), few] at since
  exact absurd since (by decide)

end Switcheck.Adc
