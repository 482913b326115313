import Switcheck.Sync.Framing
import Switcheck.Adc.Core

/-!
# Pulse timestamps

What `first_trigged` and `last_detrigged` are due by the clocks since `nreset_trigger` was last
low, each clock taken with the one before it: the first trigger, and the last crossing to or
below the level.
-/

namespace Switcheck.Adc

open Sync Circuit

variable {w : Nat} {past : List (Tick w)} {s : Adc w} {i : AdcPins}

abbrev Edge (w : Nat) := Option (Tick w) × Tick w

def edges : Option (Tick w) → List (Tick w) → List (Edge w)
  | _, [] => []
  | before, c :: past => (before, c) :: edges (some c) past

/-- The clocks since `nreset_trigger` was last low. -/
def sinceReset (past : List (Tick w)) : List (Edge w) :=
  rest (fun e => !e.2.pins.nresetTrigger) (edges none past)

def starts (e : Edge w) : Bool := e.2.regs.triggerNow e.2.pins && !e.2.regs.triggerActivated

/-- A word is sent, `sum_abs` is not above the level and was above it a clock before. -/
def crosses (e : Edge w) : Bool :=
  e.2.regs.triggerNow e.2.pins && e.2.regs.levelLeft e.2.pins &&
    e.1.any fun d => !d.regs.levelLeft d.pins

def stamp (e : Edge w) : BitVec 64 := e.2.regs.sampleCounter

def firstTrigger (past : List (Tick w)) : Option (BitVec 64) :=
  ((sinceReset past).find? starts).map stamp

def lastCrossing (past : List (Tick w)) : BitVec 64 :=
  (((sinceReset past).filter crosses).getLast?.map stamp).getD 0

structure Stamped (past : List (Tick w)) (s : Adc w) : Prop where
  first : ∀ t ∈ firstTrigger past, s.firstTrigged = t
  last : s.lastDetrigged = lastCrossing past

/-- What this clock stamps is due: a series that starts is the first since the trigger reset, and
a low sample in a series is a crossing, unless the stamp is the one that is due anyway. -/
structure StampsDue (before : List (Tick w)) (c : Tick w) : Prop where
  first : starts (before.getLast?, c) = true → ∀ t ∈ firstTrigger before, c.regs.sampleCounter = t
  last : c.regs.triggerNow c.pins = true → c.regs.levelLeft c.pins = true →
    crosses (before.getLast?, c) = true ∨ c.regs.sampleCounter = lastCrossing before

/-- The condition on a clock: what it stamps is due, if the trigger is out of reset. -/
def OnlyDueStamps (before : List (Tick w)) (c : Tick w) : Prop :=
  c.pins.nresetTrigger = true → StampsDue before c

instance (before : List (Tick w)) (c : Tick w) : Decidable (StampsDue before c) :=
  decidable_of_iff ((starts (before.getLast?, c) = true →
      (firstTrigger before).all (fun t => c.regs.sampleCounter == t) = true) ∧
    (c.regs.triggerNow c.pins = true → c.regs.levelLeft c.pins = true →
      crosses (before.getLast?, c) = true ∨ c.regs.sampleCounter = lastCrossing before))
    ⟨fun ⟨first, last⟩ => ⟨by simpa [Option.all_eq_true] using first, last⟩,
      fun ⟨first, last⟩ => ⟨by simpa [Option.all_eq_true] using first, last⟩⟩

instance (before : List (Tick w)) (c : Tick w) : Decidable (OnlyDueStamps before c) :=
  inferInstanceAs (Decidable (_ → _))

/-! ### The clocks since the trigger reset -/

theorem edges_snoc (before : Option (Tick w)) (past : List (Tick w)) (c : Tick w) :
    edges before (past ++ [c]) = edges before past ++ [(past.getLast?.or before, c)] := by
  induction past generalizing before with
  | nil => rfl
  | cons d past ih =>
    rw [List.cons_append, edges, ih, edges, List.getLast?_cons]
    cases past.getLast? <;> rfl

theorem sinceReset_snoc (past : List (Tick w)) (c : Tick w) :
    sinceReset (past ++ [c]) =
      if c.pins.nresetTrigger then sinceReset past ++ [(past.getLast?, c)] else [] := by
  rw [sinceReset, edges_snoc, rest_snoc, Option.or_none]
  cases c.pins.nresetTrigger <;> rfl

theorem firstTrigger_low (past : List (Tick w)) {c : Tick w} (low : c.pins.nresetTrigger = false) :
    firstTrigger (past ++ [c]) = none := by
  rw [firstTrigger, sinceReset_snoc, low]
  rfl

theorem firstTrigger_high (past : List (Tick w)) {c : Tick w}
    (high : c.pins.nresetTrigger = true) :
    firstTrigger (past ++ [c]) = (firstTrigger past).or
      (if starts (past.getLast?, c) then some c.regs.sampleCounter else none) := by
  rw [firstTrigger, sinceReset_snoc, if_pos high, List.find?_append, firstTrigger]
  cases (sinceReset past).find? starts with
  | some e => rfl
  | none => cases first : starts (past.getLast?, c) <;> simp [first, stamp]

theorem lastCrossing_low (past : List (Tick w)) {c : Tick w} (low : c.pins.nresetTrigger = false) :
    lastCrossing (past ++ [c]) = 0 := by
  rw [lastCrossing, sinceReset_snoc, low]
  rfl

theorem lastCrossing_high {c : Tick w} (high : c.pins.nresetTrigger = true) :
    lastCrossing (past ++ [c]) =
      if crosses (past.getLast?, c) then c.regs.sampleCounter else lastCrossing past := by
  rw [lastCrossing, sinceReset_snoc, if_pos high, List.filter_append, lastCrossing]
  cases last : crosses (past.getLast?, c) <;> simp [last, stamp]

/-! ### What one clock stamps -/

theorem posedge_stamps_low (low : i.nresetTrigger = false) :
    (posedge true s i).firstTrigged = 0 ∧ (posedge true s i).lastDetrigged = 0 := by
  simp [posedge, low]

theorem posedge_stamps (high : i.nresetTrigger = true) :
    (posedge true s i).firstTrigged =
      (if s.triggerNow i && !s.triggerActivated then s.sampleCounter else s.firstTrigged) ∧
    (posedge true s i).lastDetrigged =
      (if s.triggerNow i && s.levelLeft i then s.sampleCounter else s.lastDetrigged) := by
  cases on : s.triggerNow i <;> simp [posedge, high, on]

theorem stamped_reset (reset : (circuit w).Reset s) : Stamped [] s := by
  obtain ⟨s₀, i, rfl⟩ := reset
  refine ⟨?_, rfl⟩
  rintro t ⟨⟩

theorem Stamped.first_step (inv : Stamped past s) (high : i.nresetTrigger = true) :
    (∀ t ∈ firstTrigger (past ++ [⟨s, i⟩]), (posedge true s i).firstTrigged = t) ↔
      (starts (past.getLast?, ⟨s, i⟩) = true → ∀ t ∈ firstTrigger past, s.sampleCounter = t) := by
  have grows := firstTrigger_high past (c := ⟨s, i⟩) high
  rw [grows, (posedge_stamps high).1]
  cases first : starts (past.getLast?, ⟨s, i⟩) with
  | false =>
    have quiet : (s.triggerNow i && !s.triggerActivated) = false := first
    refine iff_of_true (fun t found => ?_) fun on => by cases on
    rw [quiet]
    exact inv.first t (by simpa using found)
  | true =>
    have fires : (s.triggerNow i && !s.triggerActivated) = true := first
    rw [fires, if_pos rfl, if_pos rfl]
    cases firstTrigger past with
    | none => simp
    | some t => simp

theorem Stamped.last_step (inv : Stamped past s) (high : i.nresetTrigger = true) :
    (posedge true s i).lastDetrigged = lastCrossing (past ++ [⟨s, i⟩]) ↔
      (s.triggerNow i = true → s.levelLeft i = true →
        crosses (past.getLast?, ⟨s, i⟩) = true ∨ s.sampleCounter = lastCrossing past) := by
  rw [lastCrossing_high (c := ⟨s, i⟩) high, (posedge_stamps high).2, inv.last]
  cases low : s.triggerNow i && s.levelLeft i with
  | false =>
    have none : crosses (past.getLast?, ⟨s, i⟩) = false := by simp [crosses, low]
    refine iff_of_true (by rw [none]) fun on left => ?_
    rw [on, left] at low
    cases low
  | true =>
    obtain ⟨on, left⟩ := (Bool.and_eq_true _ _).mp low
    cases crosses (past.getLast?, ⟨s, i⟩) <;> simp [on, left]

theorem stamped_step (inv : Stamped past s) :
    Stamped (past ++ [⟨s, i⟩]) (posedge true s i) ↔ OnlyDueStamps past ⟨s, i⟩ := by
  cases trigger : i.nresetTrigger with
  | false =>
    obtain ⟨-, last⟩ := posedge_stamps_low (s := s) trigger
    have none := firstTrigger_low past (c := ⟨s, i⟩) trigger
    have zero := lastCrossing_low past (c := ⟨s, i⟩) trigger
    refine iff_of_true ⟨fun t found => ?_, last.trans zero.symm⟩ fun high => ?_
    · rw [none] at found
      cases found
    · rw [trigger] at high
      cases high
  | true =>
    constructor
    · exact fun ⟨first, last⟩ _ =>
        ⟨(inv.first_step trigger).mp first, (inv.last_step trigger).mp last⟩
    · intro due
      obtain ⟨first, last⟩ := due trigger
      exact ⟨(inv.first_step trigger).mpr first, (inv.last_step trigger).mpr last⟩

/-- The two stamps are the first trigger and the last crossing in every state of a run exactly
when no clock stamps another one. -/
theorem run_stamped_iff (run : (circuit w).Run past s) :
    (Stamped past s ∧ Held (fun before c => Stamped before c.regs) past) ↔
      Held OnlyDueStamps past := by
  refine run.throughout_iff (fun _ reset => stamped_reset reset) ?_
  intro past s i _ inv
  exact stamped_step inv

theorem run_stamped_iff_onePulse :
    Stamped ((circuit 14).trace fresh (pulses 1 [7])) ((circuit 14).after fresh (pulses 1 [7])) ∧
    ((circuit 14).after fresh (pulses 1 [7])).firstTrigged = 3 ∧
    ((circuit 14).after fresh (pulses 1 [7])).lastDetrigged = 4 :=
  ⟨((run_stamped_iff (run_trace fresh_reset (pulses 1 [7]))).mpr (by decide +kernel)).1,
    by decide +kernel, by decide +kernel⟩

/-- A second pulse moves `first_trigged` from 3 to 11, and in a series of four words
`last_detrigged` follows the samples below the level from 4 to 6. -/
theorem pulses_restamp :
    (circuit 14).Run ((circuit 14).trace fresh (pulses 1 [7, 7]))
      ((circuit 14).after fresh (pulses 1 [7, 7])) ∧
    ¬ Stamped ((circuit 14).trace fresh (pulses 1 [7, 7]))
      ((circuit 14).after fresh (pulses 1 [7, 7])) ∧
    firstTrigger ((circuit 14).trace fresh (pulses 1 [7, 7])) = some 3 ∧
    ((circuit 14).after fresh (pulses 1 [7, 7])).firstTrigged = 11 ∧
    (circuit 14).Run ((circuit 14).trace fresh (pulses 2 [7]))
      ((circuit 14).after fresh (pulses 2 [7])) ∧
    lastCrossing ((circuit 14).trace fresh (pulses 2 [7])) = 4 ∧
    ((circuit 14).after fresh (pulses 2 [7])).lastDetrigged = 6 := by
  have due : firstTrigger ((circuit 14).trace fresh (pulses 1 [7, 7])) = some 3 := by
    decide +kernel
  have kept : ((circuit 14).after fresh (pulses 1 [7, 7])).firstTrigged = 11 := by
    decide +kernel
  refine ⟨run_trace fresh_reset _, ?_, due, kept, run_trace fresh_reset _, by decide +kernel,
    by decide +kernel⟩
  intro stamped
  have same := stamped.first 3 due
  rw [kept] at same
  exact absurd same (by decide)

end Switcheck.Adc
