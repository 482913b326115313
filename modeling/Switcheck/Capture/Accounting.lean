import Switcheck.Capture.Chain

/-!
# Where the samples go

Every word the ADC presents is written into the FIFO, or dropped because the FIFO is full in
that clock. What is read out of the FIFO and what it holds are the words written, in order.
-/

namespace Switcheck.Capture

open Sync Circuit

variable {w : Nat} {α R : Type} {p : WriterParams (BitVec 32) α R}
variable {past : List (Tick w p)} {s : Capture w p}

def kept (c : Tick w p) : List (Bool × BitVec 32) :=
  if c.regs.writer.sAxisTready then c.regs.adc.word else []

def dropped (c : Tick w p) : List (Bool × BitVec 32) :=
  if c.regs.writer.sAxisTready then [] else c.regs.adc.word

def lanesOf (p : WriterParams (BitVec 32) α R) (words : List (Bool × BitVec 32)) : List α :=
  words.flatMap fun x => p.packing.lanes x.2

def NeverFull (_ : List (Tick w p)) (c : Tick w p) : Prop :=
  c.regs.adc.mAxisTvalid = true → c.regs.writer.sAxisTready = true

instance (before : List (Tick w p)) (c : Tick w p) : Decidable (NeverFull before c) :=
  inferInstanceAs (Decidable (_ → _))

structure Accounted (past : List (Tick w p)) (s : Capture w p) : Prop where
  stored : (past.map writerClock).flatMap RamWriter.read ++ s.writer.fifo0 =
    lanesOf p (past.flatMap kept)
  sent : Held RamWriter.NoUnderflow (past.map writerClock) →
    ((past.map writerClock).flatMap RamWriter.wBeat ++ s.writer.buf1.held).map Prod.snd ++
      p.packing.words s.writer.fifo0 = p.packing.words (lanesOf p (past.flatMap kept))
  whole : Held NeverFull past ↔ past.flatMap kept = past.flatMap fun c => c.regs.adc.word
  counted : Held Adc.PulseWhenIdle (past.map adcClock) → s.adc.samplesSent =
    BitVec.ofNat 32 ((past.flatMap kept).length + (past.flatMap dropped).length +
      s.adc.word.length)

theorem accepted_eq (c : Tick w p) : RamWriter.accepted (writerClock c) = lanesOf p (kept c) := by
  cases valid : c.regs.adc.mAxisTvalid <;> cases room : c.regs.writer.intFullWire <;>
    simp_all [RamWriter.accepted, writerClock, writerPins, Packing.pushed, lanesOf, kept,
      Adc.word, RamWriter.sAxisTready, RamWriter.intFullWire]

theorem flatMap_accepted (past : List (Tick w p)) :
    (past.map writerClock).flatMap RamWriter.accepted = lanesOf p (past.flatMap kept) := by
  rw [List.flatMap_map, lanesOf, List.flatMap_assoc]
  exact List.flatMap_congr fun c _ => accepted_eq c

theorem kept_dropped (c : Tick w p) :
    (kept c).length + (dropped c).length = c.regs.adc.word.length := by
  unfold kept dropped
  split <;> simp

theorem kept_dropped_length (past : List (Tick w p)) :
    (past.flatMap kept).length + (past.flatMap dropped).length =
      (past.flatMap fun c => c.regs.adc.word).length := by
  induction past with
  | nil => rfl
  | cons c rest ih =>
    have now := kept_dropped c
    simp only [List.flatMap_cons, List.length_append]
    omega

theorem neverFull_iff (before : List (Tick w p)) (c : Tick w p) :
    NeverFull before c ↔ kept c = c.regs.adc.word := by
  unfold NeverFull kept
  cases c.regs.writer.sAxisTready <;> cases valid : c.regs.adc.mAxisTvalid <;>
    simp [Adc.word, valid]

/-- A word that meets a full FIFO is missing for ever. -/
theorem neverFull_iff_whole (past : List (Tick w p)) :
    Held NeverFull past ↔ past.flatMap kept = past.flatMap fun c => c.regs.adc.word := by
  have less (c : Tick w p) : (kept c).length ≤ c.regs.adc.word.length :=
    kept_dropped c ▸ Nat.le_add_right _ _
  rw [flatMap_eq_iff_held less]
  exact ⟨Held.mono fun before c => (neverFull_iff before c).mp,
    Held.mono fun before c => (neverFull_iff before c).mpr⟩

theorem presented_adcClock (past : List (Tick w p)) (s : Capture w p) :
    Adc.presented (past.map adcClock) s.adc =
      (past.flatMap fun c => c.regs.adc.word) ++ s.adc.word := by
  rw [Adc.presented, List.flatMap_map]
  rfl

theorem run_samplesSent (run : (circuit w p).Run past s)
    (idle : Held Adc.PulseWhenIdle (past.map adcClock)) :
    s.adc.samplesSent = BitVec.ofNat 32 ((past.flatMap kept).length +
      (past.flatMap dropped).length + s.adc.word.length) := by
  rw [kept_dropped_length, ← List.length_append, ← presented_adcClock]
  exact (Adc.run_consistent (run_adc run) idle).1.sent

/-- Words kept are stored or sent in order, words presented to a full FIFO are dropped, and
`samples_sent` counts both. -/
theorem run_accounted (run : (circuit w p).Run past s) : Accounted past s := by
  have stored := RamWriter.run_fifo (run_writer run)
  rw [flatMap_accepted] at stored
  refine ⟨stored, fun sound => ?_, neverFull_iff_whole past, run_samplesSent run⟩
  obtain ⟨whole, same⟩ := RamWriter.run_handed_words (run_writer run) sound
  rw [RamWriter.run_wBeat (run_writer run), same, ← p.packing.words_append _ whole, stored]

/-! ### A stalled memory port -/

/-- While the port is stalled the chain keeps no more than the FIFO and the data buffer hold. -/
theorem stalled_length_le (run : (circuit w p).Run past s)
    (stalled : Held (fun _ c => c.pins.mAxiWready = false) past) :
    ((past.map writerClock).flatMap RamWriter.read ++ s.writer.fifo0).length ≤
      p.packing.rdLanes + p.fifoWriteDepth * p.packing.wrLanes := by
  have none : (past.map writerClock).flatMap RamWriter.wBeat = [] := by
    clear run
    induction past using List.reverseRecOn with
    | nil => rfl
    | append_singleton past c ih =>
      obtain ⟨before, low⟩ := (held_snoc _ _ _).mp stalled
      simp [ih before, RamWriter.wBeat, OutputBuffer.taken, writerClock, writerPins, low]
  have one : ((past.map writerClock).flatMap RamWriter.handed).length ≤ 1 := by
    rw [← RamWriter.run_wBeat (run_writer run), none]
    exact s.writer.buf1.held_length_le
  have reads : ((past.map writerClock).flatMap RamWriter.read).length ≤
      ((past.map writerClock).flatMap RamWriter.handed).length * p.packing.rdLanes := by
    generalize past.map writerClock = clocks
    induction clocks with
    | nil => simp
    | cons c rest ih =>
      have now : (RamWriter.read c).length ≤ (RamWriter.handed c).length * p.packing.rdLanes := by
        rw [RamWriter.read, RamWriter.handed, p.packing.popped_length, beat_length]
        cases c.regs.intRdenWire c.pins <;> simp
        split <;> simp
      simp only [List.flatMap_cons, List.length_append, Nat.add_mul]
      omega
  have fifo := RamWriter.run_fifo_length (run_writer run)
  have bound := Nat.mul_le_mul_right p.packing.rdLanes one
  rw [List.length_append]
  omega

def stalled (limiter : BitVec 8) : CapturePins RamWriter.deployed where
  adc := Adc.quiet limiter
  minAddr := 0x10000000
  cfgData := 65535
  mAxiAwready := false
  mAxiWready := false

theorem run_accounted_stalled :
    Accounted ((circuit 14 RamWriter.deployed).trace fresh (List.replicate 3 (stalled 1)))
      ((circuit 14 RamWriter.deployed).after fresh (List.replicate 3 (stalled 1))) :=
  run_accounted (run_trace fresh_reset _)

def stalledSeries : List (Tick 14 RamWriter.deployed) :=
  (circuit 14 RamWriter.deployed).trace fresh (List.replicate 4096 (stalled 12))

def stalledEnd : Capture 14 RamWriter.deployed :=
  (circuit 14 RamWriter.deployed).after fresh (List.replicate 4096 (stalled 12))

theorem stalledSeries_pins (Q : CapturePins RamWriter.deployed → Prop) (all : Q (stalled 12)) :
    Held (fun _ c => Q c.pins) stalledSeries :=
  held_trace _ _ fun _ member => List.eq_of_mem_replicate member ▸ all

theorem stalledSeries_run : (circuit 14 RamWriter.deployed).Run stalledSeries stalledEnd :=
  run_trace fresh_reset _

theorem stalledSeries_presented :
    (Adc.presented (stalledSeries.map adcClock) stalledEnd.adc).length = 4096 := by
  have level := stalledSeries_pins
    (fun i => i.adc.nresetTrigger = true ∧ i.adc.triggerLevel = 0) ⟨rfl, rfl⟩
  rw [Adc.run_presented_length (run_adc stalledSeries_run) ((held_map _ _ _).mpr level),
    List.length_map, stalledSeries, trace_length, List.length_replicate]

/-- A series of 4096 words on a stalled port: `samples_sent` counts them all, and at most 2050
are in the FIFO or read out of it. -/
theorem stalledSeries_drops :
    (circuit 14 RamWriter.deployed).Run stalledSeries stalledEnd ∧
    Held (fun _ c => c.pins.adc.nresetTrigger = true ∧ c.pins.adc.limiter = 12) stalledSeries ∧
    stalledEnd.adc.samplesSent = 4096 ∧
    ((stalledSeries.map writerClock).flatMap RamWriter.read ++ stalledEnd.writer.fifo0).length ≤
      2050 ∧
    (stalledSeries.map writerClock).flatMap RamWriter.read ++ stalledEnd.writer.fifo0 ≠
      (Adc.presented (stalledSeries.map adcClock) stalledEnd.adc).map Prod.snd := by
  have few := stalled_length_le stalledSeries_run
    (stalledSeries_pins (fun i => i.mAxiWready = false) rfl)
  have idle : Held Adc.PulseWhenIdle (stalledSeries.map adcClock) := by
    refine (held_map _ _ _).mpr ?_
    refine (stalledSeries_pins (fun i => i.adc.nresetTrigger = true) rfl).mono ?_
    intro _ c high low
    have high' : c.pins.adc.nresetTrigger = true := high
    rw [adcClock, high'] at low
    cases low
  refine ⟨stalledSeries_run, stalledSeries_pins
    (fun i => i.adc.nresetTrigger = true ∧ i.adc.limiter = 12) ⟨rfl, rfl⟩, ?_, few, ?_⟩
  · rw [(Adc.run_consistent (run_adc stalledSeries_run) idle).1.sent, stalledSeries_presented]
    rfl
  · intro same
    rw [same, List.length_map, stalledSeries_presented] at few
    exact absurd few (by decide)

end Switcheck.Capture
