import Switcheck.Writer.BeatCounter

/-!
# Stream integrity

Once a burst is active, beats leave without another look at the FIFO count: the words must be
there when it starts.
-/

namespace Switcheck.RamWriter

open Sync Circuit

variable {W α R : Type} {p : WriterParams W α R}

/-- The FIFO is read only while it holds a complete word. -/
def NoUnderflow (_ : List (Tick p)) (c : Tick p) : Prop :=
  c.regs.intRdenWire c.pins → 0 < c.regs.intCountWire

instance (before : List (Tick p)) (c : Tick p) : Decidable (NoUnderflow before c) :=
  inferInstanceAs (Decidable (_ → _))

/-- No burst starts on a `tlast` flush of fewer words than a full burst. -/
def StartsFull (_ : List (Tick p)) (c : Tick p) : Prop :=
  c.regs.intValidWire → p.burstBeats ≤ c.regs.intCountWire

instance (before : List (Tick p)) (c : Tick p) : Decidable (StartsFull before c) :=
  inferInstanceAs (Decidable (_ → _))

/-- The FIFO never underflows, and the W data are the first words of the packed stream. -/
def StreamIntact (past : List (Tick p)) : Prop :=
  Held NoUnderflow past ∧
  (past.flatMap wBeat).map Prod.snd <+: p.packing.words (past.flatMap accepted)

theorem count_next {s : RamWriter p} {i : WriterPins p} :
    s.intCountWire ≤ (posedge true s i).intCountWire + (s.intRdenWire i).toNat := by
  simp only [intCountWire, posedge_fifo0]
  cases s.intRdenWire i
  · exact p.packing.count_le_next
  · exact p.packing.count_le_next_succ

/-- An active burst finds the words of a full burst, less those it has taken. -/
structure StockInv (past : List (Tick p)) (s : RamWriter p) : Prop where
  counter : CounterInv past s
  stock : s.intWvalidReg = true → p.burstBeats ≤ inBurst past + s.intCountWire

theorem stockInv_reset {s : RamWriter p} (reset : (circuit p).Reset s) : StockInv [] s := by
  refine ⟨counterInv_reset reset, fun busy => ?_⟩
  rw [(reset_fields reset).2.1] at busy
  cases busy

theorem StockInv.stock_wire {past : List (Tick p)} {s : RamWriter p} {i : WriterPins p}
    (inv : StockInv past s) (full : StartsFull past ⟨s, i⟩) (wvalid : s.intWvalidWire = true) :
    p.burstBeats ≤ inBurst past + s.intCountWire := by
  cases busy : s.intWvalidReg with
  | true => exact inv.stock busy
  | false =>
    have start : s.intValidWire = true := by simpa [intWvalidWire, busy] using wvalid
    exact Nat.le_add_left_of_le (full start)

theorem StockInv.noUnderflow {past : List (Tick p)} {s : RamWriter p} {i : WriterPins p}
    (inv : StockInv past s) (full : StartsFull past ⟨s, i⟩) : NoUnderflow past ⟨s, i⟩ := by
  intro read
  have stock := inv.stock_wire full (rden_wvalid read).1
  have within := inv.counter.within
  have bound := inv.counter.bound
  show 0 < s.intCountWire
  omega

theorem stockInv_step {past : List (Tick p)} {s : RamWriter p} {i : WriterPins p}
    (inv : StockInv past s) (inStep : CounterInStep past ⟨s, i⟩)
    (full : StartsFull past ⟨s, i⟩) : StockInv (past ++ [⟨s, i⟩]) (posedge true s i) := by
  refine ⟨counterInv_step inv.counter inStep, fun more => ?_⟩
  have count := count_next (s := s) (i := i)
  have live : s.intWvalidWire = true ∧ (s.intWreadyWire i && s.intWlastWire) = false := by
    simpa only [posedge_intWvalidReg, Bool.and_eq_true, Bool.not_eq_true'] using more
  have stock := inv.stock_wire full live.1
  rw [inBurst_snoc]
  cases read : s.intRdenWire i with
  | false =>
    rw [read] at count
    simp only [Bool.toNat_false, Nat.add_zero] at count
    simp only [Bool.false_eq_true, if_false]
    omega
  | true =>
    have last : s.intWlastWire = false := by simpa [(rden_wvalid read).2] using live.2
    rw [read] at count
    simp only [Bool.toNat_true] at count
    simp only [if_true, last, Bool.false_eq_true, if_false]
    omega

theorem run_stockInv {past : List (Tick p)} {s : RamWriter p} (run : (circuit p).Run past s)
    (inStep : Held CounterInStep past) (full : Held StartsFull past) :
    StockInv past s ∧ Held NoUnderflow past :=
  run.entails (E := fun before c => CounterInStep before c ∧ StartsFull before c)
    (fun _ reset => stockInv_reset reset)
    (fun _ _ _ _ inv env => inv.noUnderflow env.2)
    (fun _ _ _ _ inv env _ => stockInv_step inv env.1 env.2) (held_and.mpr ⟨inStep, full⟩)

theorem run_handed_words {past : List (Tick p)} {s : RamWriter p} (run : (circuit p).Run past s)
    (sound : Held NoUnderflow past) :
    p.packing.rdLanes ∣ (past.flatMap read).length ∧
    (past.flatMap handed).map Prod.snd = p.packing.words (past.flatMap read) := by
  refine run.invariant (E := NoUnderflow)
    (P := fun past _ => p.packing.rdLanes ∣ (past.flatMap read).length ∧
      (past.flatMap handed).map Prod.snd = p.packing.words (past.flatMap read)) ?_ ?_ sound
  · intro s reset
    exact ⟨Nat.dvd_zero _, by simp⟩
  · rintro past s i - ⟨whole, same⟩ complete
    obtain ⟨whole', words⟩ := p.packing.words_append_popped (q := s.fifo0) whole complete
    simp only [flatMap_snoc, List.map_append, same]
    refine ⟨whole', ?_⟩
    rw [read, words, handed, map_beat]
    rfl

theorem run_wBeat_words {past : List (Tick p)} {s : RamWriter p} (run : (circuit p).Run past s)
    (sound : Held NoUnderflow past) :
    (past.flatMap wBeat).map Prod.snd <+: p.packing.words (past.flatMap accepted) := by
  obtain ⟨whole, same⟩ := run_handed_words run sound
  calc (past.flatMap wBeat).map Prod.snd
      <+: (past.flatMap handed).map Prod.snd := List.IsPrefix.map _ ⟨_, run_wBeat run⟩
    _ = p.packing.words (past.flatMap read) := same
    _ <+: p.packing.words (past.flatMap read) ++ p.packing.words s.fifo0 := List.prefix_append ..
    _ = p.packing.words (past.flatMap accepted) := by
        rw [← p.packing.words_append _ whole, run_fifo run]

/-- When every burst starts on a full burst of words and its beats are counted, no read finds
the FIFO short and the W data are a prefix of the packed stream. -/
theorem run_streamIntact {past : List (Tick p)} {s : RamWriter p} (run : (circuit p).Run past s)
    (inStep : Held CounterInStep past) (full : Held StartsFull past) : StreamIntact past := by
  have sound := (run_stockInv run inStep full).2
  exact ⟨sound, run_wBeat_words run sound⟩

def fullPacket : List (WriterPins deployed) :=
  (List.range 32).map (fun k => pins (some (BitVec.ofNat 32 k, k == 31)) true true) ++
    List.replicate 18 (pins none true true)

theorem run_streamIntact_fullPacket : StreamIntact ((circuit deployed).trace fresh fullPacket) :=
  run_streamIntact (run_trace fresh_reset fullPacket) (by decide +kernel) (by decide +kernel)

/-- A packet of one memory word is announced as two: the second beat reads an empty FIFO. -/
theorem onePacket_underflows :
    (circuit deployed).Run ((circuit deployed).trace fresh onePacket)
      ((circuit deployed).after fresh onePacket) ∧
    ¬ Held NoUnderflow ((circuit deployed).trace fresh onePacket) ∧
    ¬ (((circuit deployed).trace fresh onePacket).flatMap wBeat).map Prod.snd <+:
      deployed.packing.words (((circuit deployed).trace fresh onePacket).flatMap accepted) :=
  ⟨run_trace fresh_reset onePacket, by decide +kernel, by decide +kernel⟩

end Switcheck.RamWriter
