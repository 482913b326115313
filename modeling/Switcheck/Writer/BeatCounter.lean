import Switcheck.Sync.Framing
import Switcheck.Writer.RamWriter

/-!
# The beat counter

`int_cntr_reg` is compared with `awlen_reg` to find the last beat of a burst. It is cleared
by the address handshake alone, and not even then when a beat leaves in the same clock.
This file states when it counts the beats of the burst, and what then holds of every burst.
-/

namespace Switcheck.RamWriter

open Sync

variable {W α R : Type} {p : WriterParams W α R}

/-- Beats of the current burst handed on so far. -/
def inBurst (past : List (Tick p)) : Nat := (rest Prod.fst (past.flatMap handed)).length

/-- The first beat of a burst finds the counter at zero, and an address handshake comes before
the first beat or with a beat that stays within the length it loads. -/
def CounterInStep (before : List (Tick p)) (c : Tick p) : Prop :=
  (c.regs.intRdenWire c.pins → inBurst before = 0 → c.regs.intCntrReg = 0) ∧
  (c.regs.awFires c.pins →
    if c.regs.intRdenWire c.pins then
      ¬ c.regs.intWlastWire → inBurst before < c.regs.awlenNext.toNat
    else inBurst before = 0)

instance (before : List (Tick p)) (c : Tick p) : Decidable (CounterInStep before c) :=
  inferInstanceAs (Decidable (_ ∧ _))

theorem inBurst_snoc (past : List (Tick p)) (c : Tick p) :
    inBurst (past ++ [c]) =
      if c.regs.intRdenWire c.pins then
        if c.regs.intWlastWire then 0 else inBurst past + 1
      else inBurst past := by
  simp only [inBurst, flatMap_snoc, handed]
  cases c.regs.intRdenWire c.pins
  · simp
  · simp only [beat_true, rest_snoc]
    cases c.regs.intWlastWire <;> simp

theorem awlenNext_lt (s : RamWriter p) : s.awlenNext.toNat < p.burstBeats := by
  have pos := p.burstBeats_pos
  have le := p.burstBeats_le
  unfold awlenNext
  split
  · rw [p.maxAwlen_eq, BitVec.toNat_ofNat, Nat.mod_eq_of_lt (by omega)]
    omega
  · rw [BitVec.toNat_ofNat, Nat.mod_eq_of_lt (by omega)]
    omega

theorem awlenNext_full {s : RamWriter p} (full : p.burstBeats ≤ s.intCountWire) :
    s.awlenNext.toNat = p.burstBeats - 1 := by
  have le := p.burstBeats_le
  rw [awlenNext, if_pos full, p.maxAwlen_eq, BitVec.toNat_ofNat, Nat.mod_eq_of_lt (by omega)]

theorem rden_wvalid {s : RamWriter p} {i : WriterPins p} (read : s.intRdenWire i = true) :
    s.intWvalidWire = true ∧ s.intWreadyWire i = true := by
  simpa [intRdenWire] using read

/-- What `CounterInStep` maintains: the counter is the number of beats of the burst handed on. -/
structure CounterInv (past : List (Tick p)) (s : RamWriter p) : Prop where
  idle : s.intWvalidReg = false → inBurst past = 0
  counts : inBurst past = 0 ∨ s.intCntrReg.toNat = inBurst past
  within : inBurst past ≤ s.awlenReg.toNat
  bound : s.awlenReg.toNat < p.burstBeats

theorem counterInv_reset {s : RamWriter p} (reset : (circuit p).Reset s) : CounterInv [] s := by
  obtain ⟨-, -, -, -, -, awlen, -⟩ := reset_fields reset
  refine ⟨fun _ => rfl, Or.inl rfl, Nat.zero_le _, ?_⟩
  have pos := p.burstBeats_pos
  have le := p.burstBeats_le
  rw [awlen, p.maxAwlen_eq, BitVec.toNat_ofNat, Nat.mod_eq_of_lt (by omega)]
  omega

theorem counter_at_beat {past : List (Tick p)} {s : RamWriter p} {i : WriterPins p}
    (inv : CounterInv past s) (inStep : CounterInStep past ⟨s, i⟩)
    (read : s.intRdenWire i = true) : s.intCntrReg.toNat = inBurst past := by
  rcases inv.counts with none | counts
  · rw [inStep.1 read none, none]
    rfl
  · exact counts

theorem counterInv_step {past : List (Tick p)} {s : RamWriter p} {i : WriterPins p}
    (inv : CounterInv past s) (inStep : CounterInStep past ⟨s, i⟩) :
    CounterInv (past ++ [⟨s, i⟩]) (posedge true s i) := by
  have next := awlenNext_lt s
  have width := p.burstBeats_le_cntr
  have bound := inv.bound
  have within := inv.within
  have bound' : (posedge true s i).awlenReg.toNat < p.burstBeats := by
    rw [posedge_awlenReg]
    split <;> assumption
  cases read : s.intRdenWire i with
  | false =>
    have same : inBurst (past ++ [⟨s, i⟩]) = inBurst past := by rw [inBurst_snoc]; simp [read]
    -- Without a beat, a handshake clears the counter only between bursts.
    have cleared : s.awFires i = true → inBurst past = 0 := by
      intro fires
      simpa [read] using inStep.2 fires
    refine ⟨?_, ?_, ?_, bound'⟩
    · rw [same, posedge_intWvalidReg]
      intro ended
      apply inv.idle
      simp only [intRdenWire, Bool.and_eq_false_iff] at read
      cases busy : s.intWvalidReg with
      | false => rfl
      | true => simp_all [intWvalidWire]
    · rw [same, posedge_intCntrReg]
      by_cases fires : s.awFires i = true
      · exact Or.inl (cleared fires)
      · simpa [read, fires] using inv.counts
    · rw [same, posedge_awlenReg]
      split
      · rename_i fires
        rw [cleared fires]
        exact Nat.zero_le _
      · exact within
  | true =>
    have counts := counter_at_beat inv inStep read
    cases last : s.intWlastWire with
    | true =>
      have ended : inBurst (past ++ [⟨s, i⟩]) = 0 := by rw [inBurst_snoc]; simp [read, last]
      exact ⟨fun _ => ended, Or.inl ended, by rw [ended]; exact Nat.zero_le _, bound'⟩
    | false =>
      have grown : inBurst (past ++ [⟨s, i⟩]) = inBurst past + 1 := by
        rw [inBurst_snoc]; simp [read, last]
      have more : s.intCntrReg.toNat ≠ s.awlenReg.toNat := by simpa [intWlastWire] using last
      have room : inBurst past + 1 ≤ (posedge true s i).awlenReg.toNat := by
        rw [posedge_awlenReg]
        split
        · rename_i fires
          have inLength := inStep.2 fires
          simp only [read, if_true, last] at inLength
          exact inLength (by simp)
        · omega
      refine ⟨?_, Or.inr ?_, ?_, bound'⟩
      · rw [posedge_intWvalidReg, (rden_wvalid read).1, last]
        simp
      · rw [grown, posedge_intCntrReg, if_pos read, toNat_add_one (by omega), counts]
      · rw [grown]
        exact room

end Switcheck.RamWriter
