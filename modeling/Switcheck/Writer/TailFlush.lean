import Switcheck.Writer.BeatCounter

/-!
# Tail flush

`tlast_pending_reg` starts a burst for the end of a packet. One bit serves every packet, and
any address handshake clears it: this file states when that leaves no end of a packet behind.
-/

namespace Switcheck.RamWriter

open Sync Circuit

variable {W α R : Type} {p : WriterParams W α R}

def acceptedWord (c : Tick p) : List (W × Bool) :=
  beat (c.pins.sAxisTvalid && c.regs.sAxisTready) (c.pins.sAxisTdata, c.pins.sAxisTlast)

/-- The last stream word accepted so far carried `tlast`. -/
def EndsPacket (past : List (Tick p)) : Prop :=
  (past.flatMap acceptedWord).getLast?.map Prod.snd = some true

instance (past : List (Tick p)) : Decidable (EndsPacket past) :=
  inferInstanceAs (Decidable (_ = _))

/-- With a finished packet at the input and no burst active, words left in the FIFO start one. -/
def TailFlushed (past : List (Tick p)) (s : RamWriter p) : Prop :=
  EndsPacket past → s.intWvalidReg = false → s.fifo0 ≠ [] → s.intValidWire = true

/-- Beats the active burst still hands on before its counter reaches `awlen_reg`. -/
def beatsLeft (s : RamWriter p) : Nat :=
  if s.intWvalidReg then
    (s.awlenReg.toNat + 2 ^ p.cntrWidth - s.intCntrReg.toNat) % 2 ^ p.cntrWidth + 1
  else 0

/-- Lanes in the FIFO that the active burst will not take. -/
def leftBehind (s : RamWriter p) : Nat := s.fifo0.length - p.packing.rdLanes * s.beatsLeft

/-- Beats the burst still hands on once an address handshake has loaded its length. -/
def beatsLoaded (s : RamWriter p) (i : WriterPins p) : Nat :=
  if s.intWvalidWire && !(s.intWreadyWire i && s.intWlastWire) then
    (s.awlenNext.toNat + 2 ^ p.cntrWidth -
      (if s.intRdenWire i then s.intCntrReg + 1 else 0).toNat) % 2 ^ p.cntrWidth + 1
  else 0

/-- Lanes that an address handshake leaves behind: in the FIFO, and not for its burst. -/
def loadsBehind (c : Tick p) : Nat :=
  c.regs.fifo0.length + (accepted c).length - (read c).length -
    p.packing.rdLanes * c.regs.beatsLoaded c.pins

/-- A word with `tlast` completes a memory word. -/
def WholePackets (before : List (Tick p)) (c : Tick p) : Prop :=
  ∀ word ∈ acceptedWord c, word.2 = true →
    p.packing.rdLanes ∣ ((before ++ [c]).flatMap accepted).length

/-- An address handshake after the end of a packet leaves whole full bursts behind, if anything. -/
def TailTaken (before : List (Tick p)) (c : Tick p) : Prop :=
  c.regs.awFires c.pins → EndsPacket (before ++ [c]) →
    p.packing.rdLanes * p.burstBeats ∣ loadsBehind c

/-- A burst that starts after the end of a packet, on the count alone, does not end before its
address handshake. -/
def TailAddressed (before : List (Tick p)) (c : Tick p) : Prop :=
  c.regs.intRdenWire c.pins → c.regs.intWlastWire → c.regs.intAwvalidWire →
    EndsPacket (before ++ [c]) →
    (c.pins.sAxisTvalid && c.pins.sAxisTlast || c.regs.tlastPendingReg) = false →
    c.regs.awFires c.pins

instance (before : List (Tick p)) (c : Tick p) : Decidable (WholePackets before c) :=
  inferInstanceAs (Decidable (∀ word ∈ acceptedWord c, _ → _))

instance (before : List (Tick p)) (c : Tick p) : Decidable (TailTaken before c) :=
  inferInstanceAs (Decidable (_ → _ → _))

instance (before : List (Tick p)) (c : Tick p) : Decidable (TailAddressed before c) :=
  inferInstanceAs (Decidable (_ → _ → _ → _ → _ → _))

/-- What makes a tail safe once its flag is gone: nothing but whole full bursts stays behind. -/
structure TailInv (past : List (Tick p)) (s : RamWriter p) : Prop where
  awlen : s.awlenReg.toNat < p.burstBeats
  whole : EndsPacket past → p.packing.rdLanes ∣ (past.flatMap accepted).length
  aligned : p.packing.rdLanes ∣ (past.flatMap read).length
  waits : EndsPacket past → s.tlastPendingReg = false → s.intAwvalidReg = true →
    s.intWvalidReg = true
  behind : EndsPacket past → s.tlastPendingReg = false → s.intAwvalidReg = false →
    p.packing.rdLanes * p.burstBeats ∣ s.leftBehind

theorem awlenReg_lt_step {s : RamWriter p} {i : WriterPins p}
    (bound : s.awlenReg.toNat < p.burstBeats) :
    (posedge true s i).awlenReg.toNat < p.burstBeats := by
  rw [posedge_awlenReg]
  split
  · exact awlenNext_lt s
  · exact bound

theorem accepted_eq (c : Tick p) :
    accepted c = (acceptedWord c).flatMap fun word => p.packing.lanes word.1 := by
  unfold accepted acceptedWord Packing.pushed sAxisTready intFullWire
  cases c.pins.sAxisTvalid <;> cases p.packing.full p.fifoWriteDepth c.regs.fifo0 <;> simp

theorem endsPacket_quiet {past : List (Tick p)} {c : Tick p} (none : acceptedWord c = []) :
    EndsPacket (past ++ [c]) ↔ EndsPacket past := by
  simp [EndsPacket, none]

theorem endsPacket_word {past : List (Tick p)} {c : Tick p} {word : W × Bool}
    (some : acceptedWord c = [word]) : EndsPacket (past ++ [c]) ↔ word.2 = true := by
  simp [EndsPacket, some]

theorem acceptedWord_cases (c : Tick p) :
    acceptedWord c = [] ∨
    (c.pins.sAxisTvalid = true ∧ acceptedWord c = [(c.pins.sAxisTdata, c.pins.sAxisTlast)]) := by
  unfold acceptedWord
  cases c.pins.sAxisTvalid <;> cases c.regs.sAxisTready <;> simp

theorem quiet_of_unflagged {past : List (Tick p)} {s : RamWriter p} {i : WriterPins p}
    (held : s.awFires i = false) (ends : EndsPacket (past ++ [⟨s, i⟩]))
    (unflagged : (posedge true s i).tlastPendingReg = false) :
    acceptedWord ⟨s, i⟩ = [] ∧ EndsPacket past ∧ s.tlastPendingReg = false := by
  simp only [posedge_tlastPendingReg, held, Bool.not_false, Bool.true_and, Bool.or_eq_false_iff]
    at unflagged
  rcases acceptedWord_cases ⟨s, i⟩ with none | ⟨valid, word⟩
  · exact ⟨none, (endsPacket_quiet none).mp ends, unflagged.2⟩
  · have last : i.sAxisTlast = true := (endsPacket_word word).mp ends
    have valid' : i.sAxisTvalid = true := valid
    simp [valid', last] at unflagged

theorem leftBehind_load {s : RamWriter p} {i : WriterPins p} (fires : s.awFires i = true) :
    (posedge true s i).leftBehind = loadsBehind ⟨s, i⟩ := by
  have length : (posedge true s i).fifo0.length =
      s.fifo0.length + (accepted ⟨s, i⟩).length - (read ⟨s, i⟩).length := by
    have total := congrArg List.length (fifo_step s i)
    rw [List.length_append, List.length_append] at total
    omega
  have beats : (posedge true s i).beatsLeft = s.beatsLoaded i := by
    simp [beatsLeft, beatsLoaded, fires]
  rw [leftBehind, loadsBehind, length, beats]

theorem mod_succ_step {l c m : Nat} (hl : l < m) (hc : c < m) (differ : c ≠ l) :
    (l + m - (c + 1) % m) % m + 1 = (l + m - c) % m := by
  have wrap : (c + 1) % m = if c + 1 = m then 0 else c + 1 := by
    split
    · rename_i top
      rw [top, Nat.mod_self]
    · exact Nat.mod_eq_of_lt (by omega)
  rcases Nat.lt_or_gt_of_ne differ with below | above
  · rw [wrap, if_neg (by omega), show l + m - (c + 1) = l - (c + 1) + m by omega,
      show l + m - c = l - c + m by omega, Nat.add_mod_right, Nat.add_mod_right,
      Nat.mod_eq_of_lt (by omega), Nat.mod_eq_of_lt (by omega)]
    omega
  · rw [wrap, Nat.mod_eq_of_lt (a := l + m - c) (by omega)]
    split
    · rw [Nat.sub_zero, Nat.add_mod_right, Nat.mod_eq_of_lt hl]
      omega
    · rw [Nat.mod_eq_of_lt (by omega)]
      omega

theorem beatsLeft_step {s : RamWriter p} {i : WriterPins p} (awlen : s.awlenReg.toNat < 2 ^ p.cntrWidth)
    (busy : s.intWvalidReg = true) (held : s.awFires i = false) :
    (posedge true s i).beatsLeft + (s.intRdenWire i).toNat = s.beatsLeft := by
  have wvalid : s.intWvalidWire = true := by simp [intWvalidWire, busy]
  have ready : s.intRdenWire i = s.intWreadyWire i := by simp [intRdenWire, wvalid]
  simp only [beatsLeft, posedge_intWvalidReg, posedge_intCntrReg, posedge_awlenReg, held, wvalid,
    ← ready, busy, Bool.true_and, if_true, Bool.false_eq_true, if_false]
  cases read : s.intRdenWire i with
  | false => simp
  | true =>
    cases last : s.intWlastWire with
    | true =>
      have equal : s.intCntrReg.toNat = s.awlenReg.toNat := by simpa [intWlastWire] using last
      simp [equal]
    | false =>
      have differ : s.intCntrReg.toNat ≠ s.awlenReg.toNat := by simpa [intWlastWire] using last
      have step := mod_succ_step awlen s.intCntrReg.isLt differ
      simp only [if_true, Bool.and_false, Bool.not_false, Bool.toNat_true, BitVec.toNat_add,
        BitVec.ofNat_eq_ofNat, BitVec.toNat_ofNat, Nat.add_mod_mod]
      omega

/-- Without new words, an active burst takes exactly the words it was to take. -/
theorem leftBehind_step {s : RamWriter p} {i : WriterPins p} {k : Nat}
    (awlen : s.awlenReg.toNat < 2 ^ p.cntrWidth) (busy : s.intWvalidReg = true)
    (held : s.awFires i = false) (quiet : accepted ⟨s, i⟩ = [])
    (whole : p.packing.rdLanes ∣ s.fifo0.length) (behind : k ∣ s.leftBehind) :
    k ∣ (posedge true s i).leftBehind := by
  have left := beatsLeft_step awlen busy held
  have next := p.packing.next_length p.fifoWriteDepth s.fifo0 i.sAxisTvalid i.sAxisTdata
    (s.intRdenWire i)
  rw [show p.packing.pushed p.fifoWriteDepth s.fifo0 i.sAxisTvalid i.sAxisTdata = [] from quiet,
    p.packing.popped_length, ← posedge_fifo0] at next
  simp only [List.length_nil, Nat.add_zero] at next
  unfold leftBehind at behind ⊢
  cases read : s.intRdenWire i with
  | false =>
    rw [read] at left next
    simp only [Bool.toNat_false, Nat.add_zero, Bool.false_eq_true, false_and, if_false,
      Nat.zero_add] at left next
    rwa [left, next]
  | true =>
    rw [read] at left next
    simp only [Bool.toNat_true, true_and] at left next
    split at next
    · have same : (posedge true s i).fifo0.length - p.packing.rdLanes * (posedge true s i).beatsLeft =
          s.fifo0.length - p.packing.rdLanes * s.beatsLeft := by
        rw [← left, ← next, Nat.mul_succ]
        omega
      rwa [same]
    · -- A read of an empty FIFO leaves it empty.
      rename_i empty
      have none : s.fifo0.length = 0 := by
        rw [p.packing.count_pos] at empty
        exact Nat.eq_zero_of_dvd_of_lt whole (by omega)
      rw [show (posedge true s i).fifo0.length = 0 by omega, Nat.zero_sub]
      exact Nat.dvd_zero _

theorem tailInv_reset {s : RamWriter p} (reset : (circuit p).Reset s) : TailInv [] s := by
  obtain ⟨-, -, -, -, -, awlen, -⟩ := reset_fields reset
  have pos := p.burstBeats_pos
  refine ⟨?_, fun _ => Nat.dvd_zero _, Nat.dvd_zero _, fun ends => ?_, fun ends => ?_⟩
  · rw [awlen, p.maxAwlen_eq, BitVec.toNat_ofNat]
    exact Nat.lt_of_le_of_lt (Nat.mod_le _ _) (by omega)
  · cases ends
  · cases ends

theorem TailInv.fifo_whole {past : List (Tick p)} {s : RamWriter p} (run : (circuit p).Run past s)
    (inv : TailInv past s) (ends : EndsPacket past) : p.packing.rdLanes ∣ s.fifo0.length := by
  have total := congrArg List.length (run_fifo run)
  rw [List.length_append] at total
  exact (Nat.dvd_add_right inv.aligned).mp (total ▸ inv.whole ends)

theorem tailInv_step {past : List (Tick p)} {s : RamWriter p} {i : WriterPins p}
    (run : (circuit p).Run past s) (inv : TailInv past s) (whole : WholePackets past ⟨s, i⟩)
    (taken : TailTaken past ⟨s, i⟩) (addressed : TailAddressed past ⟨s, i⟩) :
    TailInv (past ++ [⟨s, i⟩]) (posedge true s i) := by
  have width := Nat.lt_of_lt_of_le inv.awlen p.burstBeats_le_cntr
  refine ⟨awlenReg_lt_step inv.awlen, fun ends => ?_, ?_, fun ends unflagged waits => ?_,
    fun ends unflagged ready => ?_⟩
  · rcases acceptedWord_cases ⟨s, i⟩ with none | ⟨-, word⟩
    · have before := inv.whole ((endsPacket_quiet none).mp ends)
      simpa [accepted_eq ⟨s, i⟩, none] using before
    · exact whole _ (by rw [word]; exact List.mem_singleton_self _) ((endsPacket_word word).mp ends)
  · rw [flatMap_snoc, List.length_append]
    refine Nat.dvd_add inv.aligned ?_
    rw [read, p.packing.popped_length]
    split
    · exact Nat.dvd_refl _
    · exact Nat.dvd_zero _
  · have waiting : s.intAwvalidWire = true ∧ s.intAwreadyWire i = false := by simpa using waits
    have held : s.awFires i = false := by simp [awFires, waiting.2]
    obtain ⟨-, before, flag⟩ := quiet_of_unflagged held ends unflagged
    have wvalid : s.intWvalidWire = true := by
      cases start : s.intValidWire with
      | true => simp [intWvalidWire, start]
      | false =>
        have old : s.intAwvalidReg = true := by simpa [intAwvalidWire, start] using waiting.1
        simp [intWvalidWire, inv.waits before flag old]
    by_contra ended
    have last : s.intWreadyWire i = true ∧ s.intWlastWire = true := by simpa [wvalid] using ended
    have fires := addressed (by simp [intRdenWire, wvalid, last.1]) last.2 waiting.1 ends
      (by simpa [held] using unflagged)
    rw [show s.awFires i = true from fires] at held
    cases held
  · cases fires : s.awFires i with
    | true =>
      rw [leftBehind_load fires]
      exact taken fires ends
    | false =>
      obtain ⟨none, before, flag⟩ := quiet_of_unflagged fires ends unflagged
      have quiet : accepted ⟨s, i⟩ = [] := by rw [accepted_eq, none]; rfl
      -- No handshake and no request waiting afterwards: none was waiting before either.
      have idle : s.intValidWire = false ∧ s.intAwvalidReg = false := by
        cases drained : s.intAwvalidWire with
        | false => simpa [intAwvalidWire] using drained
        | true =>
          have accepts : s.intAwreadyWire i = true := by simpa [drained] using ready
          simp [awFires, drained, accepts] at fires
      cases busy : s.intWvalidReg with
      | true =>
        exact leftBehind_step width busy fires quiet (inv.fifo_whole run before)
          (inv.behind before flag idle.2)
      | false =>
        have unread : read ⟨s, i⟩ = [] := by
          simp [read, Packing.popped, intRdenWire, intWvalidWire, idle.1, busy]
        have stays : (posedge true s i).fifo0 = s.fifo0 := by
          simpa only [quiet, unread, List.nil_append, List.append_nil] using fifo_step s i
        have rest : (posedge true s i).intWvalidReg = false := by
          simp [intWvalidWire, idle.1, busy]
        have before' := inv.behind before flag idle.2
        simpa [leftBehind, beatsLeft, busy, rest, stays] using before'

theorem TailInv.tailFlushed {past : List (Tick p)} {s : RamWriter p}
    (run : (circuit p).Run past s) (inv : TailInv past s) : TailFlushed past s := by
  intro ends idle some
  have whole := inv.fifo_whole run ends
  have filled : 0 < s.fifo0.length := List.length_pos_of_ne_nil some
  have count : 0 < s.intCountWire := p.packing.count_pos.mpr (Nat.le_of_dvd filled whole)
  cases flag : s.tlastPendingReg with
  | true => simp [intValidWire, idle, flag, count]
  | false =>
    have ready : s.intAwvalidReg = false := by
      by_contra waits
      have busy := inv.waits ends flag (by simpa using waits)
      rw [idle] at busy
      cases busy
    have behind := inv.behind ends flag ready
    simp only [leftBehind, beatsLeft, idle, Bool.false_eq_true, if_false, Nat.mul_zero,
      Nat.sub_zero] at behind
    have full : p.burstBeats ≤ s.intCountWire :=
      p.packing.le_count.mpr (Nat.le_of_dvd filled behind)
    simp [intValidWire, idle, full]

/-- When packets are whole memory words and an address handshake never drops the flag of a
tail its burst leaves short of whole full bursts, no finished packet is stranded. -/
theorem run_tailFlushed {past : List (Tick p)} {s : RamWriter p} (run : (circuit p).Run past s)
    (whole : Held WholePackets past) (taken : Held TailTaken past)
    (addressed : Held TailAddressed past) : TailFlushed past s := by
  have inv : TailInv past s := run.invariant
    (E := fun before c => WholePackets before c ∧ TailTaken before c ∧ TailAddressed before c)
    (fun _ reset => tailInv_reset reset)
    (fun _ _ _ run inv env => tailInv_step run inv env.1 env.2.1 env.2.2)
    (held_and.mpr ⟨whole, held_and.mpr ⟨taken, addressed⟩⟩)
  exact inv.tailFlushed run

/-- A packet of three bursts, with both channels stalled until its last word is there: the second
burst has its address handshake then, and the third one in its last clock. A packet of two words
follows. -/
def longThenShort : List (WriterPins deployed) :=
  (List.range 133).map fun k =>
    pins (if k < 96 ∨ 131 ≤ k then some (BitVec.ofNat 32 k, k == 95 || k == 132) else none)
      (k == 100 || k == 130) (k < 60 || 100 ≤ k)

theorem run_tailFlushed_longThenShort :
    ((circuit deployed).after fresh longThenShort).intValidWire = true :=
  run_tailFlushed (run_trace fresh_reset longThenShort) (by decide +kernel)
    (by decide +kernel) (by decide +kernel) (by decide +kernel) (by decide +kernel)
    (by decide +kernel)

/-- 66 words, one a clock, with the data channel stalled for 18 clocks of the first burst: the
last word arrives in the clock of the second address handshake. -/
def lateTail : List (WriterPins deployed) :=
  (List.range 66).map (fun k => pins (some (BitVec.ofNat 32 k, k == 65)) true (k < 32 || 50 ≤ k)) ++
    List.replicate 18 (pins none true true)

/-- The handshake clears the flag as it is set: the last memory word stays in the FIFO. -/
theorem lateTail_stranded :
    (circuit deployed).Run ((circuit deployed).trace fresh lateTail)
      ((circuit deployed).after fresh lateTail) ∧
    ¬ TailFlushed ((circuit deployed).trace fresh lateTail)
      ((circuit deployed).after fresh lateTail) := by
  refine ⟨run_trace fresh_reset lateTail, fun flushed => ?_⟩
  have started := flushed (by decide +kernel) (by decide +kernel) (by decide +kernel)
  exact absurd started (by decide +kernel)

end Switcheck.RamWriter
