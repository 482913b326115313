import Switcheck.Writer.BeatCounter

/-!
# Burst framing

The W beats the slave accepts, cut after each `m_axi_wlast`, against the lengths it was
announced on AW.
-/

namespace Switcheck.RamWriter

open Sync Circuit

variable {W α R : Type} {p : WriterParams W α R}

/-- The `k`-th W burst has one beat more than the `k`-th AW length, and a burst still open has
not reached its length: `m_axi_wlast` is on the last announced beat and on no other. -/
def BurstsFramed (past : List (Tick p)) : Prop :=
  ∀ k req, (past.flatMap awReq)[k]? = some req →
    (∀ f, (frames Prod.fst (past.flatMap wBeat))[k]? = some f → f.length = req.2.toNat + 1) ∧
    ((frames Prod.fst (past.flatMap wBeat)).length = k →
      (rest Prod.fst (past.flatMap wBeat)).length ≤ req.2.toNat)

/-- A burst does not hand on its last beat while its address still waits, and if the two fall
in one clock the length loaded is the length of the burst. -/
def AddressInTime (before : List (Tick p)) (c : Tick p) : Prop :=
  c.regs.intRdenWire c.pins → c.regs.intWlastWire → c.regs.intAwvalidWire →
    c.regs.awFires c.pins ∧ c.regs.awlenNext.toNat = inBurst before

instance (before : List (Tick p)) (c : Tick p) : Decidable (AddressInTime before c) :=
  inferInstanceAs (Decidable (_ → _))

def burstLengths (past : List (Tick p)) : List Nat :=
  (frames Prod.fst (past.flatMap handed)).map List.length

def announced (past : List (Tick p)) : List Nat :=
  (past.flatMap issued).map fun req => req.2.toNat + 1

theorem burstLengths_snoc (past : List (Tick p)) (c : Tick p) :
    burstLengths (past ++ [c]) =
      burstLengths past ++
        beat (c.regs.intRdenWire c.pins && c.regs.intWlastWire) (inBurst past + 1) := by
  simp only [burstLengths, inBurst, flatMap_snoc, handed]
  cases c.regs.intRdenWire c.pins
  · simp
  · cases c.regs.intWlastWire <;> simp

theorem announced_snoc (past : List (Tick p)) (c : Tick p) :
    announced (past ++ [c]) =
      announced past ++ beat (c.regs.awFires c.pins) (c.regs.awlenNext.toNat + 1) := by
  simp only [announced, flatMap_snoc, issued, List.map_append, map_beat]

/-- Between bursts, and until its address is handed on, every burst so far has its announced
length; afterwards one more length is announced, the one in `awlen_reg`. -/
structure FramingInv (past : List (Tick p)) (s : RamWriter p) : Prop where
  counter : CounterInv past s
  waits : s.intAwvalidReg = true → s.intWvalidReg = true
  opened : s.intAwvalidReg = true ∨ s.intWvalidReg = false → announced past = burstLengths past
  running : s.intAwvalidReg = false → s.intWvalidReg = true →
    announced past = burstLengths past ++ [s.awlenReg.toNat + 1] ∧
    s.intCntrReg.toNat = inBurst past

theorem framingInv_reset {s : RamWriter p} (reset : (circuit p).Reset s) : FramingInv [] s := by
  obtain ⟨awvalid, wvalid, -⟩ := reset_fields reset
  refine ⟨counterInv_reset reset, by simp [awvalid], fun _ => rfl, ?_⟩
  intro _ busy
  rw [wvalid] at busy
  cases busy

theorem framingInv_opening {past : List (Tick p)} {s : RamWriter p} {i : WriterPins p}
    (inv : FramingInv past s) (inStep : CounterInStep past ⟨s, i⟩)
    (inTime : AddressInTime past ⟨s, i⟩) (awvalid : s.intAwvalidWire = true)
    (wvalid : s.intWvalidWire = true) (same : announced past = burstLengths past) :
    FramingInv (past ++ [⟨s, i⟩]) (posedge true s i) := by
  have counter := counterInv_step inv.counter inStep
  have fires_iff : s.awFires i = s.intAwreadyWire i := by simp [awFires, awvalid]
  have read_iff : s.intRdenWire i = s.intWreadyWire i := by simp [intRdenWire, wvalid]
  cases read : s.intRdenWire i with
  | false =>
    have stalled : s.intWreadyWire i = false := by rw [← read_iff, read]
    have busy : (posedge true s i).intWvalidReg = true := by simp [wvalid, stalled]
    refine ⟨counter, fun _ => busy, ?_, ?_⟩
    · rintro (waits | idle)
      · have held : s.awFires i = false := by simpa [awvalid, fires_iff] using waits
        simp [announced_snoc, burstLengths_snoc, held, read, same]
      · rw [busy] at idle
        cases idle
    · intro taken _
      have fires : s.awFires i = true := by simpa [awvalid, fires_iff] using taken
      have first : inBurst past = 0 := by simpa [read] using inStep.2 fires
      refine ⟨?_, ?_⟩
      · simp [announced_snoc, burstLengths_snoc, fires, read, same]
      · rw [inBurst_snoc]
        simp [read, fires, first]
  | true =>
    cases last : s.intWlastWire with
    | true =>
      obtain ⟨fires, length⟩ := inTime read last awvalid
      refine ⟨counter, ?_, fun _ => ?_, ?_⟩
      · intro waits
        rw [posedge_intAwvalidReg, ← fires_iff, fires] at waits
        simp at waits
      · have fits : s.awlenNext.toNat = inBurst past := length
        have fires' : s.awFires i = true := fires
        simp [announced_snoc, burstLengths_snoc, fires', read, last, same, fits]
      · intro _ busy
        rw [posedge_intWvalidReg, ← read_iff, read, last] at busy
        simp at busy
    | false =>
      have busy : (posedge true s i).intWvalidReg = true := by simp [wvalid, last]
      have grown : inBurst (past ++ [⟨s, i⟩]) = inBurst past + 1 := by
        rw [inBurst_snoc]
        simp [read, last]
      refine ⟨counter, fun _ => busy, ?_, ?_⟩
      · rintro (waits | idle)
        · have held : s.awFires i = false := by simpa [awvalid, fires_iff] using waits
          simp [announced_snoc, burstLengths_snoc, held, last, same]
        · rw [busy] at idle
          cases idle
      · intro taken _
        have fires : s.awFires i = true := by simpa [awvalid, fires_iff] using taken
        refine ⟨?_, ?_⟩
        · simp [announced_snoc, burstLengths_snoc, fires, last, same]
        · exact counter.counts.resolve_left (by omega)

theorem framingInv_running {past : List (Tick p)} {s : RamWriter p} {i : WriterPins p}
    (inv : FramingInv past s) (inStep : CounterInStep past ⟨s, i⟩)
    (awvalid : s.intAwvalidReg = false) (busy : s.intWvalidReg = true) :
    FramingInv (past ++ [⟨s, i⟩]) (posedge true s i) := by
  have counter := counterInv_step inv.counter inStep
  obtain ⟨ahead, counts⟩ := inv.running awvalid busy
  have quiet : s.intAwvalidWire = false := by simp [intAwvalidWire, intValidWire, awvalid, busy]
  have held : s.awFires i = false := by simp [awFires, quiet]
  have wvalid : s.intWvalidWire = true := by simp [intWvalidWire, busy]
  have read_iff : s.intRdenWire i = s.intWreadyWire i := by simp [intRdenWire, wvalid]
  refine ⟨counter, by simp [quiet], ?_, ?_⟩
  · rintro (waits | idle)
    · rw [posedge_intAwvalidReg, quiet] at waits
      simp at waits
    · -- The burst ends at the beat the counter calls last: it has its length.
      have ends : s.intRdenWire i = true ∧ s.intWlastWire = true := by
        simpa [wvalid, read_iff] using idle
      have length : s.intCntrReg.toNat = s.awlenReg.toNat := by
        simpa [intWlastWire] using ends.2
      simp [announced_snoc, burstLengths_snoc, held, ends, ahead, ← counts, length]
  · intro _ more
    have open' : (s.intRdenWire i && s.intWlastWire) = false := by
      rwa [posedge_intWvalidReg, ← read_iff, wvalid, Bool.true_and, Bool.not_eq_true'] at more
    refine ⟨?_, ?_⟩
    · simp [announced_snoc, burstLengths_snoc, held, open', ahead]
    · cases read : s.intRdenWire i with
      | false =>
        rw [inBurst_snoc]
        simp [read, held, counts]
      | true =>
        have last : s.intWlastWire = false := by simpa [read] using open'
        have grown : inBurst (past ++ [⟨s, i⟩]) = inBurst past + 1 := by
          rw [inBurst_snoc]
          simp [read, last]
        exact counter.counts.resolve_left (by omega)

theorem framingInv_step {past : List (Tick p)} {s : RamWriter p} {i : WriterPins p}
    (inv : FramingInv past s) (inStep : CounterInStep past ⟨s, i⟩)
    (inTime : AddressInTime past ⟨s, i⟩) : FramingInv (past ++ [⟨s, i⟩]) (posedge true s i) := by
  cases awvalid : s.intAwvalidReg with
  | true =>
    have busy := inv.waits awvalid
    exact framingInv_opening inv inStep inTime (by simp [intAwvalidWire, awvalid])
      (by simp [intWvalidWire, busy]) (inv.opened (Or.inl awvalid))
  | false =>
    cases busy : s.intWvalidReg with
    | true => exact framingInv_running inv inStep awvalid busy
    | false =>
      have same := inv.opened (Or.inr busy)
      cases start : s.intValidWire with
      | true =>
        exact framingInv_opening inv inStep inTime (by simp [intAwvalidWire, start])
          (by simp [intWvalidWire, start]) same
      | false =>
        have quiet : s.intAwvalidWire = false := by simp [intAwvalidWire, start, awvalid]
        have idle : s.intWvalidWire = false := by simp [intWvalidWire, start, busy]
        have held : s.awFires i = false := by simp [awFires, quiet]
        have read : s.intRdenWire i = false := by simp [intRdenWire, idle]
        refine ⟨counterInv_step inv.counter inStep, by simp [quiet], fun _ => ?_, by simp [idle]⟩
        simp [announced_snoc, burstLengths_snoc, held, read, same]

theorem run_framingInv {past : List (Tick p)} {s : RamWriter p} (run : (circuit p).Run past s)
    (inStep : Held CounterInStep past) (inTime : Held AddressInTime past) : FramingInv past s :=
  run.invariant (E := fun before c => CounterInStep before c ∧ AddressInTime before c)
    (fun _ reset => framingInv_reset reset)
    (fun _ _ _ _ inv env => framingInv_step inv env.1 env.2) (held_and.mpr ⟨inStep, inTime⟩)

theorem FramingInv.lengths {past : List (Tick p)} {s : RamWriter p} (inv : FramingInv past s) :
    ∃ last, announced past = burstLengths past ++ last ∧ ∀ n ∈ last, inBurst past < n := by
  cases awvalid : s.intAwvalidReg with
  | true => exact ⟨[], by simpa using inv.opened (Or.inl awvalid), by simp⟩
  | false =>
    cases busy : s.intWvalidReg with
    | false => exact ⟨[], by simpa using inv.opened (Or.inr busy), by simp⟩
    | true =>
      refine ⟨_, (inv.running awvalid busy).1, ?_⟩
      intro n member
      rw [List.mem_singleton.mp member]
      exact Nat.lt_succ_of_le inv.counter.within

/-- In every run in which the counter is in step with the bursts and no burst outruns its
address, `m_axi_wlast` closes each W burst at its announced length. -/
theorem run_burstsFramed {past : List (Tick p)} {s : RamWriter p} (run : (circuit p).Run past s)
    (inStep : Held CounterInStep past) (inTime : Held AddressInTime past) : BurstsFramed past := by
  obtain ⟨last, lengths, within⟩ := (run_framingInv run inStep inTime).lengths
  have sent : past.flatMap wBeat <+: past.flatMap handed := ⟨_, run_wBeat run⟩
  intro k req taken
  have known : (announced past)[k]? = some (req.2.toNat + 1) := by
    rw [announced, List.getElem?_map, getElem?_mono ⟨_, run_awReq run⟩ taken]
    rfl
  refine ⟨?_, ?_⟩
  · intro f closed
    have bursts := frames_mono Prod.fst sent
    have same : (burstLengths past)[k]? = some f.length := by
      rw [burstLengths, List.getElem?_map, getElem?_mono bursts closed]
      rfl
    rw [lengths, List.getElem?_append_left (List.getElem?_eq_some_iff.mp same).1, same] at known
    exact Option.some.inj known
  · rintro rfl
    obtain ⟨more, split⟩ := sent
    rcases rest_append Prod.fst (past.flatMap wBeat) more with ⟨tail, found, some⟩ | ⟨same, grown⟩
    · have length : (burstLengths past)[(frames Prod.fst (past.flatMap wBeat)).length]? =
          .some ((rest Prod.fst (past.flatMap wBeat)).length + tail.length) := by
        rw [burstLengths, List.getElem?_map, ← split, found, ← List.length_append]
        rfl
      rw [lengths, List.getElem?_append_left (List.getElem?_eq_some_iff.mp length).1, length] at known
      have := List.length_pos_of_ne_nil some
      have := Option.some.inj known
      omega
    · have count : (burstLengths past).length = (frames Prod.fst (past.flatMap wBeat)).length := by
        rw [burstLengths, List.length_map, ← split, same]
      have grows : (rest Prod.fst (past.flatMap wBeat)).length ≤ inBurst past := by
        rw [inBurst, ← split, grown, List.length_append]
        exact Nat.le_add_right _ _
      rw [lengths, List.getElem?_append_right (by omega)] at known
      have := within _ (List.mem_of_getElem? known)
      omega

def twoPackets : List (WriterPins deployed) :=
  onePacket ++ onePacket ++ List.replicate 16 (pins none true true)

theorem run_burstsFramed_onePacket : BurstsFramed ((circuit deployed).trace fresh onePacket) :=
  run_burstsFramed (run_trace fresh_reset onePacket) (by decide +kernel) (by decide +kernel)

/-- The flush of the second packet starts at the counter value the first one left: two beats
are announced and sixteen sent. -/
theorem twoPackets_misframed :
    (circuit deployed).Run ((circuit deployed).trace fresh twoPackets)
      ((circuit deployed).after fresh twoPackets) ∧
    ¬ BurstsFramed ((circuit deployed).trace fresh twoPackets) := by
  refine ⟨run_trace fresh_reset twoPackets, fun framed => ?_⟩
  have second := (framed 1 (0x10000080, 1) (by decide +kernel)).1
  let sent := frames Prod.fst (((circuit deployed).trace fresh twoPackets).flatMap wBeat)
  have sixteen : sent[1]?.map List.length = some 16 := by decide +kernel
  obtain ⟨f, found, length⟩ := Option.map_eq_some_iff.mp sixteen
  rw [second f found] at length
  exact absurd length (by decide)

end Switcheck.RamWriter
