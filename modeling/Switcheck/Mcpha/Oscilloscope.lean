import Switcheck.Sync.Circuit
import Switcheck.Modules.Verilog

/-!
# `axis_oscilloscope`

One counter serves for the samples before the trigger, the samples until it, and those after it,
where it starts again from the setting and the place of the trigger in its block of 64 samples.
-/

namespace Switcheck

open Sync Circuit

structure Oscilloscope (w : Nat) where
  intAddrReg : BitVec w
  intCntrReg : BitVec w
  intRunReg : Bool
  intPreReg : Bool
  intTrgReg : Bool
  intTotReg : Bool
  deriving DecidableEq

structure OscilloscopePins where
  runFlag : Bool
  trgFlag : Bool
  sAxisTvalid : Bool

/-- `pre_data` and `tot_data`, one less than the requested numbers of samples. -/
structure ScopeWindow (w : Nat) where
  preData : BitVec w
  totData : BitVec w

namespace Oscilloscope

variable {w : Nat}

/-- `int_cntr_reg[5:0]`, the place of a sample in its block. -/
def inBlock (cntr : BitVec w) : BitVec w := (cntr.setWidth 6).setWidth w

/-- The sample after the trigger is taken: its position goes to the address register. -/
def latches (s : Oscilloscope w) (i : OscilloscopePins) : Bool :=
  s.intRunReg && i.sAxisTvalid && (!s.intTotReg && s.intTrgReg)

/-- The sample with which the running status falls. -/
def stops (window : ScopeWindow w) (s : Oscilloscope w) (i : OscilloscopePins) : Bool :=
  s.intRunReg && i.sAxisTvalid && (s.intTotReg && s.intCntrReg == window.totData)

def starts (s : Oscilloscope w) (i : OscilloscopePins) : Bool := !s.intRunReg && i.runFlag

def posedge (aresetn : Bool) (window : ScopeWindow w) (s : Oscilloscope w)
    (i : OscilloscopePins) : Oscilloscope w where
  intAddrReg :=
    if !aresetn || s.starts i then 0
    else if s.latches i then s.intCntrReg
    else s.intAddrReg
  intCntrReg :=
    if !aresetn || s.starts i then 0
    else if s.latches i then window.preData + inBlock s.intCntrReg
    else if s.intRunReg && i.sAxisTvalid then s.intCntrReg + 1
    else s.intCntrReg
  intRunReg :=
    if !aresetn then false
    else if s.starts i then true
    else if s.stops window i then false
    else s.intRunReg
  intPreReg :=
    if !aresetn || s.starts i then false
    else if s.intRunReg && i.sAxisTvalid && s.intCntrReg == window.preData then true
    else s.intPreReg
  intTrgReg :=
    if !aresetn || s.starts i then false
    else if s.intRunReg && (s.intPreReg && i.trgFlag) then true
    else s.intTrgReg
  intTotReg :=
    if !aresetn || s.starts i then false
    else if s.latches i then true
    else s.intTotReg

def stsData (s : Oscilloscope w) : BitVec (w + 1) := s.intAddrReg ++ BitVec.ofBool s.intRunReg

def mAxisTvalid (s : Oscilloscope w) (i : OscilloscopePins) : Bool := s.intRunReg && i.sAxisTvalid

def circuit (window : ScopeWindow w) : Circuit (Oscilloscope w) OscilloscopePins where
  Reset s := ∃ s₀ i, s = posedge false window s₀ i
  tick := posedge true window

abbrev Tick (w : Nat) := Clock (Oscilloscope w) OscilloscopePins

/-! ### The samples of a run -/

/-- The samples emitted since the run started, and how many there were when the trigger position
was latched. -/
structure Tally where
  emitted : Nat
  trigger : Nat

def Tally.next (t : Tally) (c : Tick w) : Tally where
  emitted := if c.regs.starts c.pins then 0 else t.emitted + (c.regs.mAxisTvalid c.pins).toNat
  trigger := if c.regs.latches c.pins then t.emitted else t.trigger

def tally (past : List (Tick w)) : Tally := past.foldl Tally.next ⟨0, 0⟩

def windowPos (window : ScopeWindow w) (s : Oscilloscope w) (k : Nat) : BitVec w :=
  s.intAddrReg - (window.preData + 1) + BitVec.ofNat w k

def Captured (window : ScopeWindow w) (past : List (Tick w)) (s : Oscilloscope w) : Prop :=
  ∀ k ≤ window.totData.toNat, ∃ m < (tally past).emitted, BitVec.ofNat w m = windowPos window s k

variable {window : ScopeWindow w} {past : List (Tick w)} {s : Oscilloscope w}
  {i : OscilloscopePins}

theorem tally_snoc (past : List (Tick w)) (c : Tick w) :
    tally (past ++ [c]) = (tally past).next c := by
  simp [tally]

/-! ### A window of a ring -/

/-- The first `n` samples reach each place of a window round a ring of `size` exactly when they
fill the ring or reach the end of the window. -/
theorem ring_covered_iff {size n a t : Nat} (ring : 0 < size) (before : a ≤ n) :
    (∀ k ≤ t, ∃ m < n, m % size = (a + k) % size) ↔ size ≤ n ∨ a + t < n := by
  constructor
  · intro all
    by_contra short
    obtain ⟨m, less, same⟩ := all (n - a) (by omega)
    rw [Nat.add_sub_cancel' before, Nat.mod_eq_of_lt (by omega), Nat.mod_eq_of_lt (by omega)] at same
    omega
  · rintro (filled | reached) k inside
    · have small := Nat.mod_lt (a + k) ring
      exact ⟨(a + k) % size, by omega, Nat.mod_mod _ _⟩
    · exact ⟨a + k, by omega, rfl⟩

theorem inBlock_toNat (cntr : BitVec w) : (inBlock cntr).toNat = cntr.toNat % 64 := by
  have bound := cntr.isLt
  have small := Nat.mod_le cntr.toNat 64
  simp only [inBlock, BitVec.toNat_setWidth]
  exact Nat.mod_eq_of_lt (by omega)

/-- The samples still to come after the one that is latched as sample `n`. -/
def remaining (window : ScopeWindow w) (n : Nat) : Nat :=
  (window.totData - window.preData - inBlock (BitVec.ofNat w n)).toNat

theorem remaining_eq (window : ScopeWindow w) (below : window.preData < window.totData) (n : Nat) :
    remaining window n =
      if n % 2 ^ w % 64 ≤ window.totData.toNat - window.preData.toNat then
        window.totData.toNat - window.preData.toNat - n % 2 ^ w % 64
      else 2 ^ w - (n % 2 ^ w % 64 - (window.totData.toNat - window.preData.toNat)) := by
  have less : window.preData.toNat < window.totData.toNat := below
  have span : (window.totData - window.preData).toNat =
      window.totData.toNat - window.preData.toNat :=
    BitVec.toNat_sub_of_le (Nat.le_of_lt less)
  have place : (inBlock (BitVec.ofNat w n)).toNat = n % 2 ^ w % 64 := by
    rw [inBlock_toNat, BitVec.toNat_ofNat]
  unfold remaining
  rw [← span, ← place]
  split
  · rename_i small
    exact BitVec.toNat_sub_of_le small
  · rename_i large
    exact BitVec.toNat_sub_of_lt (Nat.lt_of_not_le large)

/-! ### The phases of a run -/

/-- Not running; counting samples until the trigger is latched; counting the rest. -/
inductive Phase (window : ScopeWindow w) (t : Tally) (s : Oscilloscope w) : Prop where
  | idle : s.intRunReg = false → Phase window t s
  | seeks : s.intRunReg = true → s.intTotReg = false → s.intCntrReg = BitVec.ofNat w t.emitted →
      (s.intPreReg = true → window.preData.toNat < t.emitted) →
      (s.intTrgReg = true → s.intPreReg = true) → Phase window t s
  | fills (k : Nat) : s.intRunReg = true → s.intTotReg = true →
      s.intAddrReg = BitVec.ofNat w t.trigger → window.preData.toNat < t.trigger →
      k ≤ remaining window t.trigger → t.emitted = t.trigger + 1 + k →
      s.intCntrReg = window.preData + inBlock s.intAddrReg + BitVec.ofNat w k → Phase window t s

/-- The counter reaches the setting with the last of the remaining samples. -/
theorem counts_to_iff {n k : Nat} (inside : k ≤ remaining window n) :
    window.preData + inBlock (BitVec.ofNat w n) + BitVec.ofNat w k = window.totData ↔
      k = remaining window n := by
  constructor
  · intro reached
    have left : window.totData - window.preData - inBlock (BitVec.ofNat w n) = BitVec.ofNat w k := by
      grind
    have bound : remaining window n < 2 ^ w := BitVec.isLt _
    have count := congrArg BitVec.toNat left
    rw [BitVec.toNat_ofNat, Nat.mod_eq_of_lt (by omega)] at count
    exact count.symm
  · rintro rfl
    unfold remaining
    rw [BitVec.ofNat_toNat, BitVec.setWidth_eq]
    grind

theorem phase_idle (idle : s.intRunReg = false) (t : Tally) :
    Phase window (t.next ⟨s, i⟩) (posedge true window s i) := by
  cases flag : i.runFlag with
  | false =>
    refine .idle ?_
    simp [posedge, starts, stops, idle, flag]
  | true =>
    refine .seeks ?_ ?_ ?_ ?_ ?_
    · simp [posedge, starts, idle, flag]
    · simp [posedge, starts, idle, flag]
    · simp [posedge, Tally.next, starts, idle, flag]
    · simp [posedge, starts, idle, flag]
    · simp [posedge, starts, idle, flag]

theorem posedge_pre (run : s.intRunReg = true) : (posedge true window s i).intPreReg = true ↔
    s.intPreReg = true ∨ (i.sAxisTvalid = true ∧ s.intCntrReg = window.preData) := by
  simp [posedge, starts, run, or_comm]

theorem posedge_trg (run : s.intRunReg = true) : (posedge true window s i).intTrgReg = true ↔
    s.intTrgReg = true ∨ (s.intPreReg = true ∧ i.trgFlag = true) := by
  simp [posedge, starts, run, or_comm]

theorem emitted_running (run : s.intRunReg = true) (t : Tally) :
    (t.next ⟨s, i⟩).emitted = t.emitted + i.sAxisTvalid.toNat := by
  simp [Tally.next, starts, mAxisTvalid, run]

theorem trigger_unlatched (unlatched : s.latches i = false) (t : Tally) :
    (t.next ⟨s, i⟩).trigger = t.trigger := by
  simp [Tally.next, unlatched]

theorem posedge_counts (run : s.intRunReg = true) (unlatched : s.latches i = false)
    (onward : s.stops window i = false) :
    (posedge true window s i).intRunReg = true ∧
    (posedge true window s i).intTotReg = s.intTotReg ∧
    (posedge true window s i).intAddrReg = s.intAddrReg ∧
    (posedge true window s i).intCntrReg =
      if i.sAxisTvalid then s.intCntrReg + 1 else s.intCntrReg := by
  simp [posedge, starts, run, unlatched, onward]

theorem posedge_latches (run : s.intRunReg = true) (latched : s.latches i = true)
    (onward : s.stops window i = false) :
    (posedge true window s i).intRunReg = true ∧
    (posedge true window s i).intTotReg = true ∧
    (posedge true window s i).intAddrReg = s.intCntrReg ∧
    (posedge true window s i).intCntrReg = window.preData + inBlock s.intCntrReg := by
  simp [posedge, starts, run, latched, onward]

theorem ofNat_succ (n : Nat) : BitVec.ofNat w (n + 1) = BitVec.ofNat w n + 1 := by
  rw [BitVec.ofNat_add]
  rfl

theorem phase_seeks {t : Tally} (run : s.intRunReg = true) (tot : s.intTotReg = false)
    (cntr : s.intCntrReg = BitVec.ofNat w t.emitted)
    (pre : s.intPreReg = true → window.preData.toNat < t.emitted)
    (trg : s.intTrgReg = true → s.intPreReg = true) :
    Phase window (t.next ⟨s, i⟩) (posedge true window s i) := by
  have onward : s.stops window i = false := by simp [stops, tot]
  cases latched : s.latches i with
  | false =>
    obtain ⟨runs, tot', -, cntr'⟩ := posedge_counts run latched onward
    refine .seeks runs (tot'.trans tot) ?_ ?_ ?_
    · rw [cntr', emitted_running run, cntr]
      cases i.sAxisTvalid with
      | false => rfl
      | true => exact (ofNat_succ _).symm
    · rw [posedge_pre run, emitted_running run]
      rintro (old | ⟨valid, first⟩)
      · have enough := pre old
        omega
      · have count := congrArg BitVec.toNat first
        have small := Nat.mod_le t.emitted (2 ^ w)
        rw [cntr, BitVec.toNat_ofNat] at count
        rw [valid, Bool.toNat_true]
        omega
    · rw [posedge_pre run, posedge_trg run]
      rintro (old | ⟨now, -⟩)
      · exact .inl (trg old)
      · exact .inl now
  | true =>
    obtain ⟨runs, tot', addr', cntr'⟩ := posedge_latches run latched onward
    have taken : i.sAxisTvalid = true ∧ s.intTrgReg = true := by
      simpa [latches, run, tot] using latched
    have trigger : (t.next ⟨s, i⟩).trigger = t.emitted := by simp [Tally.next, latched]
    refine .fills 0 runs tot' ?_ ?_ (Nat.zero_le _) ?_ ?_
    · rw [addr', trigger, cntr]
    · rw [trigger]
      exact pre (trg taken.2)
    · rw [trigger, emitted_running run, taken.1]
      rfl
    · rw [cntr', addr']
      simp

theorem phase_fills {t : Tally} {k : Nat} (run : s.intRunReg = true) (tot : s.intTotReg = true)
    (addr : s.intAddrReg = BitVec.ofNat w t.trigger) (pre : window.preData.toNat < t.trigger)
    (inside : k ≤ remaining window t.trigger) (emitted : t.emitted = t.trigger + 1 + k)
    (cntr : s.intCntrReg = window.preData + inBlock s.intAddrReg + BitVec.ofNat w k) :
    Phase window (t.next ⟨s, i⟩) (posedge true window s i) := by
  have unlatched : s.latches i = false := by simp [latches, tot]
  cases stopped : s.stops window i with
  | true => exact .idle (by simp [posedge, starts, run, stopped])
  | false =>
    obtain ⟨runs, tot', addr', cntr'⟩ := posedge_counts run unlatched stopped
    cases valid : i.sAxisTvalid with
    | false =>
      refine .fills k runs (tot'.trans tot) ?_ ?_ ?_ ?_ ?_
      · rw [addr', trigger_unlatched unlatched, addr]
      · rwa [trigger_unlatched unlatched]
      · rwa [trigger_unlatched unlatched]
      · rw [trigger_unlatched unlatched, emitted_running run, valid, emitted]
        rfl
      · rw [cntr', addr', valid]
        exact cntr
    | true =>
      have short : k ≠ remaining window t.trigger := by
        intro last
        rw [addr, (counts_to_iff inside).mpr last] at cntr
        simp [stops, run, valid, tot, cntr] at stopped
      refine .fills (k + 1) runs (tot'.trans tot) ?_ ?_ ?_ ?_ ?_
      · rw [addr', trigger_unlatched unlatched, addr]
      · rwa [trigger_unlatched unlatched]
      · rw [trigger_unlatched unlatched]
        omega
      · rw [trigger_unlatched unlatched, emitted_running run, valid, emitted]
        rfl
      · rw [cntr', addr', valid, if_pos rfl, cntr, ofNat_succ]
        grind

theorem phase_step {t : Tally} (phase : Phase window t s) :
    Phase window (t.next ⟨s, i⟩) (posedge true window s i) := by
  cases phase with
  | idle idle => exact phase_idle idle t
  | seeks run tot cntr pre trg => exact phase_seeks run tot cntr pre trg
  | fills k run tot addr pre inside emitted cntr =>
    exact phase_fills run tot addr pre inside emitted cntr

theorem run_phase (run : (circuit window).Run past s) : Phase window (tally past) s := by
  induction run with
  | reset reset =>
    obtain ⟨s₀, i, rfl⟩ := reset
    exact .idle rfl
  | tick run i ih =>
    rw [tally_snoc]
    exact phase_step ih

/-! ### The end of a run -/

theorem stops_of_falls (running : s.intRunReg = true)
    (fallen : (posedge true window s i).intRunReg = false) : s.stops window i = true := by
  cases stopped : s.stops window i with
  | true => rfl
  | false => simp [posedge, starts, running, stopped] at fallen

theorem run_emitted (run : (circuit window).Run past s) (running : s.intRunReg = true)
    (fallen : (posedge true window s i).intRunReg = false) :
    window.preData.toNat < (tally past).trigger ∧
    (posedge true window s i).intAddrReg = BitVec.ofNat w (tally past).trigger ∧
    (tally (past ++ [⟨s, i⟩])).emitted =
      (tally past).trigger + remaining window (tally past).trigger + 2 := by
  have stopped := stops_of_falls running fallen
  have parts : i.sAxisTvalid = true ∧ s.intTotReg = true ∧ s.intCntrReg = window.totData := by
    simpa [stops, running] using stopped
  obtain ⟨valid, tot, last⟩ := parts
  cases run_phase run with
  | idle idle =>
    rw [running] at idle
    cases idle
  | seeks _ seeking =>
    rw [tot] at seeking
    cases seeking
  | fills k _ _ addr pre inside emitted cntr =>
    rw [last, addr] at cntr
    have all := (counts_to_iff inside).mp cntr.symm
    refine ⟨pre, ?_, ?_⟩
    · rw [← addr]
      simp [posedge, starts, latches, running, tot]
    · rw [tally_snoc, emitted_running running, valid, emitted, all, Bool.toNat_true]
      omega

/-- The run goes on to the end of the window when the trigger, sample `n`, stands at one of the
first three places of its block, or when the samples that remain go round the ring. -/
def Reaches (window : ScopeWindow w) (n : Nat) : Prop :=
  n % 2 ^ w % 64 ≤ 2 ∨ window.totData.toNat - window.preData.toNat < n % 2 ^ w % 64 ∨
    2 ^ w ≤ n + (window.totData.toNat - window.preData.toNat - n % 2 ^ w % 64) + 2

instance (window : ScopeWindow w) (n : Nat) : Decidable (Reaches window n) :=
  inferInstanceAs (Decidable (_ ∨ _))

theorem windowPos_eq {n : Nat} (pre : window.preData.toNat < n)
    (addr : s.intAddrReg = BitVec.ofNat w n) (k : Nat) :
    windowPos window s k = BitVec.ofNat w (n - (window.preData.toNat + 1) + k) := by
  have first : BitVec.ofNat w n =
      BitVec.ofNat w (n - (window.preData.toNat + 1)) + (window.preData + 1) := by
    conv_lhs => rw [← Nat.sub_add_cancel (show window.preData.toNat + 1 ≤ n from pre)]
    rw [BitVec.ofNat_add, ofNat_succ, BitVec.ofNat_toNat, BitVec.setWidth_eq]
  rw [windowPos, addr, first, BitVec.add_sub_cancel, BitVec.ofNat_add]

theorem ofNat_eq_iff {n m : Nat} : BitVec.ofNat w n = BitVec.ofNat w m ↔ n % 2 ^ w = m % 2 ^ w := by
  rw [← BitVec.toNat_inj, BitVec.toNat_ofNat, BitVec.toNat_ofNat]

/-- When the running status falls, the window has been emitted since the run started exactly when
the place of the trigger lets the run reach its end. -/
theorem run_captured_iff (below : window.preData < window.totData)
    (run : (circuit window).Run past s) (running : s.intRunReg = true)
    (fallen : (posedge true window s i).intRunReg = false) :
    Captured window (past ++ [⟨s, i⟩]) (posedge true window s i) ↔
      Reaches window (tally past).trigger := by
  obtain ⟨pre, addr, emitted⟩ := run_emitted run running fallen
  have less : window.preData.toNat < window.totData.toNat := below
  have place := Nat.mod_le (tally past).trigger (2 ^ w)
  have inner := Nat.mod_le ((tally past).trigger % 2 ^ w) 64
  have size := Nat.two_pow_pos w
  unfold Captured
  simp only [windowPos_eq pre addr, ofNat_eq_iff, emitted]
  rw [ring_covered_iff size (by omega), remaining_eq window below, Reaches]
  split <;> omega

instance (window : ScopeWindow w) (past : List (Tick w)) (s : Oscilloscope w) :
    Decidable (Captured window past s) :=
  inferInstanceAs (Decidable (∀ k ≤ window.totData.toNat,
    ∃ m < (tally past).emitted, BitVec.ofNat w m = windowPos window s k))

def fresh : Oscilloscope 23 := ⟨0, 0, false, false, false, false⟩

def four : ScopeWindow 23 := ⟨0, 3⟩

theorem fresh_reset : (circuit four).Reset fresh := ⟨fresh, ⟨false, false, false⟩, rfl⟩

/-- A sample in every clock, the trigger flag with sample `n`, and `n` samples after it. -/
def triggered (n : Nat) : List OscilloscopePins :=
  ⟨true, false, false⟩ :: List.replicate n ⟨false, false, true⟩ ++ [⟨false, true, true⟩] ++
    List.replicate (3 - n) ⟨false, false, true⟩

theorem run_captured_iff_second :
    Captured four ((circuit four).trace fresh (triggered 1) ++
        [⟨(circuit four).after fresh (triggered 1), ⟨false, false, true⟩⟩])
      (posedge true four ((circuit four).after fresh (triggered 1)) ⟨false, false, true⟩) :=
  (run_captured_iff (by decide) (run_trace fresh_reset _) (by decide) (by decide)).mpr (by decide)

/-- The trigger is latched as sample 3, the run ends with sample 4, and the window with sample 5. -/
theorem triggered_endsEarly :
    (circuit four).Run ((circuit four).trace fresh (triggered 2))
      ((circuit four).after fresh (triggered 2)) ∧
    ((circuit four).after fresh (triggered 2)).intRunReg = true ∧
    (posedge true four ((circuit four).after fresh (triggered 2))
      ⟨false, false, true⟩).intRunReg = false ∧
    ¬ Captured four ((circuit four).trace fresh (triggered 2) ++
        [⟨(circuit four).after fresh (triggered 2), ⟨false, false, true⟩⟩])
      (posedge true four ((circuit four).after fresh (triggered 2)) ⟨false, false, true⟩) :=
  ⟨run_trace fresh_reset _, by decide, by decide, by decide⟩

end Oscilloscope

end Switcheck
