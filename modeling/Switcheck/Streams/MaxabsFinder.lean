import Mathlib.Order.Lattice
import Switcheck.Modules.Buffers
import Switcheck.Modules.Verilog
import Switcheck.Sync.Circuit
import Switcheck.Sync.Fifo

/-!
# `axis_maxabs_finder`

The sample that ends a window is not compared with the maximum that goes out.
-/

namespace Switcheck

open Sync Circuit

structure MaxabsFinder (c w : Nat) where
  intMaxReg : BitVec w
  intTdataReg : BitVec w
  intCntrReg : BitVec c
  intTvalidReg : Bool
  deriving DecidableEq

structure MaxabsFinderPins (w : Nat) where
  sAxisTdata : BitVec w
  sAxisTvalid : Bool
  mAxisTready : Bool

namespace MaxabsFinder

variable {c w : Nat}

def intCompWire (cfgData : BitVec c) (s : MaxabsFinder c w) : Bool :=
  decide (s.intCntrReg < cfgData)

/-- `int_abs_wire`. -/
def magnitude (x : BitVec w) : BitVec w := if x.msb then ~~~x else x

def posedge (aresetn : Bool) (cfgData : BitVec c) (s : MaxabsFinder c w) (i : MaxabsFinderPins w) :
    MaxabsFinder c w where
  intMaxReg :=
    if !aresetn then 0
    else if i.sAxisTvalid && !s.intCompWire cfgData then 0
    else if i.sAxisTvalid && s.intCompWire cfgData then
      if magnitude i.sAxisTdata > s.intMaxReg then magnitude i.sAxisTdata else s.intMaxReg
    else s.intMaxReg
  intTdataReg :=
    if !aresetn then 0
    else if i.sAxisTvalid && !s.intCompWire cfgData then s.intMaxReg
    else s.intTdataReg
  intCntrReg :=
    if !aresetn then 0
    else if i.sAxisTvalid && !s.intCompWire cfgData then 0
    else if i.sAxisTvalid && s.intCompWire cfgData then s.intCntrReg + 1
    else s.intCntrReg
  intTvalidReg :=
    if !aresetn then false
    else if i.mAxisTready && s.intTvalidReg then false
    else if i.sAxisTvalid && !s.intCompWire cfgData then true
    else s.intTvalidReg

def circuit (w : Nat) (cfgData : BitVec c) : Circuit (MaxabsFinder c w) (MaxabsFinderPins w) where
  Reset s := ∃ s₀ i, s = posedge false cfgData s₀ i
  tick := posedge true cfgData

abbrev Tick (c w : Nat) := Clock (MaxabsFinder c w) (MaxabsFinderPins w)

/-- `s_axis_tready` is high. -/
def sAccepted (c : Tick c w) : List (BitVec w) := beat c.pins.sAxisTvalid c.pins.sAxisTdata

def mAccepted (c : Tick c w) : List (BitVec w) :=
  beat (c.regs.intTvalidReg && c.pins.mAxisTready) c.regs.intTdataReg

def offered (s : MaxabsFinder c w) : List (BitVec w) := beat s.intTvalidReg s.intTdataReg

abbrev samples (past : List (Tick c w)) : List (BitVec w) := past.flatMap sAccepted

/-- The largest magnitude, 0 of no samples. -/
def peak (xs : List (BitVec w)) : Nat := (xs.map fun x => (magnitude x).toNat).foldl max 0

/-- Samples taken `cfg_data + 1` at a time, and the peak of each window. -/
def windows (cfgData : BitVec c) : Packing (BitVec w) (BitVec w) Nat where
  wrLanes := 1
  rdLanes := cfgData.toNat + 1
  lanes x := [x]
  word := peak
  lanes_length _ := rfl
  wrLanes_pos := Nat.one_pos
  rdLanes_pos := Nat.succ_pos _

variable {cfg : BitVec c} {past : List (Tick c w)} {s : MaxabsFinder c w} {i : MaxabsFinderPins w}

/-- What has left and what is on offer are the peaks of the windows. -/
def Covers (cfg : BitVec c) (past : List (Tick c w)) (s : MaxabsFinder c w) : Prop :=
  (past.flatMap mAccepted ++ s.offered).map BitVec.toNat = (windows cfg).words (samples past)

instance (past : List (Tick c w)) (s : MaxabsFinder c w) : Decidable (Covers cfg past s) :=
  inferInstanceAs (Decidable (_ = _))

/-- The samples of the window that is not complete. -/
def partOf (cfg : BitVec c) (past : List (Tick c w)) : List (BitVec w) :=
  (samples past).drop ((samples past).length / (cfg.toNat + 1) * (cfg.toNat + 1))

def closes (cfg : BitVec c) (c : Tick c w) : Bool :=
  c.pins.sAxisTvalid && !c.regs.intCompWire cfg

/-- A sample that closes a window comes with no word on offer, and is not the only one of the window
with the largest magnitude. -/
def ClosesBelow (cfg : BitVec c) (before : List (Tick c w)) (c : Tick c w) : Prop :=
  closes cfg c = true →
    c.regs.intTvalidReg = false ∧ (magnitude c.pins.sAxisTdata).toNat ≤ peak (partOf cfg before)

instance (before : List (Tick c w)) (c : Tick c w) : Decidable (ClosesBelow cfg before c) :=
  inferInstanceAs (Decidable (_ → _ ∧ _))

def Ready (_ : List (Tick c w)) (c : Tick c w) : Prop := c.pins.mAxisTready = true

instance (before : List (Tick c w)) (c : Tick c w) : Decidable (Ready before c) :=
  inferInstanceAs (Decidable (_ = _))

theorem peak_snoc (xs : List (BitVec w)) (x : BitVec w) :
    peak (xs ++ [x]) = max (peak xs) (magnitude x).toNat := by
  simp [peak]

/-- The registers after a number of samples, of which the last make up the open window. -/
structure Open (cfg : BitVec c) (past : List (Tick c w)) (s : MaxabsFinder c w) : Prop where
  cntr : s.intCntrReg.toNat = (partOf cfg past).length
  max : s.intMaxReg.toNat = peak (partOf cfg past)

theorem partOf_length (cfg : BitVec c) (past : List (Tick c w)) :
    (partOf cfg past).length = (samples past).length % (cfg.toNat + 1) := by
  rw [partOf, List.length_drop]
  have whole := Nat.mod_add_div' (samples past).length (cfg.toNat + 1)
  omega

theorem words_windows (cfg : BitVec c) (past : List (Tick c w)) (ys : List (BitVec w)) :
    (windows cfg).words (samples past ++ ys) =
      (windows cfg).words (samples past) ++ (windows cfg).words (partOf cfg past ++ ys) := by
  have short : (windows cfg).words (partOf cfg past) = [] := by
    refine Packing.words_short _ ?_
    rw [partOf_length]
    exact Nat.mod_lt _ (Nat.succ_pos _)
  have whole : (windows (w := w) cfg).rdLanes ∣
      ((samples past).take ((samples past).length / (cfg.toNat + 1) * (cfg.toNat + 1))).length := by
    rw [List.length_take_of_le (Nat.div_mul_le_self _ _)]
    exact Nat.dvd_mul_left _ _
  have split : samples past =
      (samples past).take ((samples past).length / (cfg.toNat + 1) * (cfg.toNat + 1)) ++
        partOf cfg past := (List.take_append_drop _ _).symm
  conv_lhs => rw [split, List.append_assoc, Packing.words_append _ _ whole]
  conv_rhs => rw [split, Packing.words_append _ _ whole, short, List.append_nil]

/-- A sample closes the window exactly when the window has only this place left. -/
theorem closes_iff (opens : Open cfg past s) (valid : i.sAxisTvalid = true) :
    closes cfg ⟨s, i⟩ = true ↔ (partOf cfg past).length = cfg.toNat := by
  have bound := Nat.mod_lt (samples past).length (Nat.succ_pos cfg.toNat)
  rw [← Nat.add_one, ← partOf_length] at bound
  have last : closes cfg ⟨s, i⟩ = true ↔ ¬ s.intCntrReg.toNat < cfg.toNat := by
    simp [closes, valid, intCompWire, BitVec.lt_def]
  rw [last, opens.cntr]
  omega

theorem samples_valid (past : List (Tick c w)) (s : MaxabsFinder c w)
    (valid : i.sAxisTvalid = true) :
    samples (past ++ [⟨s, i⟩]) = samples past ++ [i.sAxisTdata] := by
  simp [sAccepted, valid]

theorem partOf_closes (past : List (Tick c w)) (s : MaxabsFinder c w)
    (valid : i.sAxisTvalid = true) (last : (partOf cfg past).length = cfg.toNat) :
    partOf cfg (past ++ [⟨s, i⟩]) = [] := by
  have turn := succ_mod_succ (samples past).length cfg.toNat
  rw [partOf_length] at last
  rw [← List.length_eq_zero_iff, partOf_length, samples_valid past s valid, List.length_append,
    List.length_singleton, turn, if_neg (by omega)]

theorem partOf_onward (past : List (Tick c w)) (s : MaxabsFinder c w)
    (valid : i.sAxisTvalid = true) (more : (partOf cfg past).length ≠ cfg.toNat) :
    partOf cfg (past ++ [⟨s, i⟩]) = partOf cfg past ++ [i.sAxisTdata] := by
  have same : ((samples past).length + 1) / (cfg.toNat + 1) =
      (samples past).length / (cfg.toNat + 1) := by
    refine Nat.succ_div_of_not_dvd ?_
    rwa [succ_dvd_succ_iff, ← partOf_length]
  rw [partOf, samples_valid past s valid, List.length_append, List.length_singleton, same,
    List.drop_append_of_le_length (Nat.div_mul_le_self _ _)]
  rfl

/-! ### The registers -/

theorem posedge_onward (valid : i.sAxisTvalid = true) (onward : closes cfg ⟨s, i⟩ = false) :
    (posedge true cfg s i).intCntrReg = s.intCntrReg + 1 ∧
    (posedge true cfg s i).intMaxReg =
      if magnitude i.sAxisTdata > s.intMaxReg then magnitude i.sAxisTdata else s.intMaxReg := by
  have below : s.intCompWire cfg = true := by simpa [closes, valid] using onward
  simp [posedge, valid, below]

theorem run_open (run : (circuit w cfg).Run past s) : Open cfg past s := by
  induction run with
  | reset reset =>
    obtain ⟨s₀, i, rfl⟩ := reset
    exact ⟨by simp [posedge, partOf], by simp [posedge, partOf, peak]⟩
  | @tick past s run i opens =>
    show Open cfg _ (posedge true cfg s i)
    cases valid : i.sAxisTvalid with
    | false =>
      have same : partOf cfg (past ++ [⟨s, i⟩]) = partOf cfg past := by
        simp [partOf, sAccepted, valid]
      refine ⟨?_, ?_⟩
      · rw [same, ← opens.cntr]
        simp [posedge, valid]
      · rw [same, ← opens.max]
        simp [posedge, valid]
    | true =>
      cases ends : closes cfg ⟨s, i⟩ with
      | true =>
        have none := partOf_closes past s valid ((closes_iff opens valid).mp ends)
        have last : s.intCompWire cfg = false := by simpa [closes, valid] using ends
        refine ⟨?_, ?_⟩
        · rw [none]
          simp [posedge, valid, last]
        · rw [none]
          simp [posedge, valid, last, peak]
      | false =>
        have more : (partOf cfg past).length ≠ cfg.toNat := fun last => by
          rw [(closes_iff opens valid).mpr last] at ends
          cases ends
        obtain ⟨cntr, max⟩ := posedge_onward valid ends
        have room : (partOf cfg past).length + 1 ≤ cfg.toNat := by
          have bound := Nat.mod_lt (samples past).length (Nat.succ_pos cfg.toNat)
          rw [← Nat.add_one, ← partOf_length] at bound
          omega
        have width := cfg.isLt
        refine ⟨?_, ?_⟩
        · rw [partOf_onward past s valid more, cntr, List.length_append, List.length_singleton,
            ← opens.cntr, toNat_add_one]
          rw [opens.cntr]
          omega
        · rw [partOf_onward past s valid more, max, peak_snoc, ← opens.max]
          split
          · rename_i rises
            exact (Nat.max_eq_right (Nat.le_of_lt rises)).symm
          · rename_i stays
            exact (Nat.max_eq_left (Nat.le_of_not_lt stays)).symm

/-! ### The output register -/

theorem offered_between (onward : closes cfg ⟨s, i⟩ = false) :
    mAccepted ⟨s, i⟩ ++ (posedge true cfg s i).offered = s.offered := by
  unfold closes at onward
  unfold mAccepted offered posedge
  cases s.intTvalidReg <;> cases i.mAxisTready <;> simp [onward]

/-- The window's word is the maximum before the last sample, and is dropped if it comes as another
leaves. -/
theorem offered_end (ends : closes cfg ⟨s, i⟩ = true) (ready : i.mAxisTready = true) :
    mAccepted ⟨s, i⟩ ++ (posedge true cfg s i).offered =
      if s.intTvalidReg then s.offered else [s.intMaxReg] := by
  unfold closes at ends
  unfold mAccepted offered posedge
  cases s.intTvalidReg <;> simp [ends, ready]

theorem words_between (opens : Open cfg past s) (onward : closes cfg ⟨s, i⟩ = false) :
    (windows cfg).words (samples (past ++ [⟨s, i⟩])) = (windows cfg).words (samples past) := by
  cases valid : i.sAxisTvalid with
  | false =>
    have same : samples (past ++ [⟨s, i⟩]) = samples past := by simp [sAccepted, valid]
    rw [same]
  | true =>
    have more : (partOf cfg past).length ≠ cfg.toNat := fun last => by
      rw [(closes_iff opens valid).mpr last] at onward
      cases onward
    have bound := Nat.mod_lt (samples past).length (Nat.succ_pos cfg.toNat)
    rw [← Nat.add_one, ← partOf_length] at bound
    have short : (partOf cfg past ++ [i.sAxisTdata]).length < (windows (w := w) cfg).rdLanes := by
      rw [List.length_append, List.length_singleton]
      show _ < cfg.toNat + 1
      omega
    rw [samples_valid past s valid, words_windows, Packing.words_short _ short, List.append_nil]

theorem words_end (opens : Open cfg past s) (ends : closes cfg ⟨s, i⟩ = true) :
    (windows cfg).words (samples (past ++ [⟨s, i⟩])) =
      (windows cfg).words (samples past) ++ [peak (partOf cfg past ++ [i.sAxisTdata])] := by
  have valid : i.sAxisTvalid = true := by
    rw [closes, Bool.and_eq_true] at ends
    exact ends.1
  have last := (closes_iff opens valid).mp ends
  have whole : (partOf cfg past ++ [i.sAxisTdata]).length = (windows (w := w) cfg).rdLanes := by
    rw [List.length_append, List.length_singleton, last]
    rfl
  rw [samples_valid past s valid, words_windows, Packing.words_whole _ whole]
  rfl

theorem covers_step (run : (circuit w cfg).Run past s) (inv : Covers cfg past s)
    (ready : Ready past ⟨s, i⟩) :
    Covers cfg (past ++ [⟨s, i⟩]) (posedge true cfg s i) ↔ ClosesBelow cfg past ⟨s, i⟩ := by
  have opens := run_open run
  unfold Covers at inv ⊢
  unfold ClosesBelow
  rw [flatMap_snoc, List.append_assoc]
  cases ends : closes cfg ⟨s, i⟩ with
  | false =>
    rw [offered_between ends, words_between opens ends]
    exact iff_of_true inv fun closing => by cases closing
  | true =>
    rw [offered_end ends ready, words_end opens ends, ← inv, List.map_append, List.map_append,
      List.append_assoc, List.append_cancel_left_eq]
    cases waits : s.intTvalidReg with
    | true => simp [offered, waits]
    | false => simp [offered, waits, opens.max, peak_snoc]

/-- One word for each window, its largest magnitude, throughout a run exactly when every sample that
closes a window finds no word on offer and is not larger than all others of its window. -/
theorem run_covers_iff (run : (circuit w cfg).Run past s) (ready : Held Ready past) :
    (Covers cfg past s ∧ Held (fun before c => Covers cfg before c.regs) past) ↔
      Held (ClosesBelow cfg) past := by
  refine run.throughout_iff_under (Q := Covers cfg) ?_ ?_ ?_ ready
  · rintro s ⟨s₀, i, rfl⟩
    have none : Covers cfg [] (posedge false cfg s₀ i) := by simp [Covers, offered, posedge]
    exact ⟨none, none⟩
  · exact fun past s i run inv ready => covers_step run inv ready
  · exact fun past s i run inv ready below => (covers_step run inv ready).mpr below

def fresh : MaxabsFinder 4 8 := ⟨0, 0, 0, false⟩

theorem fresh_reset : (circuit 8 1).Reset fresh := ⟨fresh, ⟨0, false, true⟩, rfl⟩

def taken (x : BitVec 8) : MaxabsFinderPins 8 := ⟨x, true, true⟩

/-- Windows of -8 and 5, 3 and -2. -/
def falling : List (MaxabsFinderPins 8) := [taken 0xf8, taken 5, taken 3, taken 0xfe]

theorem run_covers_iff_falling :
    Covers (1 : BitVec 4) ((circuit 8 1).trace fresh falling) ((circuit 8 1).after fresh falling) ∧
    ((circuit 8 (1 : BitVec 4)).trace fresh falling).flatMap mAccepted ++
      ((circuit 8 1).after fresh falling).offered = [7, 3] :=
  ⟨((run_covers_iff (run_trace fresh_reset falling) (by decide)).mpr (by decide)).1, by decide⟩

/-- The window of 1 and 5 gives 1. -/
theorem rising_leaves_out :
    Held Ready ((circuit 8 (1 : BitVec 4)).trace fresh [taken 1, taken 5]) ∧
    (windows (1 : BitVec 4)).words (samples ((circuit 8 1).trace fresh [taken 1, taken 5])) = [5] ∧
    ((circuit 8 (1 : BitVec 4)).after fresh [taken 1, taken 5]).offered = [1] ∧
    ¬ ∀ (past : List (Tick 4 8)) (s : MaxabsFinder 4 8), (circuit 8 (1 : BitVec 4)).Run past s →
      Held Ready past → Covers (1 : BitVec 4) past s := by
  refine ⟨by decide, by decide, by decide, fun claim => ?_⟩
  have covers := claim _ _ (run_trace fresh_reset [taken 1, taken 5]) (by decide)
  exact absurd covers (by decide)

end MaxabsFinder

end Switcheck
