import Switcheck.Sync.Circuit
import Switcheck.Modules.Buffers
import Switcheck.Modules.Verilog

/-!
# `axis_decimator`

The input port is ready from the first clock on and stays so; the last word of a period goes to
the output register, whether or not the word there has left.
-/

namespace Switcheck

open Sync Circuit

structure AxisDecimator (d w : Nat) where
  intTdataReg : BitVec d
  intCntrReg : BitVec w
  intTvalidReg : Bool
  intTreadyReg : Bool
  deriving DecidableEq

structure DecimatorPins (d : Nat) where
  sAxisTdata : BitVec d
  sAxisTvalid : Bool
  mAxisTready : Bool

namespace AxisDecimator

variable {d w : Nat}

def intCompWire (cfgData : BitVec w) (s : AxisDecimator d w) : Bool :=
  decide (s.intCntrReg < cfgData)

def intTvalidWire (s : AxisDecimator d w) (i : DecimatorPins d) : Bool :=
  s.intTreadyReg && i.sAxisTvalid

def posedge (aresetn : Bool) (cfgData : BitVec w) (s : AxisDecimator d w) (i : DecimatorPins d) :
    AxisDecimator d w where
  intTdataReg :=
    if !aresetn then 0
    else if s.intTvalidWire i && !s.intCompWire cfgData then i.sAxisTdata
    else s.intTdataReg
  intCntrReg :=
    if !aresetn then 0
    else if s.intTvalidWire i && !s.intCompWire cfgData then 0
    else if s.intTvalidWire i && s.intCompWire cfgData then s.intCntrReg + 1
    else s.intCntrReg
  intTvalidReg :=
    if !aresetn then false
    else if i.mAxisTready && s.intTvalidReg then false
    else if s.intTvalidWire i && !s.intCompWire cfgData then true
    else s.intTvalidReg
  intTreadyReg :=
    if !aresetn then false
    else if !s.intTreadyReg && s.intCompWire cfgData then true
    else s.intTreadyReg

def circuit (d : Nat) (cfgData : BitVec w) : Circuit (AxisDecimator d w) (DecimatorPins d) where
  Reset s := ∃ s₀ i, s = posedge false cfgData s₀ i
  tick := posedge true cfgData

abbrev Tick (d w : Nat) := Clock (AxisDecimator d w) (DecimatorPins d)

def sAccepted (c : Tick d w) : List (BitVec d) :=
  beat (c.regs.intTvalidWire c.pins) c.pins.sAxisTdata

def mAccepted (c : Tick d w) : List (BitVec d) :=
  beat (c.regs.intTvalidReg && c.pins.mAxisTready) c.regs.intTdataReg

def offered (s : AxisDecimator d w) : List (BitVec d) := beat s.intTvalidReg s.intTdataReg

/-- The `n`-th, the `2 * n`-th, ... of some words. -/
def everyNth {β : Type} (n : Nat) (xs : List β) : List β :=
  (xs.zipIdx.filter fun x => decide (n ∣ x.2 + 1)).map Prod.fst

theorem everyNth_snoc {β : Type} (n : Nat) (xs : List β) (x : β) :
    everyNth n (xs ++ [x]) = everyNth n xs ++ beat (decide (n ∣ xs.length + 1)) x := by
  unfold everyNth
  rw [List.zipIdx_append, List.filter_append, List.map_append]
  by_cases whole : n ∣ xs.length + 1 <;> simp [whole]

variable {cfg : BitVec w} {past : List (Tick d w)} {s : AxisDecimator d w} {i : DecimatorPins d}

/-- What has left and what is on offer are the last words of the periods. -/
def Decimates (cfg : BitVec w) (past : List (Tick d w)) (s : AxisDecimator d w) : Prop :=
  past.flatMap mAccepted ++ s.offered = everyNth (cfg.toNat + 1) (past.flatMap sAccepted)

instance (past : List (Tick d w)) (s : AxisDecimator d w) : Decidable (Decimates cfg past s) :=
  inferInstanceAs (Decidable (_ = _))

def Stable (cfg : BitVec w) (c : Tick d w) : Prop :=
  c.regs.intTvalidReg = true → c.pins.mAxisTready = false →
    (posedge true cfg c.regs c.pins).offered = c.regs.offered

instance (c : Tick d w) : Decidable (Stable cfg c) := inferInstanceAs (Decidable (_ → _))

def endsPeriod (cfg : BitVec w) (c : Tick d w) : Bool :=
  c.regs.intTvalidWire c.pins && !c.regs.intCompWire cfg

/-- A period ends only while no word is on offer. -/
def EndsFree (cfg : BitVec w) (c : Tick d w) : Prop :=
  endsPeriod cfg c = true → c.regs.intTvalidReg = false

instance (c : Tick d w) : Decidable (EndsFree cfg c) := inferInstanceAs (Decidable (_ → _))

/-! ### The counter -/

theorem posedge_cntr : (posedge true cfg s i).intCntrReg =
    if s.intTvalidWire i then if s.intCntrReg < cfg then s.intCntrReg + 1 else 0
    else s.intCntrReg := by
  unfold posedge intCompWire
  by_cases below : s.intCntrReg < cfg <;> simp [below]

theorem run_cntr (run : (circuit d cfg).Run past s) :
    s.intCntrReg.toNat = (past.flatMap sAccepted).length % (cfg.toNat + 1) := by
  induction run with
  | reset reset =>
    obtain ⟨s₀, i, rfl⟩ := reset
    simp [posedge]
  | @tick past s run i ih =>
    have next : ((circuit d cfg).tick s i).intCntrReg = _ := posedge_cntr
    rw [next, flatMap_snoc, List.length_append, sAccepted, beat_length]
    cases s.intTvalidWire i with
    | false => exact ih
    | true => exact toNat_ringNext ih

theorem endsPeriod_eq (run : (circuit d cfg).Run past s) (takes : s.intTvalidWire i = true) :
    endsPeriod cfg ⟨s, i⟩ = decide (cfg.toNat + 1 ∣ (past.flatMap sAccepted).length + 1) := by
  have count := run_cntr run
  have bound : (past.flatMap sAccepted).length % (cfg.toNat + 1) < cfg.toNat + 1 :=
    Nat.mod_lt _ (Nat.succ_pos _)
  have last : endsPeriod cfg ⟨s, i⟩ = true ↔ ¬ s.intCntrReg.toNat < cfg.toNat := by
    simp [endsPeriod, takes, intCompWire, BitVec.lt_def]
  rw [Bool.eq_iff_iff, decide_eq_true_iff, last, succ_dvd_succ_iff, count]
  omega

theorem everyNth_step (run : (circuit d cfg).Run past s) :
    everyNth (cfg.toNat + 1) (List.flatMap sAccepted (past ++ [⟨s, i⟩])) =
      everyNth (cfg.toNat + 1) (past.flatMap sAccepted) ++
        beat (endsPeriod cfg ⟨s, i⟩) i.sAxisTdata := by
  rw [flatMap_snoc, sAccepted]
  cases takes : s.intTvalidWire i with
  | false => simp [endsPeriod, takes]
  | true =>
    rw [beat_true, everyNth_snoc, ← endsPeriod_eq run takes]

/-! ### The output register -/

theorem offered_between (onward : endsPeriod cfg ⟨s, i⟩ = false) :
    mAccepted ⟨s, i⟩ ++ (posedge true cfg s i).offered = s.offered := by
  unfold endsPeriod at onward
  unfold mAccepted offered posedge
  cases s.intTvalidReg <;> cases i.mAxisTready <;> simp [onward]

/-- The last word of a period is kept exactly when it finds the register free: otherwise it takes
the place of a stalled word, or is dropped with one that leaves. -/
theorem offered_end_iff (ends : endsPeriod cfg ⟨s, i⟩ = true) :
    mAccepted ⟨s, i⟩ ++ (posedge true cfg s i).offered = s.offered ++ [i.sAxisTdata] ↔
      s.intTvalidReg = false := by
  unfold endsPeriod at ends
  unfold mAccepted offered posedge
  cases s.intTvalidReg <;> cases i.mAxisTready <;> simp [ends]

theorem decimates_step (run : (circuit d cfg).Run past s) (inv : Decimates cfg past s) :
    Decimates cfg (past ++ [⟨s, i⟩]) (posedge true cfg s i) ↔ EndsFree cfg ⟨s, i⟩ := by
  unfold Decimates EndsFree
  rw [everyNth_step run, ← inv, flatMap_snoc, List.append_assoc, List.append_assoc,
    List.append_cancel_left_eq]
  cases ends : endsPeriod cfg ⟨s, i⟩ with
  | false => simpa using offered_between ends
  | true => simpa using offered_end_iff ends

theorem EndsFree.stable {c : Tick d w} (free : EndsFree cfg c) : Stable cfg c := by
  intro valid stalled
  have onward : endsPeriod cfg c = false := by
    by_contra ends
    rw [free (by simpa using ends)] at valid
    cases valid
  have kept := offered_between onward
  simpa [mAccepted, stalled] using kept

/-- The core decimates throughout a run exactly when every period ends with the output register
free. -/
theorem run_decimates_iff (run : (circuit d cfg).Run past s) :
    (Decimates cfg past s ∧
      Held (fun before c => Decimates cfg before c.regs ∧ Stable cfg c) past) ↔
      Held (fun _ c => EndsFree cfg c) past := by
  have exact' : (Decimates cfg past s ∧ Held (fun before c => Decimates cfg before c.regs) past) ↔
      Held (fun _ c => EndsFree cfg c) past := by
    refine run.throughout_iff ?_ fun past s i run inv => decimates_step run inv
    rintro s ⟨s₀, i, rfl⟩
    rfl
  rw [← exact', held_and, ← and_assoc, and_iff_left_iff_imp]
  intro throughout
  exact (exact'.mp throughout).mono fun _ c free => free.stable

def fresh : AxisDecimator 8 4 := ⟨0, 0, false, false⟩

theorem fresh_reset : (circuit 8 1).Reset fresh := ⟨fresh, ⟨0, false, false⟩, rfl⟩

def stalledPeriod : List (DecimatorPins 8) :=
  [⟨1, true, false⟩, ⟨1, true, false⟩, ⟨2, true, false⟩, ⟨3, true, false⟩, ⟨4, true, false⟩,
    ⟨0, false, true⟩]

def promptPeriod : List (DecimatorPins 8) :=
  [⟨1, true, true⟩, ⟨1, true, true⟩, ⟨2, true, false⟩, ⟨3, true, true⟩, ⟨4, true, false⟩]

theorem run_decimates_iff_promptPeriod :
    Decimates 1 ((circuit 8 (1 : BitVec 4)).trace fresh promptPeriod)
      ((circuit 8 1).after fresh promptPeriod) :=
  ((run_decimates_iff (run_trace fresh_reset promptPeriod)).mpr (by decide)).1

/-- The second word is on offer when the fourth takes its place. -/
theorem stalledPeriod_loses :
    (circuit 8 (1 : BitVec 4)).Run ((circuit 8 1).trace fresh stalledPeriod)
      ((circuit 8 1).after fresh stalledPeriod) ∧
    ((circuit 8 (1 : BitVec 4)).trace fresh stalledPeriod).flatMap sAccepted = [1, 2, 3, 4] ∧
    ((circuit 8 (1 : BitVec 4)).trace fresh stalledPeriod).flatMap mAccepted = [4] ∧
    ¬ Decimates 1 ((circuit 8 (1 : BitVec 4)).trace fresh stalledPeriod)
      ((circuit 8 1).after fresh stalledPeriod) ∧
    ¬ Held (fun _ c => Stable 1 c) ((circuit 8 (1 : BitVec 4)).trace fresh stalledPeriod) :=
  ⟨run_trace fresh_reset stalledPeriod, by decide, by decide, by decide, by decide⟩

end AxisDecimator

end Switcheck
