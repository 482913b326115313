import Mathlib.Algebra.Ring.Int.Defs
import Switcheck.Sync.Circuit
import Switcheck.Modules.Verilog

/-!
# `axis_pulse_height_analyzer`

A slope is told from samples two apart: the baseline is the older one where it turns upwards, the
peak the one in between where it turns downwards. The height is their difference, in the width of
a sample.
-/

namespace Switcheck

open Sync Circuit

structure PulseHeight (d w : Nat) where
  intDataReg0 : BitVec d
  intDataReg1 : BitVec d
  intMinReg : BitVec d
  intTdataReg : BitVec d
  intCntrReg : BitVec w
  intEnblReg : Bool
  intRisingReg : Bool
  intTvalidReg : Bool
  deriving DecidableEq

structure PulseHeightPins (d : Nat) where
  sAxisTdata : BitVec d
  sAxisTvalid : Bool
  mAxisTready : Bool

structure PulseSettings (d w : Nat) where
  signed : Bool
  cfgData : BitVec w
  minData : BitVec d
  maxData : BitVec d

namespace PulseHeight

variable {d w : Nat}

/-- The number a sample stands for. -/
def value (signed : Bool) (x : BitVec d) : Int := if signed then x.toInt else x.toNat

def less (signed : Bool) (x y : BitVec d) : Bool := decide (value signed x < value signed y)

section Wires

variable (p : PulseSettings d w) (s : PulseHeight d w) (i : PulseHeightPins d)

def intDelayWire : Bool := decide (s.intCntrReg < p.cfgData)

def intRisingWire : Bool := less p.signed s.intDataReg1 i.sAxisTdata

def intTdataWire : BitVec d := s.intDataReg0 - s.intMinReg

def intMincutWire : Bool := less p.signed p.minData s.intTdataWire

def intMaxcutWire : Bool := less p.signed s.intTdataWire p.maxData

/-- The slope turns upwards: the baseline is taken. -/
def takesMin : Bool :=
  i.sAxisTvalid && !s.intDelayWire p && !s.intRisingReg && s.intRisingWire p i

/-- The slope turns downwards after a baseline: the height is taken. -/
def takesMax : Bool :=
  i.sAxisTvalid && s.intEnblReg && s.intRisingReg && !s.intRisingWire p i && s.intMincutWire p

end Wires

def posedge (aresetn : Bool) (p : PulseSettings d w) (s : PulseHeight d w)
    (i : PulseHeightPins d) : PulseHeight d w where
  intDataReg0 :=
    if !aresetn then 0
    else if i.sAxisTvalid then i.sAxisTdata
    else s.intDataReg0
  intDataReg1 :=
    if !aresetn then 0
    else if i.sAxisTvalid then s.intDataReg0
    else s.intDataReg1
  intMinReg :=
    if !aresetn then 0
    else if s.takesMin p i then s.intDataReg1
    else s.intMinReg
  intTdataReg :=
    if !aresetn then 0
    else if s.takesMax p i then s.intTdataWire
    else s.intTdataReg
  intCntrReg :=
    if !aresetn then 0
    else if s.takesMax p i then 0
    else if i.sAxisTvalid && s.intDelayWire p then s.intCntrReg + 1
    else s.intCntrReg
  intEnblReg :=
    if !aresetn then false
    else if s.takesMax p i then false
    else if s.takesMin p i then true
    else s.intEnblReg
  intRisingReg :=
    if !aresetn then false
    else if i.sAxisTvalid then s.intRisingWire p i
    else s.intRisingReg
  intTvalidReg :=
    if !aresetn then false
    else if i.mAxisTready && s.intTvalidReg then false
    else if s.takesMax p i then s.intMaxcutWire p
    else s.intTvalidReg

def circuit (p : PulseSettings d w) : Circuit (PulseHeight d w) (PulseHeightPins d) where
  Reset s := ∃ s₀ i, s = posedge false p s₀ i
  tick := posedge true p

abbrev Tick (d w : Nat) := Clock (PulseHeight d w) (PulseHeightPins d)

/-! ### Differences in a fixed width -/

def InRange : Bool → Nat → Int → Prop
  | true, d, x => -2 ^ d ≤ 2 * x ∧ 2 * x < 2 ^ d
  | false, _, x => 0 ≤ x

instance InRange.decidable : ∀ signed d x, Decidable (InRange signed d x)
  | true, d, x => inferInstanceAs (Decidable (-2 ^ d ≤ 2 * x ∧ 2 * x < 2 ^ d))
  | false, _, x => inferInstanceAs (Decidable (0 ≤ x))

theorem value_sub_iff (signed : Bool) (x y : BitVec d) :
    value signed (x - y) = value signed x - value signed y ↔
      InRange signed d (value signed x - value signed y) := by
  cases signed with
  | true =>
    simp only [value, InRange, if_true]
    constructor
    · intro same
      rw [← same]
      exact ⟨BitVec.le_two_mul_toInt, BitVec.two_mul_toInt_lt⟩
    · rintro ⟨low, high⟩
      rw [BitVec.toInt_sub]
      exact Int.bmod_eq_of_le_mul_two (by push_cast; omega) (by push_cast; omega)
  | false =>
    simp only [value, InRange, Bool.false_eq_true, if_false]
    constructor
    · intro same
      rw [← same]
      exact Int.natCast_nonneg _
    · intro above
      have le : y.toNat ≤ x.toNat := by omega
      rw [BitVec.toNat_sub_of_le le]
      omega

/-! ### The height on offer -/

def difference (p : PulseSettings d w) (s : PulseHeight d w) : Int :=
  value p.signed s.intDataReg0 - value p.signed s.intMinReg

def taken (p : PulseSettings d w) (c : Tick d w) : Bool := c.regs.takesMax p c.pins

def lastTaken (p : PulseSettings d w) (past : List (Tick d w)) : Option (Tick d w) :=
  (past.filter (taken p)).getLast?

/-- The height on offer is the exact difference of the peak and the baseline that it was taken
from, and lies in the window. -/
def Exact (p : PulseSettings d w) (past : List (Tick d w)) (s : PulseHeight d w) : Prop :=
  s.intTvalidReg = true → ∃ c ∈ lastTaken p past,
    value p.signed s.intTdataReg = c.regs.difference p ∧
    value p.signed p.minData < value p.signed s.intTdataReg ∧
    value p.signed s.intTdataReg < value p.signed p.maxData

def offers (p : PulseSettings d w) (c : Tick d w) : Bool :=
  taken p c && c.regs.intMaxcutWire p && !(c.pins.mAxisTready && c.regs.intTvalidReg)

def Fits (p : PulseSettings d w) (c : Tick d w) : Prop :=
  offers p c = true → InRange p.signed d (c.regs.difference p)

instance (p : PulseSettings d w) (c : Tick d w) : Decidable (Fits p c) :=
  inferInstanceAs (Decidable (_ → _))

variable {p : PulseSettings d w} {past : List (Tick d w)} {s : PulseHeight d w}
  {i : PulseHeightPins d}

theorem lastTaken_snoc (p : PulseSettings d w) (past : List (Tick d w)) (c : Tick d w) :
    lastTaken p (past ++ [c]) = if taken p c then some c else lastTaken p past := by
  unfold lastTaken
  rw [List.filter_append]
  cases now : taken p c <;> simp [now]

/-- A clock that takes no height leaves the one on offer, or sees it off. -/
theorem exact_between (inv : Exact p past s) (idle : s.takesMax p i = false) :
    Exact p (past ++ [⟨s, i⟩]) (posedge true p s i) := by
  have last : lastTaken p (past ++ [⟨s, i⟩]) = lastTaken p past := by
    rw [lastTaken_snoc, taken, idle]
    rfl
  have data : (posedge true p s i).intTdataReg = s.intTdataReg := by simp [posedge, idle]
  intro valid
  have before : s.intTvalidReg = true := by
    by_contra none
    simp [posedge, idle, none] at valid
  rw [last, data]
  exact inv before

theorem exact_takes_iff (takes : s.takesMax p i = true) :
    Exact p (past ++ [⟨s, i⟩]) (posedge true p s i) ↔ Fits p ⟨s, i⟩ := by
  have last : lastTaken p (past ++ [⟨s, i⟩]) = some ⟨s, i⟩ := by
    rw [lastTaken_snoc, taken, takes]
    rfl
  have data : (posedge true p s i).intTdataReg = s.intTdataWire := by simp [posedge, takes]
  have valid : (posedge true p s i).intTvalidReg = offers p ⟨s, i⟩ := by
    cases leaves : i.mAxisTready && s.intTvalidReg <;>
      simp [posedge, offers, taken, takes, leaves]
  have above : value p.signed p.minData < value p.signed s.intTdataWire := by
    have cut : s.intMincutWire p = true := ((Bool.and_eq_true _ _).mp takes).2
    simpa [intMincutWire, less] using cut
  unfold Exact Fits
  rw [last, data, valid]
  simp only [Option.mem_some_iff, exists_eq_left']
  refine forall_congr' fun shown => ?_
  have below : value p.signed s.intTdataWire < value p.signed p.maxData := by
    have cut : s.intMaxcutWire p = true :=
      ((Bool.and_eq_true _ _).mp ((Bool.and_eq_true _ _).mp shown).1).2
    simpa [intMaxcutWire, less] using cut
  have fits : value p.signed s.intTdataWire = s.difference p ↔ InRange p.signed d (s.difference p) :=
    value_sub_iff ..
  rw [← fits]
  exact and_iff_left ⟨above, below⟩

/-- The heights are exact throughout a run exactly when each that is offered fits the width. -/
theorem run_exact_iff (run : (circuit p).Run past s) :
    (Exact p past s ∧ Held (fun before c => Exact p before c.regs) past) ↔
      Held (fun _ c => Fits p c) past := by
  refine run.throughout_iff ?_ ?_
  · rintro s ⟨s₀, i, rfl⟩ valid
    cases valid
  · intro past s i _ inv
    cases takes : s.takesMax p i with
    | true => exact exact_takes_iff takes
    | false =>
      refine iff_of_true (exact_between inv takes) fun offer => ?_
      simp [offers, taken, takes] at offer

def fresh : PulseHeight 16 16 := ⟨0, 0, 0, 0, 0, false, false, false⟩

def signed16 : PulseSettings 16 16 := ⟨true, 0, 100, 16000⟩

theorem fresh_reset : (circuit signed16).Reset fresh := ⟨fresh, ⟨0, false, false⟩, rfl⟩

def samples (xs : List (BitVec 16)) : List (PulseHeightPins 16) := xs.map fun x => ⟨x, true, true⟩

theorem run_exact_iff_pulse :
    Exact signed16 ((circuit signed16).trace fresh (samples [0, 0, 400, 900, 500, 100]))
      ((circuit signed16).after fresh (samples [0, 0, 400, 900, 500, 100])) :=
  ((run_exact_iff (run_trace fresh_reset _)).mpr (by decide)).1

/-- A swing over the whole range: the peak -30000 stands below the baseline 30000. -/
def swing : List (PulseHeightPins 16) := samples [30000, -30001, 30001, -30000, 0]

theorem swing_wraps :
    (circuit signed16).Run ((circuit signed16).trace fresh swing)
      ((circuit signed16).after fresh swing) ∧
    ((circuit signed16).after fresh swing).intTvalidReg = true ∧
    ((circuit signed16).after fresh swing).intTdataReg = 5536 ∧
    (lastTaken signed16 ((circuit signed16).trace fresh swing)).map
      (fun c => c.regs.difference signed16) = some (-60000) ∧
    ¬ Exact signed16 ((circuit signed16).trace fresh swing)
      ((circuit signed16).after fresh swing) := by
  have height : ((circuit signed16).after fresh swing).intTdataReg = 5536 := by decide
  have taken : (lastTaken signed16 ((circuit signed16).trace fresh swing)).map
      (fun c => c.regs.difference signed16) = some (-60000) := by decide
  refine ⟨run_trace fresh_reset _, by decide, height, taken, fun exact' => ?_⟩
  obtain ⟨c, last, same, -⟩ := exact' (by decide)
  rw [Option.mem_def.mp last, Option.map_some, Option.some_inj, ← same, height] at taken
  revert taken
  decide

end PulseHeight

end Switcheck
