import Switcheck.Mcpha.Histogram
import Switcheck.Mcpha.PulseHeight

/-!
# The spectrum of `mcpha`

`axis_pulse_height_analyzer` offers the heights of the pulses to `axis_histogram` through
`axis_validator`, which lets them pass while `axis_timer` has its flag up. The validator hides a
height from the histogram, but not that the histogram is ready from the analyzer: a height that comes
when the flag is down is gone.
-/

namespace Switcheck

open Sync Circuit

structure AxisTimer (t : Nat) where
  intCntrReg : BitVec t
  intEnblReg : Bool
  deriving DecidableEq

structure AxisTimerPins (t : Nat) where
  aresetn : Bool
  runFlag : Bool
  cfgData : BitVec t
  sAxisTvalid : Bool

namespace AxisTimer

variable {t : Nat}

def intCompWire (s : AxisTimer t) (i : AxisTimerPins t) : Bool :=
  i.runFlag && decide (s.intCntrReg < i.cfgData)

def posedge (s : AxisTimer t) (i : AxisTimerPins t) : AxisTimer t where
  intCntrReg :=
    if !i.aresetn then 0
    else if s.intEnblReg && s.intCompWire i && i.sAxisTvalid then s.intCntrReg + 1
    else s.intCntrReg
  intEnblReg :=
    if !i.aresetn then false
    else if s.intEnblReg && !s.intCompWire i && i.sAxisTvalid then false
    else if !s.intEnblReg && s.intCompWire i && i.sAxisTvalid then true
    else s.intEnblReg

end AxisTimer

structure Spectrum (d w a n t : Nat) where
  timer : AxisTimer t
  pha : PulseHeight d w
  hst : Histogram a n

structure SpectrumPins (d t : Nat) where
  timer : AxisTimerPins t
  sAxisTdata : BitVec d
  sAxisTvalid : Bool

namespace Spectrum

variable {d w a n t : Nat}

def phaPins (s : Spectrum d w a n t) (i : SpectrumPins d t) : PulseHeightPins d where
  sAxisTdata := i.sAxisTdata
  sAxisTvalid := i.sAxisTvalid
  mAxisTready := s.hst.intTreadyReg

/-- What `axis_validator` makes of the height on offer. -/
def hstPins (s : Spectrum d w a n t) : HistogramPins d where
  sAxisTdata := s.pha.intTdataReg
  sAxisTvalid := s.pha.intTvalidReg && s.timer.intEnblReg

/-- The analyzer and the histogram are reset together, with the bins at `init`. -/
def circuit (p : PulseSettings d w) (mode : WriteMode) (init : BitVec a → BitVec n) :
    Circuit (Spectrum d w a n t) (SpectrumPins d t) where
  Reset s := s.timer = ⟨0, false⟩ ∧ (PulseHeight.circuit p).Reset s.pha ∧
    (Histogram.circuit d mode init).Reset s.hst
  tick s i :=
    { timer := s.timer.posedge i.timer
      pha := s.pha.posedge true p (s.phaPins i)
      hst := s.hst.posedge mode true s.hstPins }

abbrev Tick (d w a n t : Nat) := Clock (Spectrum d w a n t) (SpectrumPins d t)

def hstClock (c : Tick d w a n t) : Histogram.Tick a n d := ⟨c.regs.hst, c.regs.hstPins⟩

/-- A peak of which the height lies in the window. -/
def found (p : PulseSettings d w) (c : Tick d w a n t) : Bool :=
  c.regs.pha.takesMax p (c.regs.phaPins c.pins) && c.regs.pha.intMaxcutWire p

/-- The flag of the timer is up in the clock after. -/
def gated (c : Tick d w a n t) : Bool := (c.regs.timer.posedge c.pins.timer).intEnblReg

/-- The bins of the pulses that are to count: where the peak lies above the baseline by so much,
in the width of an address. -/
def counts (p : PulseSettings d w) (c : Tick d w a n t) : List (BitVec a) :=
  beat (found p c && gated c) (BitVec.ofInt a (c.regs.pha.difference p))

variable {p : PulseSettings d w} {mode : WriteMode} {init : BitVec a → BitVec n}
  {past : List (Tick d w a n t)} {s : Spectrum d w a n t} {i : SpectrumPins d t}

/-! ### No height waits -/

/-- The pulses lie so far apart that the histogram is idle when a height comes. -/
structure Apart (s : Spectrum d w a n t) : Prop where
  ready : s.hst.intTreadyReg = decide (s.hst.intCaseReg = 0)
  cases : s.hst.intCaseReg = 0 ∨ s.hst.intCaseReg = 1 ∨ s.hst.intCaseReg = 2
  offers : s.pha.intTvalidReg = true →
    s.hst.intCaseReg = 0 ∧ s.pha.intCntrReg = 0 ∧ s.pha.intEnblReg = false
  reads : s.hst.intCaseReg = 1 → s.pha.intEnblReg = false

/-- The height that passes in the next clock. -/
def pending (s : Spectrum d w a n t) : List (BitVec a) :=
  beat (s.pha.intTvalidReg && s.timer.intEnblReg) (s.pha.intTdataReg.setWidth a)

theorem accepted_eq (apart : Apart s) :
    Histogram.accepted (hstClock (⟨s, i⟩ : Tick d w a n t)) = pending s := by
  cases valid : s.pha.intTvalidReg with
  | false => simp [Histogram.accepted, hstClock, hstPins, pending, valid, beat]
  | true =>
    have idle := (apart.offers valid).1
    have ready : s.hst.intTreadyReg = true := by rw [apart.ready, idle]; rfl
    simp [Histogram.accepted, Histogram.bin, hstClock, hstPins, pending, valid, ready]

def oneSample : PulseSettings 16 16 := ⟨true, 1, 100, 16000⟩

def empty : BitVec 12 → BitVec 32 := fun _ => 0

def fresh : Spectrum 16 16 12 32 64 where
  timer := ⟨0, false⟩
  pha := ⟨0, 0, 0, 0, 0, false, false, false⟩
  hst := ⟨0, 0, 0, true, false, ⟨empty, 0⟩⟩

theorem fresh_reset : (circuit oneSample .writeFirst empty).Reset fresh :=
  ⟨rfl, ⟨fresh.pha, ⟨0, false, false⟩, rfl⟩, ⟨⟨fresh.hst, ⟨0, false⟩, rfl⟩, rfl⟩⟩

/-- Two pulses of height 500; the measurement is over when the second one comes. -/
def pulses : List (SpectrumPins 16 64) :=
  [0, 0, 400, 900, 500, 100, 0, 0, 400, 900, 500, 100, 0, 0].map fun x =>
    ⟨⟨true, true, 6, true⟩, x, true⟩

end Spectrum

end Switcheck
