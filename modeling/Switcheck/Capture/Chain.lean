import Switcheck.Adc.TriggerReset
import Switcheck.Writer.Integrity

/-!
# The capture chain

`ADC` drives the stream port of `ram_writer` and cannot be stopped: it has no `tready` input.
A word presented while the FIFO is full is dropped there, and every other word is kept.
-/

namespace Switcheck

open Sync

structure Capture (w : Nat) {α R : Type} (p : WriterParams (BitVec 32) α R) where
  adc : Adc w
  writer : RamWriter p

structure CapturePins {α R : Type} (p : WriterParams (BitVec 32) α R) where
  adc : AdcPins
  minAddr : BitVec p.axiAddrWidth
  cfgData : BitVec p.addrWidth
  mAxiAwready : Bool
  mAxiWready : Bool

namespace Capture

variable {w : Nat} {α R : Type} {p : WriterParams (BitVec 32) α R}

/-- The pins of the writer: its stream port takes the registers of the ADC. -/
def writerPins (s : Capture w p) (i : CapturePins p) : WriterPins p where
  minAddr := i.minAddr
  cfgData := i.cfgData
  mAxiAwready := i.mAxiAwready
  mAxiWready := i.mAxiWready
  sAxisTdata := s.adc.axisDataReg
  sAxisTvalid := s.adc.mAxisTvalid
  sAxisTlast := s.adc.mAxisTlast

def circuit (w : Nat) (p : WriterParams (BitVec 32) α R) : Circuit (Capture w p) (CapturePins p) where
  Reset s := (Adc.circuit w).Reset s.adc ∧ (RamWriter.circuit p).Reset s.writer
  tick s i := ⟨Adc.posedge true s.adc i.adc, RamWriter.posedge true s.writer (s.writerPins i)⟩

def fresh : Capture 14 RamWriter.deployed := ⟨Adc.fresh, RamWriter.fresh⟩

theorem fresh_reset : (circuit 14 RamWriter.deployed).Reset fresh :=
  ⟨Adc.fresh_reset, RamWriter.fresh_reset⟩

abbrev Tick (w : Nat) (p : WriterParams (BitVec 32) α R) := Clock (Capture w p) (CapturePins p)

def adcClock (c : Tick w p) : Adc.Tick w := ⟨c.regs.adc, c.pins.adc⟩

def writerClock (c : Tick w p) : RamWriter.Tick p := ⟨c.regs.writer, c.regs.writerPins c.pins⟩

section Runs

variable {past : List (Tick w p)} {s : Capture w p}

theorem run_adc (run : (circuit w p).Run past s) :
    (Adc.circuit w).Run (past.map adcClock) s.adc :=
  Circuit.Run.map (C := circuit w p) Capture.adc (fun _ i => i.adc) (fun _ reset => reset.1)
    (fun _ _ => rfl) run

theorem run_writer (run : (circuit w p).Run past s) :
    (RamWriter.circuit p).Run (past.map writerClock) s.writer :=
  Circuit.Run.map (C := circuit w p) Capture.writer writerPins (fun _ reset => reset.2)
    (fun _ _ => rfl) run

end Runs

end Capture

end Switcheck
