import Switcheck.Sync.Circuit
import Switcheck.Sync.Fifo
import Switcheck.Modules.Buffers
import Switcheck.Modules.Verilog

/-!
# `axis_ram_writer`

The writer that `ram_writer` extends: every burst has sixteen beats, the counter of beats wraps
and is never cleared, and the stream has no `tlast`. The FIFO is ideal here too.
-/

namespace Switcheck

open Sync

/-- Parameters; `packing` carries `AXIS_TDATA_WIDTH` and `AXI_DATA_WIDTH` as word types. -/
structure AxisWriterParams (W α R : Type) where
  addrWidth : Nat
  axiAddrWidth : Nat
  axiDataWidth : Nat
  fifoWriteDepth : Nat
  packing : Packing W α R

def AxisWriterParams.addrSize {W α R : Type} (p : AxisWriterParams W α R) : Nat :=
  clog2 (p.axiDataWidth / 8)

structure AxisRamWriter {W α R : Type} (p : AxisWriterParams W α R) where
  intAwvalidReg : Bool
  intWvalidReg : Bool
  intCntrReg : BitVec 4
  intAddrReg : BitVec p.addrWidth
  fifo0 : List α
  buf0 : OutputBuffer (BitVec p.axiAddrWidth)
  buf1 : OutputBuffer (Bool × R)
  deriving DecidableEq

structure AxisWriterPins {W α R : Type} (p : AxisWriterParams W α R) where
  minAddr : BitVec p.axiAddrWidth
  cfgData : BitVec p.addrWidth
  mAxiAwready : Bool
  mAxiWready : Bool
  sAxisTdata : W
  sAxisTvalid : Bool

namespace AxisRamWriter

variable {W α R : Type} {p : AxisWriterParams W α R}

/-! ### Wires -/

section Wires

variable (s : AxisRamWriter p) (i : AxisWriterPins p)

def intCountWire : Nat := p.packing.count s.fifo0

def intFullWire : Bool := p.packing.full p.fifoWriteDepth s.fifo0

def intValidWire : Bool := decide (15 < s.intCountWire) && !s.intWvalidReg

def intAwvalidWire : Bool := s.intValidWire || s.intAwvalidReg

def intWvalidWire : Bool := s.intValidWire || s.intWvalidReg

def intAwreadyWire : Bool := s.buf0.inReady i.mAxiAwready

def intWreadyWire : Bool := s.buf1.inReady i.mAxiWready

def intRdenWire : Bool := s.intWvalidWire && s.intWreadyWire i

/-- `&int_cntr_reg`. -/
def intWlastWire : Bool := s.intCntrReg == BitVec.allOnes 4

/-- The address handshake with `buf_0`: `int_awvalid_wire & int_awready_wire`. -/
def awFires : Bool := s.intAwvalidWire && s.intAwreadyWire i

def awaddrNext : BitVec p.axiAddrWidth :=
  i.minAddr + (s.intAddrReg ++ 0#4 ++ 0#p.addrSize).setWidth p.axiAddrWidth

def sAxisTready : Bool := !s.intFullWire

def stsData : BitVec p.addrWidth := s.intAddrReg

end Wires

def posedge (aresetn : Bool) (s : AxisRamWriter p) (i : AxisWriterPins p) : AxisRamWriter p where
  intAwvalidReg :=
    if !aresetn then false
    else if s.awFires i then false
    else if s.intValidWire then true
    else s.intAwvalidReg
  intWvalidReg :=
    if !aresetn then false
    else if s.intWreadyWire i && s.intWlastWire then false
    else if s.intValidWire then true
    else s.intWvalidReg
  intCntrReg :=
    if !aresetn then 0
    else if s.intRdenWire i then s.intCntrReg + 1
    else s.intCntrReg
  intAddrReg :=
    if !aresetn then 0
    else if s.awFires i then
      if s.intAddrReg < i.cfgData then s.intAddrReg + 1 else 0
    else s.intAddrReg
  fifo0 :=
    if !aresetn then []
    else p.packing.next p.fifoWriteDepth s.fifo0 i.sAxisTvalid i.sAxisTdata (s.intRdenWire i)
  buf0 := s.buf0.posedge aresetn (s.awaddrNext i) s.intAwvalidWire i.mAxiAwready
  buf1 := s.buf1.posedge aresetn (s.intWlastWire, p.packing.dout s.fifo0) s.intWvalidWire
    i.mAxiWready

def circuit (p : AxisWriterParams W α R) : Circuit (AxisRamWriter p) (AxisWriterPins p) where
  Reset s := ∃ s₀ i, s = posedge false s₀ i
  tick := posedge true

abbrev Tick (p : AxisWriterParams W α R) := Clock (AxisRamWriter p) (AxisWriterPins p)

/-! ### The 64-bit configuration -/

/-- The stream word is the memory word. -/
def axis64 : Packing (BitVec 64) (BitVec 64) (BitVec 64) where
  wrLanes := 1
  rdLanes := 1
  lanes w := [w]
  word xs := xs.getD 0 0
  lanes_length _ := rfl
  wrLanes_pos := Nat.one_pos
  rdLanes_pos := Nat.one_pos

abbrev default64 : AxisWriterParams (BitVec 64) (BitVec 64) (BitVec 64) where
  addrWidth := 16
  axiAddrWidth := 32
  axiDataWidth := 64
  fifoWriteDepth := 512
  packing := axis64

def pins (word : Option (BitVec 64)) (awready wready : Bool) : AxisWriterPins default64 where
  minAddr := 0x10000000
  cfgData := 65535
  mAxiAwready := awready
  mAxiWready := wready
  sAxisTdata := word.getD 0
  sAxisTvalid := word.isSome

def fresh : AxisRamWriter default64 :=
  posedge false ⟨false, false, 0, 0, [], ⟨0, false⟩, ⟨(false, 0), false⟩⟩ (pins none true true)

theorem fresh_reset : (circuit default64).Reset fresh := ⟨_, _, rfl⟩

/-! ### What one clock does to each register -/

section Step

variable (s : AxisRamWriter p) (i : AxisWriterPins p)

@[simp] theorem posedge_intAwvalidReg :
    (posedge true s i).intAwvalidReg = (s.intAwvalidWire && !s.intAwreadyWire i) := by
  cases start : s.intValidWire <;> cases ready : s.intAwreadyWire i <;>
    simp [posedge, awFires, intAwvalidWire, start, ready]

@[simp] theorem posedge_intWvalidReg :
    (posedge true s i).intWvalidReg =
      (s.intWvalidWire && !(s.intWreadyWire i && s.intWlastWire)) := by
  cases start : s.intValidWire <;> cases ready : s.intWreadyWire i <;>
    cases last : s.intWlastWire <;> simp [posedge, intWvalidWire, start, ready, last]

@[simp] theorem posedge_intCntrReg :
    (posedge true s i).intCntrReg = if s.intRdenWire i then s.intCntrReg + 1 else s.intCntrReg := rfl

@[simp] theorem posedge_intAddrReg :
    (posedge true s i).intAddrReg =
      if s.awFires i then if s.intAddrReg < i.cfgData then s.intAddrReg + 1 else 0
      else s.intAddrReg := rfl

@[simp] theorem posedge_fifo0 :
    (posedge true s i).fifo0 =
      p.packing.next p.fifoWriteDepth s.fifo0 i.sAxisTvalid i.sAxisTdata (s.intRdenWire i) := rfl

@[simp] theorem posedge_buf0 :
    (posedge true s i).buf0 =
      s.buf0.posedge true (s.awaddrNext i) s.intAwvalidWire i.mAxiAwready := rfl

@[simp] theorem posedge_buf1 :
    (posedge true s i).buf1 =
      s.buf1.posedge true (s.intWlastWire, p.packing.dout s.fifo0) s.intWvalidWire
        i.mAxiWready := rfl

theorem intWlastWire_iff : s.intWlastWire = true ↔ s.intCntrReg.toNat = 15 := by
  rw [intWlastWire, beq_iff_eq, ← BitVec.toNat_inj]
  rfl

theorem rden_wvalid {s : AxisRamWriter p} {i : AxisWriterPins p} (read : s.intRdenWire i = true) :
    s.intWvalidWire = true ∧ s.intWreadyWire i = true := by
  simpa [intRdenWire] using read

theorem start_idle {s : AxisRamWriter p} (start : s.intValidWire = true) :
    15 < s.intCountWire ∧ s.intWvalidReg = false := by
  simpa [intValidWire] using start

end Step

/-! ### What the ports carry -/

def accepted (c : Tick p) : List α :=
  p.packing.pushed p.fifoWriteDepth c.regs.fifo0 c.pins.sAxisTvalid c.pins.sAxisTdata

def read (c : Tick p) : List α := p.packing.popped c.regs.fifo0 (c.regs.intRdenWire c.pins)

def handed (c : Tick p) : List (Bool × R) :=
  beat (c.regs.intRdenWire c.pins) (c.regs.intWlastWire, p.packing.dout c.regs.fifo0)

def wBeat (c : Tick p) : List (Bool × R) := c.regs.buf1.taken c.pins.mAxiWready

/-- The address handed to the address buffer; each moves `int_addr_reg` on. -/
def issued (c : Tick p) : List (BitVec p.axiAddrWidth) :=
  beat (c.regs.awFires c.pins) (c.regs.awaddrNext c.pins)

def awReq (c : Tick p) : List (BitVec p.axiAddrWidth) := c.regs.buf0.taken c.pins.mAxiAwready

/-- Bursts begun: the clocks in which `int_valid_wire` starts one. -/
def begun (past : List (Tick p)) : Nat := past.countP fun c => c.regs.intValidWire

section Ports

variable {past : List (Tick p)} {s : AxisRamWriter p}

theorem reset_fields {s : AxisRamWriter p} (reset : (circuit p).Reset s) :
    s.intAwvalidReg = false ∧ s.intWvalidReg = false ∧ s.intCntrReg = 0 ∧ s.intAddrReg = 0 ∧
    s.fifo0 = [] ∧ s.buf0.held = [] ∧ s.buf1.held = [] := by
  obtain ⟨s₀, i, rfl⟩ := reset
  exact ⟨rfl, rfl, rfl, rfl, rfl, rfl, rfl⟩

theorem begun_snoc (past : List (Tick p)) (c : Tick p) :
    begun (past ++ [c]) = begun past + c.regs.intValidWire.toNat := countP_snoc _ past c

theorem run_wBeat (run : (circuit p).Run past s) :
    past.flatMap wBeat ++ s.buf1.held = past.flatMap handed := by
  refine run.conserve (fun s => s.buf1.held) ?_ ?_
  · intro s reset
    exact (reset_fields reset).2.2.2.2.2.2
  · intro s i
    exact s.buf1.taken_append_held ..

theorem run_awReq (run : (circuit p).Run past s) :
    past.flatMap awReq ++ s.buf0.held = past.flatMap issued := by
  refine run.conserve (fun s => s.buf0.held) ?_ ?_
  · intro s reset
    exact (reset_fields reset).2.2.2.2.2.1
  · intro s i
    exact s.buf0.taken_append_held ..

theorem run_fifo (run : (circuit p).Run past s) :
    past.flatMap read ++ s.fifo0 = past.flatMap accepted := by
  refine run.conserve (fun s => s.fifo0) ?_ ?_
  · intro s reset
    exact (reset_fields reset).2.2.2.2.1
  · intro s i
    exact p.packing.popped_append_next ..

end Ports

end AxisRamWriter

end Switcheck
