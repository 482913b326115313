import Switcheck.Sync.Circuit
import Switcheck.Sync.Fifo
import Switcheck.Modules.Buffers
import Switcheck.Modules.Verilog

/-!
# `ram_writer`

The burst writer between the ADC stream and the AXI memory port, register for register. The
Xilinx FIFO is ideal: first-word-fall-through, an exact read count, writes dropped while full.
-/

namespace Switcheck

open Sync

/-- Parameters; `packing` carries `AXIS_TDATA_WIDTH` and `AXI_DATA_WIDTH` as word types. -/
structure WriterParams (W α R : Type) where
  addrWidth : Nat
  axiAddrWidth : Nat
  axiDataWidth : Nat
  fifoWriteDepth : Nat
  burstBeats : Nat
  packing : Packing W α R
  /-- The source allows `BURST_BEATS` 1 to 16, so that `AWLEN` fits in four bits. -/
  burstBeats_pos : 0 < burstBeats
  burstBeats_le : burstBeats ≤ 16

namespace WriterParams

variable {W α R : Type} (p : WriterParams W α R)

def addrSize : Nat := clog2 (p.axiDataWidth / 8)

def cntrWidth : Nat := if p.burstBeats ≤ 1 then 1 else clog2 p.burstBeats

def maxAwlen : Nat := if 0 < p.burstBeats then p.burstBeats - 1 else 0

theorem maxAwlen_eq : p.maxAwlen = p.burstBeats - 1 := if_pos p.burstBeats_pos

theorem burstBeats_le_cntr : p.burstBeats ≤ 2 ^ p.cntrWidth := by
  unfold cntrWidth
  split
  · omega
  · exact le_two_pow_clog2 _

end WriterParams

structure RamWriter {W α R : Type} (p : WriterParams W α R) where
  intAwvalidReg : Bool
  intWvalidReg : Bool
  intCntrReg : BitVec p.cntrWidth
  intAddrReg : BitVec p.addrWidth
  tlastPendingReg : Bool
  awlenReg : BitVec 4
  fifo0 : List α
  buf0 : OutputBuffer (BitVec p.axiAddrWidth)
  buf1 : OutputBuffer (Bool × R)

structure WriterPins {W α R : Type} (p : WriterParams W α R) where
  minAddr : BitVec p.axiAddrWidth
  cfgData : BitVec p.addrWidth
  mAxiAwready : Bool
  mAxiWready : Bool
  sAxisTdata : W
  sAxisTvalid : Bool
  sAxisTlast : Bool

namespace RamWriter

variable {W α R : Type} {p : WriterParams W α R}

/-! ### Wires -/

section Wires

variable (s : RamWriter p) (i : WriterPins p)

def intCountWire : Nat := p.packing.count s.fifo0

def intFullWire : Bool := p.packing.full p.fifoWriteDepth s.fifo0

def intValidWire : Bool :=
  (decide (p.burstBeats ≤ s.intCountWire) || (s.tlastPendingReg && decide (0 < s.intCountWire))) &&
    !s.intWvalidReg

def intAwvalidWire : Bool := s.intValidWire || s.intAwvalidReg

def intWvalidWire : Bool := s.intValidWire || s.intWvalidReg

def intAwreadyWire : Bool := s.buf0.inReady i.mAxiAwready

def intWreadyWire : Bool := s.buf1.inReady i.mAxiWready

def intRdenWire : Bool := s.intWvalidWire && s.intWreadyWire i

def intWlastWire : Bool := decide (s.intCntrReg.toNat = s.awlenReg.toNat)

/-- The address handshake with `buf_0`: `int_awvalid_wire & int_awready_wire`. -/
def awFires : Bool := s.intAwvalidWire && s.intAwreadyWire i

def awlenNext : BitVec 4 :=
  if p.burstBeats ≤ s.intCountWire then BitVec.ofNat 4 p.maxAwlen
  else BitVec.ofNat 4 s.intCountWire

def awaddrNext : BitVec p.axiAddrWidth :=
  i.minAddr + (s.intAddrReg ++ 0#4 ++ 0#p.addrSize).setWidth p.axiAddrWidth

def sAxisTready : Bool := !s.intFullWire

def stsData : BitVec p.addrWidth := s.intAddrReg

end Wires

/-- One rising edge of `aclk`. A clock that assigns a register twice keeps the later
assignment, so each register tests its assignments from the last to the first. -/
def posedge (aresetn : Bool) (s : RamWriter p) (i : WriterPins p) : RamWriter p where
  intAwvalidReg :=
    if !aresetn then false
    else if s.awFires i then false
    else if s.intValidWire then true
    else s.intAwvalidReg
  intWvalidReg :=
    if !aresetn then false
    else if s.intWreadyWire i && s.intWlastWire then false
    else if s.intValidWire then true
    else s.intWvalidReg
  intCntrReg :=
    if !aresetn then 0
    else if s.intRdenWire i then s.intCntrReg + 1
    else if s.awFires i then 0
    else s.intCntrReg
  intAddrReg :=
    if !aresetn then 0
    else if s.awFires i then
      if s.intAddrReg < i.cfgData then s.intAddrReg + 1 else 0
    else s.intAddrReg
  tlastPendingReg :=
    if !aresetn then false
    else if s.awFires i then false
    else if i.sAxisTvalid && i.sAxisTlast then true
    else s.tlastPendingReg
  awlenReg :=
    if !aresetn then BitVec.ofNat 4 p.maxAwlen
    else if s.awFires i then s.awlenNext
    else s.awlenReg
  fifo0 :=
    if !aresetn then []
    else p.packing.next p.fifoWriteDepth s.fifo0 i.sAxisTvalid i.sAxisTdata (s.intRdenWire i)
  buf0 := s.buf0.posedge aresetn (s.awaddrNext i) s.intAwvalidWire i.mAxiAwready
  buf1 := s.buf1.posedge aresetn (s.intWlastWire, p.packing.dout s.fifo0) s.intWvalidWire
    i.mAxiWready

/-- The writer clocked out of reset; data registers keep whatever reset found in them. -/
def circuit (p : WriterParams W α R) : Circuit (RamWriter p) (WriterPins p) where
  Reset s := ∃ s₀ i, s = posedge false s₀ i
  tick := posedge true

/-! ### The deployed configuration -/

/-- Two 32-bit stream words make one 64-bit memory word, the first in the low half. -/
def axis32 : Packing (BitVec 32) (BitVec 32) (BitVec 64) where
  wrLanes := 1
  rdLanes := 2
  lanes w := [w]
  word xs := xs.getD 1 0 ++ xs.getD 0 0
  lanes_length _ := rfl
  wrLanes_pos := Nat.one_pos
  rdLanes_pos := by decide

def writer32 (addrWidth fifoWriteDepth : Nat) :
    WriterParams (BitVec 32) (BitVec 32) (BitVec 64) where
  addrWidth := addrWidth
  axiAddrWidth := 32
  axiDataWidth := 64
  fifoWriteDepth := fifoWriteDepth
  burstBeats := 16
  packing := axis32
  burstBeats_pos := by decide
  burstBeats_le := by decide

abbrev deployed : WriterParams (BitVec 32) (BitVec 32) (BitVec 64) := writer32 16 2048

def pins (word : Option (BitVec 32 × Bool)) (awready wready : Bool) : WriterPins deployed where
  minAddr := 0x10000000
  cfgData := 65535
  mAxiAwready := awready
  mAxiWready := wready
  sAxisTdata := (word.map Prod.fst).getD 0
  sAxisTvalid := word.isSome
  sAxisTlast := (word.map Prod.snd).getD false

def onePacket : List (WriterPins deployed) :=
  [pins (some (1, false)) true true, pins (some (2, true)) true true] ++
    List.replicate 4 (pins none true true)

def fresh : RamWriter deployed :=
  posedge false ⟨false, false, 0, 0, false, 0, [], ⟨0, false⟩, ⟨(false, 0), false⟩⟩
    (pins none true true)

theorem fresh_reset : (circuit deployed).Reset fresh := ⟨_, _, rfl⟩

/-! ### What one clock does to each register -/

section Step

variable (s : RamWriter p) (i : WriterPins p)

@[simp] theorem posedge_intAwvalidReg :
    (posedge true s i).intAwvalidReg = (s.intAwvalidWire && !s.intAwreadyWire i) := by
  cases start : s.intValidWire <;> cases ready : s.intAwreadyWire i <;>
    simp [posedge, awFires, intAwvalidWire, start, ready]

@[simp] theorem posedge_intWvalidReg :
    (posedge true s i).intWvalidReg =
      (s.intWvalidWire && !(s.intWreadyWire i && s.intWlastWire)) := by
  cases start : s.intValidWire <;> cases ready : s.intWreadyWire i <;>
    cases last : s.intWlastWire <;> simp [posedge, intWvalidWire, start, ready, last]

@[simp] theorem posedge_intCntrReg :
    (posedge true s i).intCntrReg =
      if s.intRdenWire i then s.intCntrReg + 1 else if s.awFires i then 0 else s.intCntrReg := rfl

@[simp] theorem posedge_intAddrReg :
    (posedge true s i).intAddrReg =
      if s.awFires i then if s.intAddrReg < i.cfgData then s.intAddrReg + 1 else 0
      else s.intAddrReg := rfl

@[simp] theorem posedge_tlastPendingReg :
    (posedge true s i).tlastPendingReg =
      (!s.awFires i && (i.sAxisTvalid && i.sAxisTlast || s.tlastPendingReg)) := by
  cases fires : s.awFires i <;> cases last : i.sAxisTvalid && i.sAxisTlast <;>
    simp [posedge, fires, last]

@[simp] theorem posedge_awlenReg :
    (posedge true s i).awlenReg = if s.awFires i then s.awlenNext else s.awlenReg := rfl

@[simp] theorem posedge_fifo0 :
    (posedge true s i).fifo0 =
      p.packing.next p.fifoWriteDepth s.fifo0 i.sAxisTvalid i.sAxisTdata (s.intRdenWire i) := rfl

@[simp] theorem posedge_buf0 :
    (posedge true s i).buf0 =
      s.buf0.posedge true (s.awaddrNext i) s.intAwvalidWire i.mAxiAwready := rfl

@[simp] theorem posedge_buf1 :
    (posedge true s i).buf1 =
      s.buf1.posedge true (s.intWlastWire, p.packing.dout s.fifo0) s.intWvalidWire
        i.mAxiWready := rfl

end Step

/-! ### What the ports carry -/

abbrev Tick (p : WriterParams W α R) := Clock (RamWriter p) (WriterPins p)

def accepted (c : Tick p) : List α :=
  p.packing.pushed p.fifoWriteDepth c.regs.fifo0 c.pins.sAxisTvalid c.pins.sAxisTdata

def read (c : Tick p) : List α := p.packing.popped c.regs.fifo0 (c.regs.intRdenWire c.pins)

def handed (c : Tick p) : List (Bool × R) :=
  beat (c.regs.intRdenWire c.pins) (c.regs.intWlastWire, p.packing.dout c.regs.fifo0)

def wBeat (c : Tick p) : List (Bool × R) := c.regs.buf1.taken c.pins.mAxiWready

/-- The address and length handed to the address buffer. -/
def issued (c : Tick p) : List (BitVec p.axiAddrWidth × BitVec 4) :=
  beat (c.regs.awFires c.pins) (c.regs.awaddrNext c.pins, c.regs.awlenNext)

/-- The AW request the slave accepts; `m_axi_awlen` is `awlen_reg`, outside the buffer. -/
def awReq (c : Tick p) : List (BitVec p.axiAddrWidth × BitVec 4) :=
  beat (c.regs.buf0.intValidReg && c.pins.mAxiAwready) (c.regs.buf0.intDataReg, c.regs.awlenReg)

def awWaiting (s : RamWriter p) : List (BitVec p.axiAddrWidth × BitVec 4) :=
  beat s.buf0.intValidReg (s.buf0.intDataReg, s.awlenReg)

section Ports

variable {past : List (Tick p)} {s : RamWriter p}

theorem reset_fields {s : RamWriter p} (reset : (circuit p).Reset s) :
    s.intAwvalidReg = false ∧ s.intWvalidReg = false ∧ s.intCntrReg = 0 ∧ s.intAddrReg = 0 ∧
    s.tlastPendingReg = false ∧ s.awlenReg = BitVec.ofNat 4 p.maxAwlen ∧ s.fifo0 = [] ∧
    s.buf0.intValidReg = false ∧ s.buf1.intValidReg = false := by
  obtain ⟨s₀, i, rfl⟩ := reset
  exact ⟨rfl, rfl, rfl, rfl, rfl, rfl, rfl, rfl, rfl⟩

theorem issued_snoc_length (past : List (Tick p)) (c : Tick p) :
    ((past ++ [c]).flatMap issued).length =
      (past.flatMap issued).length + (c.regs.awFires c.pins).toNat := by
  rw [flatMap_snoc, List.length_append, issued, beat_length]

theorem run_wBeat (run : (circuit p).Run past s) :
    past.flatMap wBeat ++ s.buf1.held = past.flatMap handed := by
  refine run.conserve (fun s => s.buf1.held) ?_ ?_
  · rintro _ ⟨s₀, i, rfl⟩
    exact s₀.buf1.held_posedge_reset ..
  · intro s i
    exact s.buf1.taken_append_held ..

/-- A request keeps its length while it waits: the address buffer takes no other meanwhile. -/
theorem run_awReq (run : (circuit p).Run past s) :
    past.flatMap awReq ++ awWaiting s = past.flatMap issued := by
  refine run.conserve awWaiting ?_ ?_
  · rintro _ ⟨s₀, i, rfl⟩
    rfl
  · intro s i
    cases waits : s.buf0.intValidReg <;> cases ready : i.mAxiAwready <;>
      cases valid : s.intAwvalidWire <;>
      simp [circuit, awReq, awWaiting, issued, OutputBuffer.posedge, awFires, intAwreadyWire,
        OutputBuffer.inReady, waits, ready, valid]

theorem fifo_step (s : RamWriter p) (i : WriterPins p) :
    read ⟨s, i⟩ ++ (posedge true s i).fifo0 = s.fifo0 ++ accepted ⟨s, i⟩ :=
  p.packing.popped_append_next ..

theorem run_fifo (run : (circuit p).Run past s) :
    past.flatMap read ++ s.fifo0 = past.flatMap accepted := by
  refine run.conserve (fun s => s.fifo0) ?_ ?_
  · rintro _ ⟨s₀, i, rfl⟩
    rfl
  · exact fifo_step

theorem run_fifo_length (run : (circuit p).Run past s) :
    s.fifo0.length ≤ p.fifoWriteDepth * p.packing.wrLanes := by
  induction run with
  | reset reset =>
    obtain ⟨-, -, -, -, -, -, empty, -⟩ := reset_fields reset
    simp [empty]
  | tick _ _ ih => exact p.packing.next_length_le ih

end Ports

end RamWriter

end Switcheck
