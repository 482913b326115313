import Mathlib.Data.Nat.Init
import Switcheck.Sync.Circuit
import Switcheck.Modules.Buffers
import Switcheck.Modules.Verilog

/-!
# `axi_hub_modified`

An AXI slave in front of a configuration register, written and read, and a status register,
read only. `cfg_data` and `sts_data` are taken as their 32-bit words; the hub ports, which
nothing drives, as zero.
-/

namespace Switcheck

open Sync

structure HubParams where
  cfgDataWidth : Nat
  stsDataWidth : Nat

namespace HubParams

variable (p : HubParams)

def cfgSize : Nat := p.cfgDataWidth / 32

def cfgWidth : Nat := if 1 < p.cfgSize then clog2 p.cfgSize else 1

def stsSize : Nat := p.stsDataWidth / 32

def stsWidth : Nat := if 1 < p.stsSize then clog2 p.stsSize else 1

end HubParams

structure AwReq where
  awid : BitVec 12
  awaddr : BitVec 32
  deriving DecidableEq

structure WBeat where
  wstrb : BitVec 4
  wlast : Bool
  wdata : BitVec 32
  deriving DecidableEq

structure ArReq where
  arid : BitVec 12
  arlen : BitVec 4
  araddr : BitVec 32
  deriving DecidableEq

structure RBeat where
  bsel : Bool
  rid : BitVec 12
  rlast : Bool
  rdata : BitVec 32
  deriving DecidableEq

structure AxiHub (p : HubParams) where
  intAwcntrReg : BitVec 4
  intArcntrReg : BitVec 4
  cfgData : Fin p.cfgSize → BitVec 32
  buf0 : InoutBuffer AwReq
  buf1 : InoutBuffer WBeat
  buf2 : OutputBuffer (BitVec 12)
  buf3 : InoutBuffer ArReq
  buf4 : OutputBuffer RBeat

structure HubPins (p : HubParams) where
  sAxiAw : AwReq
  sAxiAwvalid : Bool
  sAxiW : WBeat
  sAxiWvalid : Bool
  sAxiBready : Bool
  sAxiAr : ArReq
  sAxiArvalid : Bool
  sAxiRready : Bool
  stsData : Fin p.stsSize → BitVec 32

/-- A word of a register bank; no word answers beyond its end. -/
def wordAt {n : Nat} (words : Fin n → BitVec 32) (a : Nat) : BitVec 32 :=
  if inside : a < n then words ⟨a, inside⟩ else 0

/-- The D flip-flop with clock enable and synchronous reset. -/
def fdre (r ce d q : Bool) : Bool := if r then false else if ce then d else q

def ofBits (bit : Fin 32 → Bool) : BitVec 32 := BitVec.ofNat 32 (Nat.ofBits bit)

theorem ofBits_getLsbD (bit : Fin 32 → Bool) {k : Nat} (low : k < 32) :
    (ofBits bit).getLsbD k = bit ⟨k, low⟩ := by
  rw [ofBits, BitVec.getLsbD_ofNat, Nat.testBit_ofBits_lt _ _ low, decide_eq_true low,
    Bool.true_and]

namespace AxiHub

/-- The hub ports, which nothing drives. -/
def intSvalidWire : Bool := false

def intSdataWire : BitVec 32 := 0

def intBdataWire : BitVec 32 := 0

variable {p : HubParams}

/-! ### Wires -/

section Wires

variable (s : AxiHub p) (i : HubPins p)

def intBreadyWire : Bool := s.buf2.inReady i.sAxiBready

def intRreadyWire : Bool := s.buf4.inReady i.sAxiRready

def intAwreadyWire : Bool := s.intBreadyWire i && s.buf1.outValid && s.buf1.outData.wlast

def intWreadyWire : Bool := s.intBreadyWire i && s.buf0.outValid

def intBvalidWire : Bool := s.buf0.outValid && s.buf1.outValid && s.buf1.outData.wlast

def intRlastWire : Bool := s.intArcntrReg == s.buf3.outData.arlen

def intArreadyWire : Bool := s.intRreadyWire i && s.intRlastWire

def intRvalidWire : Bool := s.buf3.outValid

def intWeWire : Bool := s.intBreadyWire i && s.buf0.outValid && s.buf1.outValid

def intReWire : Bool := s.intRreadyWire i && s.buf3.outValid

def intWaddrWire : BitVec 22 :=
  s.buf0.outData.awaddr.extractLsb' 2 22 + s.intAwcntrReg.setWidth 22

def intRaddrWire : BitVec 22 :=
  s.buf3.outData.araddr.extractLsb' 2 22 + s.intArcntrReg.setWidth 22

def intWselWire (j : Nat) : Bool :=
  s.intWeWire i && decide ((s.buf0.outData.awaddr.extractLsb' 24 4).toNat = j)

def intRselWire (j : Nat) : Bool :=
  s.intReWire i && decide ((s.buf3.outData.araddr.extractLsb' 24 4).toNat = j)

def intCeWire (j : Nat) : Bool :=
  s.intWselWire i 0 && decide ((s.intWaddrWire.setWidth p.cfgWidth).toNat = j)

/-- `int_rdata_mux`, with no answer from a region that does not exist. -/
def intRdataMux (region : Nat) : BitVec 32 :=
  match region with
  | 0 => wordAt s.cfgData (s.intRaddrWire.setWidth p.cfgWidth).toNat
  | 1 => wordAt i.stsData (s.intRaddrWire.setWidth p.stsWidth).toNat
  | 2 => if intSvalidWire then intSdataWire else 0
  | _ => 0

def intAwcntrNext : BitVec 4 :=
  if !s.buf1.outData.wlast && s.intWeWire i then s.intAwcntrReg + 1
  else if s.buf0.outValid && s.intAwreadyWire i then 0
  else s.intAwcntrReg

def intArcntrNext : BitVec 4 :=
  if !s.intRlastWire && s.intReWire i then s.intArcntrReg + 1
  else if s.buf3.outValid && s.intArreadyWire i then 0
  else s.intArcntrReg

def rBeatNext : RBeat where
  bsel := s.intRselWire i 2 && !intSvalidWire
  rid := s.buf3.outData.arid
  rlast := s.intRlastWire
  rdata := s.intRdataMux i (s.buf3.outData.araddr.extractLsb' 24 4).toNat

end Wires

/-- The data the master sees with a beat of `buf_4`. -/
def sAxiRdata (b : RBeat) : BitVec 32 := b.rdata ||| if b.bsel then intBdataWire else 0

def posedge (aresetn : Bool) (s : AxiHub p) (i : HubPins p) : AxiHub p where
  intAwcntrReg := if !aresetn then 0 else s.intAwcntrNext i
  intArcntrReg := if !aresetn then 0 else s.intArcntrNext i
  cfgData j :=
    let word := s.cfgData j
    ofBits fun k =>
      fdre (!aresetn) (s.intCeWire i j && s.buf1.outData.wstrb.getLsbD (k / 8))
        (s.buf1.outData.wdata.getLsbD k) (word.getLsbD k)
  buf0 := s.buf0.posedge aresetn i.sAxiAw i.sAxiAwvalid (s.intAwreadyWire i)
  buf1 := s.buf1.posedge aresetn i.sAxiW i.sAxiWvalid (s.intWreadyWire i)
  buf2 := s.buf2.posedge aresetn s.buf0.outData.awid s.intBvalidWire i.sAxiBready
  buf3 := s.buf3.posedge aresetn i.sAxiAr i.sAxiArvalid (s.intArreadyWire i)
  buf4 := s.buf4.posedge aresetn (s.rBeatNext i) s.intRvalidWire i.sAxiRready

def circuit (p : HubParams) : Circuit (AxiHub p) (HubPins p) where
  Reset s := ∃ s₀ i, s = posedge false s₀ i
  tick := posedge true

abbrev deployed : HubParams := ⟨320, 640⟩

def quiet : HubPins deployed where
  sAxiAw := ⟨0, 0⟩
  sAxiAwvalid := false
  sAxiW := ⟨0, false, 0⟩
  sAxiWvalid := false
  sAxiBready := true
  sAxiAr := ⟨0, 0, 0⟩
  sAxiArvalid := false
  sAxiRready := true
  stsData j := BitVec.ofNat 32 j

def fresh : AxiHub deployed :=
  posedge false ⟨0, 0, fun _ => 0, ⟨⟨⟨0, 0⟩, true⟩, ⟨⟨0, 0⟩, false⟩⟩,
    ⟨⟨⟨0, false, 0⟩, true⟩, ⟨⟨0, false, 0⟩, false⟩⟩, ⟨0, false⟩,
    ⟨⟨⟨0, 0, 0⟩, true⟩, ⟨⟨0, 0, 0⟩, false⟩⟩, ⟨⟨false, 0, false, 0⟩, false⟩⟩ quiet

theorem fresh_reset : (circuit deployed).Reset fresh := ⟨_, _, rfl⟩

abbrev Tick (p : HubParams) := Clock (AxiHub p) (HubPins p)

/-! ### What the ports carry -/

def awAccepted (c : Tick p) : List AwReq := c.regs.buf0.put c.pins.sAxiAw c.pins.sAxiAwvalid

def wAccepted (c : Tick p) : List WBeat := c.regs.buf1.put c.pins.sAxiW c.pins.sAxiWvalid

def bAccepted (c : Tick p) : List (BitVec 12) := c.regs.buf2.taken c.pins.sAxiBready

def arAccepted (c : Tick p) : List ArReq := c.regs.buf3.put c.pins.sAxiAr c.pins.sAxiArvalid

def rAccepted (c : Tick p) : List RBeat := c.regs.buf4.taken c.pins.sAxiRready

def awPopped (c : Tick p) : List AwReq := c.regs.buf0.taken (c.regs.intAwreadyWire c.pins)

def wConsumed (c : Tick p) : List WBeat := c.regs.buf1.taken (c.regs.intWreadyWire c.pins)

def arPopped (c : Tick p) : List ArReq := c.regs.buf3.taken (c.regs.intArreadyWire c.pins)

def bQueued (c : Tick p) : List (BitVec 12) :=
  c.regs.buf2.put c.regs.buf0.outData.awid c.regs.intBvalidWire c.pins.sAxiBready

def rQueued (c : Tick p) : List RBeat :=
  c.regs.buf4.put (c.regs.rBeatNext c.pins) c.regs.intRvalidWire c.pins.sAxiRready

section Ports

variable {past : List (Tick p)} {s : AxiHub p}

theorem reset_fields {s : AxiHub p} (reset : (circuit p).Reset s) :
    s.intAwcntrReg = 0 ∧ s.intArcntrReg = 0 ∧ s.cfgData = (fun _ => 0) ∧ s.buf0.held = [] ∧
    s.buf1.held = [] ∧ s.buf2.held = [] ∧ s.buf3.held = [] ∧ s.buf4.held = [] := by
  obtain ⟨s₀, i, rfl⟩ := reset
  refine ⟨rfl, rfl, ?_, rfl, rfl, rfl, rfl, rfl⟩
  funext j
  refine BitVec.eq_of_getLsbD_eq fun k low => ?_
  rw [posedge, ofBits_getLsbD _ low]
  simp [fdre]

theorem run_aw (run : (circuit p).Run past s) :
    past.flatMap awPopped ++ s.buf0.held = past.flatMap awAccepted :=
  run.conserve (fun s => s.buf0.held) (fun _ reset => (reset_fields reset).2.2.2.1)
    fun s _ => s.buf0.taken_append_held ..

theorem run_w (run : (circuit p).Run past s) :
    past.flatMap wConsumed ++ s.buf1.held = past.flatMap wAccepted :=
  run.conserve (fun s => s.buf1.held) (fun _ reset => (reset_fields reset).2.2.2.2.1)
    fun s _ => s.buf1.taken_append_held ..

theorem run_b (run : (circuit p).Run past s) :
    past.flatMap bAccepted ++ s.buf2.held = past.flatMap bQueued :=
  run.conserve (fun s => s.buf2.held) (fun _ reset => (reset_fields reset).2.2.2.2.2.1)
    fun s _ => s.buf2.taken_append_held ..

theorem run_ar (run : (circuit p).Run past s) :
    past.flatMap arPopped ++ s.buf3.held = past.flatMap arAccepted :=
  run.conserve (fun s => s.buf3.held) (fun _ reset => (reset_fields reset).2.2.2.2.2.2.1)
    fun s _ => s.buf3.taken_append_held ..

theorem run_r (run : (circuit p).Run past s) :
    past.flatMap rAccepted ++ s.buf4.held = past.flatMap rQueued :=
  run.conserve (fun s => s.buf4.held) (fun _ reset => (reset_fields reset).2.2.2.2.2.2.2)
    fun s _ => s.buf4.taken_append_held ..

theorem posedge_settled (aresetn : Bool) (s : AxiHub p) (i : HubPins p) :
    (posedge aresetn s i).buf0.Settled ∧ (posedge aresetn s i).buf1.Settled ∧
      (posedge aresetn s i).buf3.Settled :=
  ⟨InoutBuffer.settled_posedge _ _ _ _ _, InoutBuffer.settled_posedge _ _ _ _ _,
    InoutBuffer.settled_posedge _ _ _ _ _⟩

theorem run_settled (run : (circuit p).Run past s) :
    s.buf0.Settled ∧ s.buf1.Settled ∧ s.buf3.Settled := by
  cases run with
  | reset reset =>
    obtain ⟨s₀, i, rfl⟩ := reset
    exact posedge_settled false s₀ i
  | tick run i => exact posedge_settled true _ i

theorem posedge_buf0_stalled {i : HubPins p} (valid : s.buf0.outValid = true)
    (held : s.intAwreadyWire i = false) :
    (posedge true s i).buf0.outValid = true ∧
      (posedge true s i).buf0.outData = s.buf0.outData := by
  have stalled := s.buf0.posedge_stalled i.sAxiAw i.sAxiAwvalid valid
  rwa [← held] at stalled

theorem posedge_buf3_stalled {i : HubPins p} (valid : s.buf3.outValid = true)
    (held : s.intArreadyWire i = false) :
    (posedge true s i).buf3.outValid = true ∧
      (posedge true s i).buf3.outData = s.buf3.outData := by
  have stalled := s.buf3.posedge_stalled i.sAxiAr i.sAxiArvalid valid
  rwa [← held] at stalled

end Ports

end AxiHub

end Switcheck
