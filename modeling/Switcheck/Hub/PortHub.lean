import Switcheck.Sync.BurstQueue
import Switcheck.Hub.ReadPath

/-!
# `axi_hub`

The hub with its six ports in regions 2 to 7, each a block-RAM port and a pair of streams. The
registers, the configuration words, the bursts and the handshakes are those of
`axi_hub_modified`; the ports take part in the read data, in `buf_4` and in the stream buffers.
-/

namespace Switcheck

open Sync Circuit

abbrev hubSize : Nat := 6

abbrev HubPort := Fin hubSize

structure PortRBeat where
  bsel : HubPort → Bool
  rid : BitVec 12
  rlast : Bool
  rdata : BitVec 32
  deriving DecidableEq

structure PortHub (p : HubParams) where
  intAwcntrReg : BitVec 4
  intArcntrReg : BitVec 4
  cfgData : Fin p.cfgSize → BitVec 32
  buf0 : InoutBuffer AwReq
  buf1 : InoutBuffer WBeat
  buf2 : OutputBuffer (BitVec 12)
  buf3 : InoutBuffer ArReq
  buf4 : OutputBuffer PortRBeat
  mbuf : HubPort → InoutBuffer (BitVec 32)

structure PortPins (p : HubParams) extends HubPins p where
  bramRdata : HubPort → BitVec 32
  sAxisTdata : HubPort → BitVec 32
  sAxisTvalid : HubPort → Bool
  mAxisTready : HubPort → Bool

namespace PortHub

variable {p : HubParams}

/-- The registers common to the two hubs; of `buf_4` only its handshake counts. -/
def core (s : PortHub p) : AxiHub p where
  intAwcntrReg := s.intAwcntrReg
  intArcntrReg := s.intArcntrReg
  cfgData := s.cfgData
  buf0 := s.buf0
  buf1 := s.buf1
  buf2 := s.buf2
  buf3 := s.buf3
  buf4 := ⟨⟨false, s.buf4.intDataReg.rid, s.buf4.intDataReg.rlast, s.buf4.intDataReg.rdata⟩,
    s.buf4.intValidReg⟩

/-! ### Wires -/

section Wires

variable (s : PortHub p) (i : PortPins p)

def intWeWire : Bool := s.core.intWeWire i.toHubPins

def intReWire : Bool := s.core.intReWire i.toHubPins

def intRlastWire : Bool := s.core.intRlastWire

def intWaddrWire : BitVec 22 := s.core.intWaddrWire

def intRaddrWire : BitVec 22 := s.core.intRaddrWire

/-- The select wires of the ports, `int_wsel_wire[j+2]` and `int_rsel_wire[j+2]`. -/
def intWselWire (j : HubPort) : Bool := s.core.intWselWire i.toHubPins (j + 2)

def intRselWire (j : HubPort) : Bool := s.core.intRselWire i.toHubPins (j + 2)

/-- `int_rdata_mux`, with no answer from a region that does not exist. -/
def intRdataMux (region : Nat) : BitVec 32 :=
  match region with
  | 0 => s.core.intRdataMux i.toHubPins 0
  | 1 => s.core.intRdataMux i.toHubPins 1
  | j + 2 =>
    if port : j < hubSize then
      if i.sAxisTvalid ⟨j, port⟩ then i.sAxisTdata ⟨j, port⟩ else 0
    else 0

def rBeatNext : PortRBeat where
  bsel j := s.intRselWire i j && !i.sAxisTvalid j
  rid := s.buf3.outData.arid
  rlast := s.intRlastWire
  rdata := s.intRdataMux i (s.buf3.outData.araddr.extractLsb' 24 4).toNat

def sAxisTready (j : HubPort) : Bool := s.intRselWire i j

def bramEn (j : HubPort) : Bool := s.intRselWire i j || s.intWselWire i j

def bramWe (j : HubPort) : BitVec 4 :=
  if s.intWselWire i j then s.buf1.outData.wstrb else 0

def bramAddr : BitVec 22 := if s.intWeWire i then s.intWaddrWire else s.intRaddrWire

def bramWdata : BitVec 32 := s.buf1.outData.wdata

end Wires

/-- What a port's block RAM adds to the data of a beat, `int_rdata_wire[j+2]`. -/
def intRdataWire (b : PortRBeat) (bramRdata : HubPort → BitVec 32) (j : HubPort) : BitVec 32 :=
  if b.bsel j then bramRdata j else 0

def sAxiRdata (b : PortRBeat) (bramRdata : HubPort → BitVec 32) : BitVec 32 :=
  b.rdata ||| intRdataWire b bramRdata 0 ||| intRdataWire b bramRdata 1 |||
    intRdataWire b bramRdata 2 ||| intRdataWire b bramRdata 3 |||
    intRdataWire b bramRdata 4 ||| intRdataWire b bramRdata 5

def posedge (aresetn : Bool) (s : PortHub p) (i : PortPins p) : PortHub p where
  intAwcntrReg := (s.core.posedge aresetn i.toHubPins).intAwcntrReg
  intArcntrReg := (s.core.posedge aresetn i.toHubPins).intArcntrReg
  cfgData := (s.core.posedge aresetn i.toHubPins).cfgData
  buf0 := (s.core.posedge aresetn i.toHubPins).buf0
  buf1 := (s.core.posedge aresetn i.toHubPins).buf1
  buf2 := (s.core.posedge aresetn i.toHubPins).buf2
  buf3 := (s.core.posedge aresetn i.toHubPins).buf3
  buf4 := s.buf4.posedge aresetn (s.rBeatNext i) s.core.intRvalidWire i.sAxiRready
  mbuf j := (s.mbuf j).posedge aresetn s.buf1.outData.wdata (s.intWselWire i j) (i.mAxisTready j)

def circuit (p : HubParams) : Circuit (PortHub p) (PortPins p) where
  Reset s := ∃ s₀ i, s = posedge false s₀ i
  tick := posedge true

abbrev Tick (p : HubParams) := Clock (PortHub p) (PortPins p)

def quiet : PortPins AxiHub.deployed where
  toHubPins := AxiHub.quiet
  bramRdata _ := 0
  sAxisTdata _ := 0
  sAxisTvalid _ := false
  mAxisTready _ := false

def fresh : PortHub AxiHub.deployed :=
  posedge false ⟨0, 0, fun _ => 0, AxiHub.fresh.buf0, AxiHub.fresh.buf1, AxiHub.fresh.buf2,
    AxiHub.fresh.buf3, ⟨⟨fun _ => false, 0, false, 0⟩, false⟩,
    fun _ => ⟨⟨0, true⟩, ⟨0, false⟩⟩⟩ quiet

theorem fresh_reset : (circuit AxiHub.deployed).Reset fresh := ⟨_, _, rfl⟩

/-- A burst of one beat to a word of region 2. -/
def writeFirstPort (data : BitVec 32) : PortPins AxiHub.deployed :=
  { quiet with
      sAxiAw := ⟨1, 0x2000000⟩, sAxiAwvalid := true, sAxiW := ⟨15, true, data⟩, sAxiWvalid := true }

/-! ### What the ports carry -/

def coreTick (c : Tick p) : AxiHub.Tick p := ⟨c.regs.core, c.pins.toHubPins⟩

def awAccepted (c : Tick p) : List AwReq := AxiHub.awAccepted (coreTick c)

def wAccepted (c : Tick p) : List WBeat := AxiHub.wAccepted (coreTick c)

def arAccepted (c : Tick p) : List ArReq := AxiHub.arAccepted (coreTick c)

def rAccepted (c : Tick p) : List PortRBeat := c.regs.buf4.taken c.pins.sAxiRready

def wConsumed (c : Tick p) : List WBeat := AxiHub.wConsumed (coreTick c)

def arPopped (c : Tick p) : List ArReq := AxiHub.arPopped (coreTick c)

def rIssued (c : Tick p) : List (Tick p) := beat (c.regs.intReWire c.pins) c

def sAccepted (j : HubPort) (c : Tick p) : List (BitVec 32) :=
  beat (c.pins.sAxisTvalid j && c.regs.sAxisTready c.pins j) (c.pins.sAxisTdata j)

def mAccepted (j : HubPort) (c : Tick p) : List (BitVec 32) :=
  (c.regs.mbuf j).taken (c.pins.mAxisTready j)

def rBeat (c : Tick p) : PortRBeat := c.regs.rBeatNext c.pins

section Ports

variable {past : List (Tick p)} {s : PortHub p} {i : PortPins p} {j : HubPort}

structure Cleared (s : PortHub p) : Prop where
  arcntr : s.intArcntrReg = 0
  buf0 : s.buf0.held = []
  buf1 : s.buf1.held = []
  buf3 : s.buf3.held = []
  buf4 : s.buf4.held = []
  mbuf : ∀ j, (s.mbuf j).held = []

theorem cleared_of_reset (reset : (circuit p).Reset s) : Cleared s := by
  obtain ⟨s₀, i, rfl⟩ := reset
  exact ⟨rfl, rfl, rfl, rfl, rfl, fun _ => rfl⟩

structure Settled (s : PortHub p) : Prop where
  buf0 : s.buf0.Settled
  buf1 : s.buf1.Settled
  buf3 : s.buf3.Settled
  mbuf : ∀ j, (s.mbuf j).Settled

theorem posedge_settled (aresetn : Bool) (s : PortHub p) (i : PortPins p) :
    (posedge aresetn s i).Settled := by
  obtain ⟨buf0, buf1, buf3⟩ := s.core.posedge_settled aresetn i.toHubPins
  exact ⟨buf0, buf1, buf3, fun j => InoutBuffer.settled_posedge _ _ _ _ _⟩

theorem run_settled (run : (circuit p).Run past s) : s.Settled := by
  cases run with
  | reset reset =>
    obtain ⟨s₀, i, rfl⟩ := reset
    exact posedge_settled false s₀ i
  | tick run i => exact posedge_settled true _ i

theorem run_w (run : (circuit p).Run past s) :
    past.flatMap wConsumed ++ s.buf1.held = past.flatMap wAccepted :=
  run.conserve (fun s => s.buf1.held) (fun _ reset => (cleared_of_reset reset).buf1)
    fun s _ => s.buf1.taken_append_held ..

theorem buf4_step (s : PortHub p) (i : PortPins p) :
    rAccepted ⟨s, i⟩ ++ ((circuit p).tick s i).buf4.held =
      s.buf4.held ++ beat (s.intReWire i) (s.rBeatNext i) := by
  have moved := s.buf4.taken_append_held (s.rBeatNext i) s.core.intRvalidWire i.sAxiRready
  unfold OutputBuffer.put at moved
  rw [Bool.and_comm s.core.intRvalidWire] at moved
  exact moved

theorem run_r (run : (circuit p).Run past s) :
    past.flatMap rAccepted ++ s.buf4.held = (past.flatMap rIssued).map rBeat := by
  rw [List.map_flatMap]
  refine run.conserve (fun s => s.buf4.held) (fun _ reset => (cleared_of_reset reset).buf4) ?_
  intro s i
  rw [rIssued, map_beat]
  exact buf4_step s i

/-! ### One clock of a port -/

theorem intWselWire_eq : s.intWselWire i j =
    (s.intWeWire i && decide (s.buf0.outData.region = j + 2)) := rfl

theorem intRselWire_eq : s.intRselWire i j =
    (s.intReWire i && decide (s.buf3.outData.region = j + 2)) := rfl

theorem head?_of_we (we : s.intWeWire i = true) : s.buf0.held.head? = some s.buf0.outData :=
  AxiHub.head?_of_we (s := s.core) we

theorem head?_of_re (re : s.intReWire i = true) : s.buf3.held.head? = some s.buf3.outData :=
  AxiHub.head?_of_re (s := s.core) re

theorem rBeatNext_bsel (k : HubPort) : (s.rBeatNext i).bsel k =
    (s.intReWire i && decide (s.buf3.outData.region = k + 2) && !i.sAxisTvalid k) := rfl

/-- A beat with the word of a port's stream takes nothing from a block RAM. -/
theorem sAxiRdata_of_stream {b : PortRBeat} (none : ∀ k, b.bsel k = false)
    (bramRdata : HubPort → BitVec 32) : sAxiRdata b bramRdata = b.rdata := by
  simp [sAxiRdata, intRdataWire, none]

theorem intRdataMux_port (j : HubPort) :
    s.intRdataMux i (j + 2) = if i.sAxisTvalid j then i.sAxisTdata j else 0 := by
  rw [intRdataMux, dif_pos j.isLt]

/-- A beat from a port without a word has the output of its block RAM. -/
theorem sAxiRdata_of_bram {b : PortRBeat} (one : ∀ k, b.bsel k = decide (k = j))
    (zero : b.rdata = 0) (bramRdata : HubPort → BitVec 32) :
    sAxiRdata b bramRdata = bramRdata j := by
  unfold sAxiRdata intRdataWire
  simp only [one, zero]
  match j with
  | 0 | 1 | 2 | 3 | 4 | 5 => simp

theorem arPopped_eq (c : Tick p) : arPopped c =
    beat (c.regs.intReWire c.pins && c.regs.intRlastWire) c.regs.buf3.outData :=
  AxiHub.arPopped_eq (coreTick c)

theorem posedge_arcntr : (posedge true s i).intArcntrReg =
    if s.intReWire i then if s.intRlastWire then 0 else s.intArcntrReg + 1
    else s.intArcntrReg :=
  AxiHub.posedge_arcntr (s := s.core) (i := i.toHubPins)

/-! ### The bursts and their requests -/

/-- Write bursts are served for the request in front of `buf_0`. -/
def writes (p : HubParams) : BurstQueue (circuit p) AwReq WBeat where
  queue s := s.buf0.held
  accepted := awAccepted
  popped c := AxiHub.awPopped (coreTick c)
  served := wConsumed
  last := WBeat.wlast
  empty _ reset := (cleared_of_reset reset).buf0
  conserve s _ := s.buf0.taken_append_held ..
  serves c := (AxiHub.writes p).serves (coreTick c)

/-- Read bursts are served for the request in front of `buf_3`. -/
def reads (p : HubParams) : BurstQueue (circuit p) ArReq (Tick p) where
  queue s := s.buf3.held
  accepted := arAccepted
  popped := arPopped
  served := rIssued
  last c := c.regs.intRlastWire
  empty _ reset := (cleared_of_reset reset).buf3
  conserve s _ := s.buf3.taken_append_held ..
  serves c := by
    rw [rIssued, arPopped_eq]
    cases re : c.regs.intReWire c.pins with
    | false => exact Or.inl ⟨rfl, rfl⟩
    | true => exact Or.inr ⟨c.regs.buf3.outData, c, head?_of_re re, rfl, rfl⟩

end Ports

end PortHub

end Switcheck
