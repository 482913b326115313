import Mathlib.Data.List.Chain
import Switcheck.Modules.Buffers
import Switcheck.Modules.SyncRam
import Switcheck.Modules.Verilog
import Switcheck.Sync.Circuit

/-!
# `axis_keyer`

The address goes up and down between 0 and `cfg_data`, and turns nowhere else. The block RAM holds
the envelope and is read in every clock the pipeline is ready.
-/

namespace Switcheck

open Sync Circuit

/-- The core with the RAM at its port; `AXIS_TDATA_WIDTH` is `BRAM_DATA_WIDTH`. -/
structure AxisKeyer (w : Nat) (β : Type) where
  intAddrReg : BitVec w
  intDataReg : BitVec w
  intEnblReg : Bool
  buf0 : OutputBuffer Unit
  buf1 : InoutBuffer β
  ram : SyncRam w β

structure KeyerPins where
  keyFlag : Bool
  mAxisTready : Bool
  deriving DecidableEq

namespace AxisKeyer

variable {w : Nat} {β : Type}

/-- `int_comp_wire[0]`. -/
def intCompWire0 (s : AxisKeyer w β) : Bool := decide (s.intAddrReg < s.intDataReg)

/-- `int_comp_wire[1]`. -/
def intCompWire1 (s : AxisKeyer w β) : Bool := s.intAddrReg != 0

def intReadyWire1 (s : AxisKeyer w β) : Bool := s.buf1.inReady

def intReadyWire0 (s : AxisKeyer w β) : Bool := s.buf0.inReady s.intReadyWire1

def intValidWire1 (s : AxisKeyer w β) : Bool := s.buf0.intValidReg

/-- `int_addr_next`. -/
def intAddrNext (s : AxisKeyer w β) : BitVec w :=
  if s.intReadyWire0 && !s.intEnblReg && s.intCompWire1 then s.intAddrReg - 1
  else if s.intReadyWire0 && s.intEnblReg && s.intCompWire0 then s.intAddrReg + 1
  else s.intAddrReg

/-- `int_enbl_next`. -/
def intEnblNext (s : AxisKeyer w β) (keyFlag : Bool) : Bool :=
  if s.intReadyWire0 && s.intEnblReg && !s.intCompWire0 && !keyFlag then false
  else if !s.intEnblReg && !s.intCompWire1 && keyFlag then true
  else s.intEnblReg

def posedge (aresetn : Bool) (cfgData : BitVec w) (s : AxisKeyer w β) (i : KeyerPins) :
    AxisKeyer w β where
  intAddrReg := if !aresetn then 0 else s.intAddrNext
  intDataReg := if !aresetn then 0 else cfgData
  intEnblReg := if !aresetn then false else s.intEnblNext i.keyFlag
  buf0 := s.buf0.posedge aresetn () true s.intReadyWire1
  buf1 := s.buf1.posedge aresetn s.ram.dout s.intValidWire1 i.mAxisTready
  ram := s.ram.posedge .readFirst s.intReadyWire0 false s.intAddrReg s.ram.dout

def circuit (cfgData : BitVec w) (mem : BitVec w → β) : Circuit (AxisKeyer w β) KeyerPins where
  Reset s := (∃ s₀ i, s = posedge false cfgData s₀ i) ∧ s.ram.mem = mem
  tick := posedge true cfgData

abbrev Tick (w : Nat) (β : Type) := Clock (AxisKeyer w β) KeyerPins

def mAccepted (c : Tick w β) : List β :=
  beat (c.regs.buf1.outValid && c.pins.mAxisTready) c.regs.buf1.outData

/-- The address that is read in a clock, with the enable. -/
def asked (c : Tick w β) : List (BitVec w × Bool) :=
  beat c.regs.intReadyWire0 (c.regs.intAddrReg, c.regs.intEnblReg)

/-- The addresses read. -/
def addresses (past : List (Tick w β)) : List Nat := (past.flatMap asked).map fun a => a.1.toNat

/-- From 0, by steps of at most 1 and up to `top`; a rise from 0 goes on to `top`, and a fall from
there to 0. -/
structure Envelope (top : Nat) (as : List Nat) : Prop where
  start : ∀ a, as[0]? = some a → a = 0
  within : ∀ a ∈ as, a ≤ top
  steps : ∀ k a b, as[k]? = some a → as[k + 1]? = some b → a ≤ b + 1 ∧ b ≤ a + 1
  rises : ∀ k b, as[k]? = some 0 → as[k + 1]? = some b → 0 < b → ∀ m ≤ top, k + m < as.length →
    as[k + m]? = some m
  falls : ∀ k b, as[k]? = some top → as[k + 1]? = some b → b < top → ∀ m ≤ top, k + m < as.length →
    as[k + m]? = some (top - m)

variable {cfg : BitVec w} {mem : BitVec w → β} {past : List (Tick w β)} {s : AxisKeyer w β}
  {i : KeyerPins}

/-! ### The pipeline -/

/-- `buf_0` with the output register of the RAM. -/
def stage (s : AxisKeyer w β) : OutputBuffer β := s.ram.stage (fun _ => id) s.buf0

def held (s : AxisKeyer w β) : List β := s.buf1.held ++ s.stage.held

/-- A word leaves the port, moves up or is read: none is lost and none comes twice. -/
theorem conserve (cfg : BitVec w) (s : AxisKeyer w β) (i : KeyerPins) :
    mAccepted ⟨s, i⟩ ++ (posedge true cfg s i).held =
      s.held ++ (asked ⟨s, i⟩).map fun a => s.ram.mem a.1 := by
  have front : (posedge true cfg s i).stage =
      s.stage.posedge true (s.ram.mem s.intAddrReg) true s.intReadyWire1 :=
    SyncRam.stage_posedge (fun _ => id) .readFirst s.ram s.buf0 () true s.intReadyWire1 s.intAddrReg
      s.ram.dout
  have law := s.buf1.taken_append_held_stage s.stage (s.ram.mem s.intAddrReg) true i.mAxisTready
  rw [held, front, asked, map_beat]
  exact law

theorem run_mem (run : (circuit cfg mem).Run past s) : s.ram.mem = mem := by
  induction run with
  | reset reset => exact reset.2
  | @tick past s run i ih =>
    have reads := SyncRam.posedge_read .readFirst s.ram s.intReadyWire0 s.intAddrReg s.ram.dout
    exact (congrArg SyncRam.mem reads).trans ih

theorem run_conserve (run : (circuit cfg mem).Run past s) :
    past.flatMap mAccepted ++ s.held = (past.flatMap asked).map fun a => mem a.1 := by
  induction run with
  | reset reset =>
    obtain ⟨⟨s₀, i, rfl⟩, -⟩ := reset
    rfl
  | @tick past s run i ih =>
    have step := conserve cfg s i
    rw [run_mem run] at step
    rw [flatMap_snoc, flatMap_snoc, List.map_append, ← ih, List.append_assoc, List.append_assoc,
      ← step]
    rfl

/-! ### The way of the address -/

/-- From one address to the next, each with the enable. -/
def Turns (top : Nat) (a b : Nat × Bool) : Prop :=
  if a.2 then if a.1 < top then b = (a.1 + 1, true) else b.1 = a.1
  else if a.1 = 0 then b.1 = 0 else b.1 + 1 = a.1 ∧ (b.1 ≠ 0 → b.2 = false)

structure Route (top : Nat) (l : List (Nat × Bool)) : Prop where
  start : ∀ a ∈ l.head?, a.1 = 0
  within : ∀ a ∈ l, a.1 ≤ top
  turns : l.IsChain (Turns top)

variable {top : Nat} {l l' : List (Nat × Bool)} {a : Nat × Bool}

theorem Turns.get (chain : l.IsChain (Turns top)) {k : Nat} {a b : Nat × Bool}
    (here : l[k]? = some a) (next : l[k + 1]? = some b) : Turns top a b := by
  obtain ⟨below, rfl⟩ := List.getElem?_eq_some_iff.mp next
  obtain ⟨_, rfl⟩ := List.getElem?_eq_some_iff.mp here
  exact List.isChain_iff_getElem.mp chain k below

theorem fst_get {k m : Nat} (here : (l.map Prod.fst)[k]? = some m) :
    ∃ e, l[k]? = some (m, e) := by
  rw [List.getElem?_map, Option.map_eq_some_iff] at here
  obtain ⟨⟨_, e⟩, found, rfl⟩ := here
  exact ⟨e, found⟩

theorem rise (chain : l.IsChain (Turns top)) {k b : Nat}
    (here : (l.map Prod.fst)[k]? = some 0) (next : (l.map Prod.fst)[k + 1]? = some b)
    (rises : 0 < b) {m : Nat} (le : m ≤ top) (there : k + m < l.length) : l[k + m]? = some (m, true) := by
  obtain ⟨e, here⟩ := fst_get here
  obtain ⟨e', next⟩ := fst_get next
  have up : e = true := by
    by_contra down
    have turn := Turns.get chain here next
    simp only [Turns, down, if_false, if_true] at turn
    omega
  subst up
  induction m with
  | zero => exact here
  | succ m ih =>
    have before := ih (by omega) (by omega)
    have after := List.getElem?_eq_getElem there
    have turn := Turns.get chain before after
    simp only [Turns, if_true, if_pos (show m < top from le)] at turn
    rw [after, turn]

theorem fall (chain : l.IsChain (Turns top)) {k b : Nat}
    (here : (l.map Prod.fst)[k]? = some top) (next : (l.map Prod.fst)[k + 1]? = some b)
    (falls : b < top) {m : Nat} (le : m ≤ top) (there : k + m < l.length) :
    ∃ e, l[k + m]? = some (top - m, e) ∧ (m < top → e = false) := by
  obtain ⟨e, here⟩ := fst_get here
  obtain ⟨e', next⟩ := fst_get next
  have down : e = false := by
    by_contra up
    have turn := Turns.get chain here next
    simp only [Turns, Bool.of_not_eq_false up, if_true, if_neg (Nat.lt_irrefl top)] at turn
    omega
  subst down
  induction m with
  | zero => exact ⟨false, here, fun _ => rfl⟩
  | succ m ih =>
    obtain ⟨e, before, off⟩ := ih (by omega) (by omega)
    have after := List.getElem?_eq_getElem there
    have turn := Turns.get chain before after
    have above : top - m ≠ 0 := by omega
    simp only [Turns, off le, Bool.false_eq_true, if_false, if_neg above] at turn
    have place : l[k + (m + 1)].1 = top - (m + 1) := by omega
    refine ⟨l[k + (m + 1)].2, ?_, fun more => turn.2 (by omega)⟩
    rw [after, ← place]

theorem Turns.step {a b : Nat × Bool} (turns : Turns top a b) : a.1 ≤ b.1 + 1 ∧ b.1 ≤ a.1 + 1 := by
  unfold Turns at turns
  split at turns
  · split at turns
    · rw [turns]
      omega
    · omega
  · split at turns
    · omega
    · omega

theorem Route.envelope (route : Route top l) : Envelope top (l.map Prod.fst) := by
  refine ⟨fun a first => ?_, fun a member => ?_, fun k a b here next => ?_,
    fun k b here next rises m le there => ?_, fun k b here next falls m le there => ?_⟩
  · obtain ⟨e, found⟩ := fst_get first
    exact route.start (a, e) (List.head?_eq_getElem? ▸ found)
  · obtain ⟨x, found, rfl⟩ := List.mem_map.mp member
    exact route.within x found
  · obtain ⟨e, here⟩ := fst_get here
    obtain ⟨e', next⟩ := fst_get next
    exact (Turns.get route.turns here next).step
  · rw [List.length_map] at there
    rw [List.getElem?_map, rise route.turns here next rises le there]
    rfl
  · rw [List.length_map] at there
    obtain ⟨e, found, -⟩ := fall route.turns here next falls le there
    rw [List.getElem?_map, found]
    rfl

theorem Route.snoc {b : Nat × Bool} (route : Route top (l ++ [a])) (turns : Turns top a b)
    (le : b.1 ≤ top) : Route top (l ++ [a] ++ [b]) := by
  refine ⟨?_, ?_, ?_⟩
  · rw [List.head?_append_of_ne_nil _ (by simp)]
    exact route.start
  · intro x member
    rcases List.mem_append.mp member with before | last
    · exact route.within x before
    · rw [List.mem_singleton.mp last]
      exact le
  · refine List.isChain_append.mpr ⟨route.turns, List.isChain_singleton b, ?_⟩
    intro x last y first
    rw [List.getLast?_concat, Option.mem_some_iff] at last
    rw [List.head?_singleton, Option.mem_some_iff] at first
    rw [← last, ← first]
    exact turns

/-- At 0 the enable may come at any time. -/
theorem Route.wake (route : Route top (l ++ [(0, false)])) : Route top (l ++ [(0, true)]) := by
  have zero {x : Nat × Bool} (turns : Turns top x (0, false)) : Turns top x (0, true) := by
    obtain ⟨m, e⟩ := x
    cases e with
    | true =>
      by_cases below : m < top
      · simp [Turns, below] at turns
      · simpa [Turns, below] using turns
    | false => by_cases zero : m = 0 <;> simp_all [Turns]
  obtain ⟨chain, -, last⟩ := List.isChain_append.mp route.turns
  refine ⟨?_, ?_, List.isChain_append.mpr ⟨chain, List.isChain_singleton _, ?_⟩⟩
  · intro x first
    cases l with
    | nil =>
      rw [List.nil_append, List.head?_singleton, Option.mem_some_iff] at first
      rw [← first]
    | cons y rest => exact route.start x first
  · intro x member
    rcases List.mem_append.mp member with before | new
    · exact route.within x (List.mem_append_left _ before)
    · rw [List.mem_singleton.mp new]
      exact Nat.zero_le _
  · intro x before y first
    rw [List.head?_singleton, Option.mem_some_iff] at first
    rw [← first]
    exact zero (last x before _ rfl)

/-! ### The registers -/

def moves (past : List (Tick w β)) : List (Nat × Bool) :=
  (past.flatMap asked).map fun a => (a.1.toNat, a.2)

/-- The addresses read and the one on its way; `int_data_reg` is 0 for a clock after reset. -/
structure Ramps (cfg : BitVec w) (past : List (Tick w β)) (s : AxisKeyer w β) : Prop where
  data : s.intDataReg = cfg ∨ (s.intAddrReg = 0 ∧ s.intEnblReg = false)
  route : Route cfg.toNat (moves past ++ [(s.intAddrReg.toNat, s.intEnblReg)])

theorem moves_snoc (past : List (Tick w β)) (s : AxisKeyer w β) (i : KeyerPins) :
    moves (past ++ [⟨s, i⟩]) =
      moves past ++ beat s.intReadyWire0 (s.intAddrReg.toNat, s.intEnblReg) := by
  rw [moves, flatMap_snoc, List.map_append, asked, map_beat]
  rfl

/-- In a clock in which nothing is read the address stays. -/
theorem posedge_stalled (cfg : BitVec w) (stalled : s.intReadyWire0 = false) :
    (posedge true cfg s i).intAddrReg = s.intAddrReg ∧
    (posedge true cfg s i).intEnblReg =
      if s.intAddrReg = 0 ∧ s.intEnblReg = false ∧ i.keyFlag = true then true
      else s.intEnblReg := by
  have address : (posedge true cfg s i).intAddrReg = s.intAddrReg := by
    simp [posedge, intAddrNext, stalled]
  refine ⟨address, ?_⟩
  simp only [posedge, intEnblNext, intCompWire1, stalled]
  by_cases zero : s.intAddrReg = 0 <;> cases s.intEnblReg <;> cases i.keyFlag <;> simp [zero]

theorem turns_posedge (ready : s.intReadyWire0 = true) (le : s.intAddrReg ≤ cfg)
    (data : s.intDataReg = cfg ∨ (s.intAddrReg = 0 ∧ s.intEnblReg = false)) :
    Turns cfg.toNat (s.intAddrReg.toNat, s.intEnblReg)
      ((posedge true cfg s i).intAddrReg.toNat, (posedge true cfg s i).intEnblReg) ∧
    (posedge true cfg s i).intAddrReg.toNat ≤ cfg.toNat := by
  cases enbl : s.intEnblReg with
  | true =>
    have top : s.intDataReg = cfg := data.resolve_right fun off => by simp [enbl] at off
    by_cases below : s.intAddrReg < cfg
    · have less : s.intAddrReg.toNat < cfg.toNat := below
      have bound := cfg.isLt
      have addr : (posedge true cfg s i).intAddrReg = s.intAddrReg + 1 := by
        simp [posedge, intAddrNext, intCompWire0, ready, enbl, top, below]
      have stays : (posedge true cfg s i).intEnblReg = true := by
        simp [posedge, intEnblNext, intCompWire0, ready, enbl, top, below]
      rw [addr, stays, toNat_add_one (by omega)]
      exact ⟨by simp [Turns, less], less⟩
    · have reached : ¬ s.intAddrReg.toNat < cfg.toNat := below
      have addr : (posedge true cfg s i).intAddrReg = s.intAddrReg := by
        simp [posedge, intAddrNext, intCompWire0, enbl, top, below]
      rw [addr]
      exact ⟨by simp [Turns, reached], le⟩
  | false =>
    by_cases zero : s.intAddrReg = 0
    · have addr : (posedge true cfg s i).intAddrReg = 0 := by
        simp [posedge, intAddrNext, intCompWire1, enbl, zero]
      rw [addr, zero]
      exact ⟨by simp [Turns], Nat.zero_le _⟩
    · have above : s.intCompWire1 = true := by simpa [intCompWire1] using zero
      have addr : (posedge true cfg s i).intAddrReg = s.intAddrReg - 1 := by
        simp [posedge, intAddrNext, ready, enbl, above]
      have stays : (posedge true cfg s i).intEnblReg = false := by
        simp [posedge, intEnblNext, enbl, above]
      have down := toNat_sub_one zero
      have le' : s.intAddrReg.toNat ≤ cfg.toNat := le
      have some : s.intAddrReg.toNat ≠ 0 := by omega
      rw [addr, stays]
      refine ⟨?_, by omega⟩
      simp only [Turns, Bool.false_eq_true, if_false, if_neg some]
      exact ⟨down, fun _ => trivial⟩

theorem run_ramps (run : (circuit cfg mem).Run past s) : Ramps cfg past s := by
  induction run with
  | reset reset =>
    obtain ⟨⟨s₀, i, rfl⟩, -⟩ := reset
    refine ⟨.inr ⟨rfl, rfl⟩, ?_, ?_, ?_⟩
    · simp [moves, posedge]
    · simp [moves, posedge]
    · exact List.isChain_singleton _
  | @tick past s _ i ramps =>
    obtain ⟨data, route⟩ := ramps
    show Ramps cfg _ (posedge true cfg s i)
    refine ⟨.inl (by simp [posedge]), ?_⟩
    rw [moves_snoc]
    cases ready : s.intReadyWire0 with
    | false =>
      obtain ⟨addr, enbl⟩ := posedge_stalled cfg (i := i) ready
      rw [beat_false, List.append_nil, addr, enbl]
      split
      · rename_i wakes
        rw [wakes.1, wakes.2.1] at route
        rw [wakes.1]
        exact route.wake
      · exact route
    | true =>
      have le : s.intAddrReg ≤ cfg := route.within _ (List.mem_append_right _ List.mem_cons_self)
      obtain ⟨turns, within⟩ := turns_posedge (i := i) ready le data
      exact route.snoc turns within

theorem Route.of_append (route : Route top (l ++ l')) : Route top l := by
  refine ⟨fun a first => ?_, fun a member => route.within a (List.mem_append_left _ member),
    route.turns.left_of_append⟩
  refine route.start a ?_
  rw [List.head?_append, Option.mem_def.mp first]
  rfl

/-- What has left the port and what the buffers hold is the envelope at the addresses read, in
order; they go from 0 up to `cfg_data` and down again by single steps, and turn nowhere else. -/
theorem run_shapes (run : (circuit cfg mem).Run past s) :
    past.flatMap mAccepted ++ s.held = (addresses past).map (fun a => mem (BitVec.ofNat w a)) ∧
    Envelope cfg.toNat (addresses past) := by
  refine ⟨?_, ?_⟩
  · rw [run_conserve run, addresses, List.map_map]
    exact List.map_congr_left fun a _ => by simp
  · have whole := (run_ramps run).route.of_append.envelope
    rw [moves, List.map_map] at whole
    exact whole

def fresh : AxisKeyer 4 Nat :=
  ⟨0, 0, false, ⟨(), false⟩, ⟨⟨0, true⟩, ⟨0, false⟩⟩, ⟨fun a => 10 * a.toNat, 0⟩⟩

theorem fresh_reset : (circuit 2 fun a : BitVec 4 => 10 * a.toNat).Reset fresh :=
  ⟨⟨fresh, ⟨false, false⟩, rfl⟩, rfl⟩

/-- The key is down for a clock, with stalls in the rise and in the fall. -/
def tapped : List KeyerPins :=
  [⟨true, true⟩, ⟨false, true⟩, ⟨false, false⟩, ⟨false, false⟩, ⟨true, true⟩, ⟨false, true⟩,
    ⟨false, true⟩, ⟨false, false⟩, ⟨false, true⟩, ⟨false, true⟩, ⟨false, true⟩, ⟨false, true⟩]

theorem run_shapes_tapped :
    Envelope 2 (addresses ((circuit 2 fun a : BitVec 4 => 10 * a.toNat).trace fresh tapped)) ∧
    ((circuit 2 fun a : BitVec 4 => 10 * a.toNat).trace fresh tapped).flatMap mAccepted =
      [0, 0, 10, 20, 20, 10, 0] := by
  refine ⟨(run_shapes (run_trace fresh_reset tapped)).2, by decide +kernel⟩

end AxisKeyer

end Switcheck
