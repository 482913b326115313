import Switcheck.Modules.Buffers
import Switcheck.Modules.PacketCounter

/-!
# `axis_packetizer`

A stream passes through while the counter is enabled, and its last word of every packet is marked.
-/

namespace Switcheck

open Sync Circuit

/-- The core has the registers of the counter and no others. -/
structure AxisPacketizer (w : Nat) where
  counter : PacketCounter w
  deriving DecidableEq

structure PacketizerPins (β : Type) where
  sAxisTdata : β
  sAxisTvalid : Bool
  mAxisTready : Bool

namespace AxisPacketizer

variable {w : Nat} {β : Type}

def intTvalidWire (s : AxisPacketizer w) (i : PacketizerPins β) : Bool :=
  s.counter.enblReg && i.sAxisTvalid

def intTlastWire (s : AxisPacketizer w) : Bool := s.counter.lastWire

def sAxisTready (alwaysReady : Bool) (s : AxisPacketizer w) (i : PacketizerPins β) : Bool :=
  if alwaysReady then true else s.counter.enblReg && i.mAxisTready

def mAxisTlast (s : AxisPacketizer w) : Bool := s.counter.enblReg && s.intTlastWire

def posedge (aresetn continuous : Bool) (cfgData : BitVec w) (s : AxisPacketizer w)
    (i : PacketizerPins β) : AxisPacketizer w where
  counter := s.counter.posedge aresetn continuous cfgData (i.mAxisTready && i.sAxisTvalid)

/-- The core with a constant setting; the readiness of its input does not reach the registers. -/
def circuit (continuous : Bool) (cfgData : BitVec w) :
    Circuit (AxisPacketizer w) (PacketizerPins β) where
  Reset s := ∃ s₀ i, s = posedge (β := β) false continuous cfgData s₀ i
  tick := posedge true continuous cfgData

abbrev Tick (w : Nat) (β : Type) := Clock (AxisPacketizer w) (PacketizerPins β)

/-- The words that pass the input port of the core without `ALWAYS_READY`. -/
def sAccepted (c : Tick w β) : List β :=
  beat (c.pins.sAxisTvalid && c.regs.sAxisTready false c.pins) c.pins.sAxisTdata

def mAccepted (c : Tick w β) : List (β × Bool) :=
  beat (c.regs.intTvalidWire c.pins && c.pins.mAxisTready) (c.pins.sAxisTdata, c.regs.mAxisTlast)

variable {continuous : Bool} {cfg : BitVec w} {past : List (Tick w β)} {s : AxisPacketizer w}

def counterClock (c : Tick w β) : PacketCounter.Tick w :=
  ⟨c.regs.counter, c.pins.mAxisTready && c.pins.sAxisTvalid⟩

theorem run_counter (run : (circuit continuous cfg).Run past s) :
    (PacketCounter.circuit continuous cfg).Run (past.map counterClock) s.counter := by
  refine run.map (AxisPacketizer.counter) (fun _ i => i.mAxisTready && i.sAxisTvalid) ?_ ?_
  · rintro s ⟨s₀, i, rfl⟩
    exact ⟨s₀.counter, i.mAxisTready && i.sAxisTvalid, rfl⟩
  · intro s i
    rfl

theorem sAccepted_eq (c : Tick w β) :
    sAccepted c = beat (PacketCounter.moves (counterClock c)) c.pins.sAxisTdata := by
  unfold sAccepted sAxisTready PacketCounter.moves counterClock
  cases c.pins.sAxisTvalid <;> cases c.pins.mAxisTready <;> cases c.regs.counter.enblReg <;> rfl

theorem mAccepted_eq (c : Tick w β) :
    mAccepted c = (sAccepted c).map fun word => (word, c.regs.counter.lastWire) := by
  unfold mAccepted sAccepted sAxisTready intTvalidWire mAxisTlast intTlastWire
  cases c.pins.sAxisTvalid <;> cases c.pins.mAxisTready <;> cases c.regs.counter.enblReg <;> rfl

theorem accepted_length (past : List (Tick w β)) :
    (past.flatMap sAccepted).length = PacketCounter.moved (past.map counterClock) := by
  induction past using List.reverseRecOn with
  | nil => rfl
  | append_singleton past c ih =>
    rw [flatMap_snoc, List.length_append, ih, List.map_append, List.map_singleton,
      PacketCounter.moved_snoc, sAccepted_eq, beat_length]

def endsPacket (cfg : BitVec w) (k : Nat) : Bool := decide ((cfg.toNat + 1) ∣ k + 1)

theorem lastWire_eq (nonzero : 1 ≤ cfg.toNat) (run : (circuit continuous cfg).Run past s)
    (enabled : s.counter.enblReg = true) :
    s.counter.lastWire = endsPacket cfg (past.flatMap sAccepted).length := by
  have phase := PacketCounter.run_phase nonzero (run_counter run)
  rw [phase.last_of_enbl enabled, ← accepted_length, endsPacket, decide_eq_decide]
  exact (succ_dvd_succ_iff _ _).symm

theorem run_marked (nonzero : 1 ≤ cfg.toNat) (run : (circuit continuous cfg).Run past s) :
    past.flatMap mAccepted =
      (past.flatMap sAccepted).mapIdx fun k word => (word, endsPacket cfg k) := by
  induction run with
  | reset => rfl
  | @tick past s run i ih =>
    rw [flatMap_snoc, flatMap_snoc, List.mapIdx_append, ih, mAccepted_eq]
    congr 1
    cases passes : i.sAxisTvalid && s.sAxisTready false i with
    | false => simp [sAccepted, passes]
    | true =>
      have enabled : s.counter.enblReg = true := by
        simp only [sAxisTready, Bool.false_eq_true, if_false, Bool.and_eq_true] at passes
        exact passes.2.1
      simp [sAccepted, passes, lastWire_eq nonzero run enabled]

/-- The packet that is open, if one is: the one of a core that stops, or the next. -/
def Open (continuous : Bool) (cfg : BitVec w) (before : List (Tick w β)) : Prop :=
  2 ≤ before.length ∧ (continuous = true ∨ (before.flatMap mAccepted).length ≤ cfg.toNat)

theorem enbl_iff (nonzero : 1 ≤ cfg.toNat) (run : (circuit continuous cfg).Run past s) :
    s.counter.enblReg = true ↔ Open continuous cfg past := by
  have phase := PacketCounter.run_phase nonzero (run_counter run)
  rw [phase.enbl_iff, List.length_map, ← accepted_length, Open, run_marked nonzero run,
    List.length_mapIdx]

/-- The accepted words in order, `tlast` on those that complete a packet. From the third clock on
a word is offered when there is one and taken when the other side is ready, until the one packet
of a core that stops is through. -/
theorem run_framed (nonzero : 1 ≤ cfg.toNat) (run : (circuit continuous cfg).Run past s) :
    (past.flatMap mAccepted =
      (past.flatMap sAccepted).mapIdx fun k word => (word, endsPacket cfg k)) ∧
    (continuous = false → (past.flatMap mAccepted).length ≤ cfg.toNat + 1) ∧
    ∀ i : PacketizerPins β,
      (s.intTvalidWire i = true ↔ Open continuous cfg past ∧ i.sAxisTvalid = true) ∧
      (s.sAxisTready false i = true ↔ Open continuous cfg past ∧ i.mAxisTready = true) := by
  refine ⟨run_marked nonzero run, fun stops => ?_, fun i => ?_⟩
  · subst stops
    rw [run_marked nonzero run, List.length_mapIdx, accepted_length]
    exact (PacketCounter.run_phase nonzero (run_counter run)).moved_le
  · rw [← enbl_iff nonzero run]
    simp [intTvalidWire, sAxisTready]

def fresh : AxisPacketizer 4 := ⟨⟨0, 0, false⟩⟩

theorem fresh_reset : (circuit (β := Nat) false 1).Reset fresh :=
  ⟨fresh, ⟨0, false, false⟩, rfl⟩

/-- Six words offered to a core that stops after two, stalled on the second. -/
def offers : List (PacketizerPins Nat) :=
  [⟨7, true, true⟩, ⟨7, true, true⟩, ⟨7, true, true⟩, ⟨8, true, false⟩, ⟨8, true, true⟩,
    ⟨9, true, true⟩]

theorem run_framed_offers :
    ((circuit false 1).trace fresh offers).flatMap mAccepted = [(7, false), (8, true)] := by
  rw [(run_framed (by decide) (run_trace fresh_reset offers)).1]
  decide

end AxisPacketizer

end Switcheck
