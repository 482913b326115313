import Mathlib.Data.List.Range
import Switcheck.Modules.Buffers
import Switcheck.Modules.PacketCounter
import Switcheck.Modules.SyncRam

/-!
# `axis_bram_reader`

The counter addresses a block RAM one clock ahead of the data. The output register of the RAM and
the buffer with the last mark make up one buffer between them, which two further ones follow.
-/

namespace Switcheck

open Sync Circuit

/-- The core with the RAM at its port; `AXIS_TDATA_WIDTH` is `BRAM_DATA_WIDTH`. -/
structure BramReader (w : Nat) (β : Type) where
  counter : PacketCounter w
  buf0 : OutputBuffer Bool
  buf1 : InputBuffer (Bool × β)
  buf2 : OutputBuffer (Bool × β)
  ram : SyncRam w β

namespace BramReader

variable {w : Nat} {β : Type}

section Wires

variable (s : BramReader w β) (mAxisTready : Bool)

def intReadyWire2 : Bool := s.buf2.inReady mAxisTready

def intReadyWire1 : Bool := s.buf1.intReadyReg

def intReadyWire0 : Bool := s.buf0.inReady s.intReadyWire1

def intLastWire0 : Bool := s.counter.lastWire

def intValidWire1 : Bool := s.buf0.intValidReg

/-- `{int_last_wire[1], b_bram_rdata}`. -/
def buf1InData : Bool × β := (s.buf0.intDataReg, s.ram.dout)

def intValidWire2 : Bool := s.buf1.outValid s.intValidWire1

def mAxisTvalid : Bool := s.buf2.intValidReg

def mAxisTlast : Bool := s.buf2.intDataReg.1

def mAxisTdata : β := s.buf2.intDataReg.2

def stsData : BitVec w :=
  s.counter.cntrReg - (BitVec.ofBool s.intValidWire1).setWidth w -
    (BitVec.ofBool s.intValidWire2).setWidth w - (BitVec.ofBool s.mAxisTvalid).setWidth w

end Wires

/-- The port only reads; a RAM that reads takes no notice of the write mode. -/
def posedge (aresetn continuous : Bool) (cfgData : BitVec w) (s : BramReader w β)
    (mAxisTready : Bool) : BramReader w β where
  counter := s.counter.posedge aresetn continuous cfgData s.intReadyWire0
  buf0 := s.buf0.posedge aresetn s.intLastWire0 s.counter.enblReg s.intReadyWire1
  buf1 := s.buf1.posedge aresetn s.buf1InData s.intValidWire1 (s.intReadyWire2 mAxisTready)
  buf2 := s.buf2.posedge aresetn (s.buf1.outData s.buf1InData) s.intValidWire2 mAxisTready
  ram := s.ram.posedge .readFirst s.intReadyWire0 false s.counter.cntrReg s.ram.dout

def circuit (continuous : Bool) (cfgData : BitVec w) (mem : BitVec w → β) :
    Circuit (BramReader w β) Bool where
  Reset s := (∃ s₀ ready, s = posedge false continuous cfgData s₀ ready) ∧ s.ram.mem = mem
  tick := posedge true continuous cfgData

abbrev Tick (w : Nat) (β : Type) := Clock (BramReader w β) Bool

def mAccepted (c : Tick w β) : List (Bool × β) :=
  beat (c.regs.mAxisTvalid && c.pins) (c.regs.mAxisTlast, c.regs.mAxisTdata)

/-- Word `k` of the memory, read round and round; the last of each round is marked. -/
def word (cfg : BitVec w) (mem : BitVec w → β) (k : Nat) : Bool × β :=
  (decide (k % (cfg.toNat + 1) = cfg.toNat), mem (BitVec.ofNat w (k % (cfg.toNat + 1))))

variable {continuous : Bool} {cfg : BitVec w} {mem : BitVec w → β} {past : List (Tick w β)}
  {s : BramReader w β}

/-! ### The pipeline -/

/-- `buf_0` with the output register of the RAM. -/
def stage (s : BramReader w β) : OutputBuffer (Bool × β) := ⟨s.buf1InData, s.intValidWire1⟩

/-- `buf_1` and `buf_2`. -/
def tail (s : BramReader w β) : InoutBuffer (Bool × β) := ⟨s.buf1, s.buf2⟩

def held (s : BramReader w β) : List (Bool × β) := s.tail.held ++ s.stage.held

def asked (c : Tick w β) : List (Bool × β) :=
  c.regs.stage.put (c.regs.intLastWire0, c.regs.ram.mem c.regs.counter.cntrReg)
    c.regs.counter.enblReg c.regs.intReadyWire1

theorem stage_posedge (s : BramReader w β) (ready : Bool) :
    (posedge true continuous cfg s ready).stage =
      s.stage.posedge true (s.intLastWire0, s.ram.mem s.counter.cntrReg) s.counter.enblReg
        s.intReadyWire1 :=
  SyncRam.stage_posedge Prod.mk .readFirst s.ram s.buf0 s.intLastWire0 s.counter.enblReg
    s.intReadyWire1 s.counter.cntrReg s.ram.dout

theorem tail_posedge (s : BramReader w β) (ready : Bool) :
    (posedge true continuous cfg s ready).tail =
      s.tail.posedge true s.buf1InData s.intValidWire1 ready := rfl

/-- A word leaves the port, moves up or is read: none is lost and none comes twice. -/
theorem conserve (s : BramReader w β) (ready : Bool) :
    mAccepted ⟨s, ready⟩ ++ (posedge true continuous cfg s ready).held =
      s.held ++ asked ⟨s, ready⟩ := by
  have law := s.tail.taken_append_held_stage s.stage
    (s.intLastWire0, s.ram.mem s.counter.cntrReg) s.counter.enblReg ready
  rw [held, stage_posedge, tail_posedge]
  exact law

theorem run_conserve (run : (circuit continuous cfg mem).Run past s) :
    past.flatMap mAccepted ++ s.held = past.flatMap asked := by
  refine run.conserve held ?_ ?_
  · rintro s ⟨⟨s₀, ready, rfl⟩, -⟩
    rfl
  · intro s ready
    exact conserve s ready

theorem run_mem (run : (circuit continuous cfg mem).Run past s) : s.ram.mem = mem := by
  induction run with
  | reset reset => exact reset.2
  | @tick past s run ready ih =>
    have reads := SyncRam.posedge_read .readFirst s.ram s.intReadyWire0 s.counter.cntrReg s.ram.dout
    exact (congrArg SyncRam.mem reads).trans ih

/-! ### The words that are asked for -/

def counterClock (c : Tick w β) : PacketCounter.Tick w := ⟨c.regs.counter, c.regs.intReadyWire0⟩

theorem run_counter (run : (circuit continuous cfg mem).Run past s) :
    (PacketCounter.circuit continuous cfg).Run (past.map counterClock) s.counter := by
  refine run.map BramReader.counter (fun s _ => s.intReadyWire0) ?_ ?_
  · rintro s ⟨⟨s₀, ready, rfl⟩, -⟩
    exact ⟨s₀.counter, s₀.intReadyWire0, rfl⟩
  · intro s ready
    rfl

theorem asked_eq (c : Tick w β) :
    asked c = beat (PacketCounter.moves (counterClock c))
      (c.regs.intLastWire0, c.regs.ram.mem c.regs.counter.cntrReg) := by
  unfold asked OutputBuffer.put PacketCounter.moves counterClock
  rw [Bool.and_comm]
  rfl

theorem run_asked (nonzero : 1 ≤ cfg.toNat) (run : (circuit continuous cfg mem).Run past s) :
    past.flatMap asked =
      (List.range (PacketCounter.moved (past.map counterClock))).map (word cfg mem) := by
  induction run with
  | reset => rfl
  | @tick past s run ready ih =>
    rw [flatMap_snoc, ih, List.map_append, List.map_singleton, PacketCounter.moved_snoc, asked_eq]
    cases moves : PacketCounter.moves (counterClock ⟨s, ready⟩) with
    | false => simp
    | true =>
      have enabled : s.counter.enblReg = true := ((Bool.and_eq_true _ _).mp moves).2
      have phase := PacketCounter.run_phase nonzero (run_counter run)
      obtain ⟨count, -⟩ := phase.cntr_of_enbl enabled
      have addr : s.counter.cntrReg = BitVec.ofNat w
          (PacketCounter.moved (past.map counterClock) % (cfg.toNat + 1)) := by
        rw [← count, BitVec.ofNat_toNat, BitVec.setWidth_eq]
      rw [beat_true, Bool.toNat_true, List.range_succ, List.map_append, List.map_singleton, word,
        ← phase.last_of_enbl enabled, ← addr, run_mem run]
      rfl

/-! ### The pace -/

theorem moved_eq (nonzero : 1 ≤ cfg.toNat) (run : (circuit continuous cfg mem).Run past s) :
    PacketCounter.moved (past.map counterClock) =
      (past.flatMap mAccepted).length + s.held.length := by
  have lengths := congrArg List.length (run_conserve run)
  rw [run_asked nonzero run, List.length_append, List.length_map, List.length_range] at lengths
  exact lengths.symm

theorem enbl_iff (nonzero : 1 ≤ cfg.toNat) (run : (circuit continuous cfg mem).Run past s) :
    s.counter.enblReg = true ↔ 2 ≤ past.length ∧
      (continuous = true ∨ (past.flatMap mAccepted).length + s.held.length ≤ cfg.toNat) := by
  rw [(PacketCounter.run_phase nonzero (run_counter run)).enbl_iff, List.length_map,
    moved_eq nonzero run]

/-- The stages fill one after the other in the first clocks; from then on one is empty only when
there is no word left to ask for. -/
structure Filled (past : List (Tick w β)) (s : BramReader w β) : Prop where
  early : past.length ≤ 2 → s.held = []
  closed : past.length ≤ 3 → s.mAxisTvalid = false
  stage : 3 ≤ past.length → s.intValidWire1 = true ∨ s.counter.enblReg = false
  port : 4 ≤ past.length → s.mAxisTvalid = true ∨ s.held = [] ∧ s.counter.enblReg = false

theorem held_eq_nil : s.held = [] ↔ s.mAxisTvalid = false ∧ s.intValidWire2 = false ∧
    s.intValidWire1 = false := by
  rw [held, tail, InoutBuffer.held, OutputBuffer.held, InputBuffer.held, stage, OutputBuffer.held,
    List.append_eq_nil_iff, List.append_eq_nil_iff, beat_eq_nil, beat_eq_nil, beat_eq_nil]
  unfold mAxisTvalid intValidWire2 InputBuffer.outValid
  cases s.buf2.intValidReg <;> cases s.buf1.intReadyReg <;> cases s.intValidWire1 <;> simp

/-- A counter that is disabled after it has run stays so. -/
theorem enbl_stays (nonzero : 1 ≤ cfg.toNat) (run : (circuit continuous cfg mem).Run past s)
    (long : 2 ≤ past.length) (off : s.counter.enblReg = false) (ready : Bool) :
    (posedge true continuous cfg s ready).counter.enblReg = false := by
  have phase := PacketCounter.run_phase nonzero (run_counter run)
  have phase' := PacketCounter.run_phase nonzero (run_counter (run.tick ready))
  rw [Bool.eq_false_iff]
  intro on
  obtain ⟨-, more⟩ := phase'.enbl_iff.mp on
  rw [List.map_append, List.map_singleton, PacketCounter.moved_snoc] at more
  have still : s.counter.enblReg = true :=
    phase.enbl_iff.mpr ⟨by rwa [List.length_map], more.imp_right (Nat.le_of_add_right_le ·)⟩
  exact absurd (still.symm.trans off) (by decide)

theorem filled_step (nonzero : 1 ≤ cfg.toNat) (run : (circuit continuous cfg mem).Run past s)
    (filled : Filled past s) (ready : Bool) :
    Filled (past ++ [⟨s, ready⟩]) (posedge true continuous cfg s ready) := by
  have length : (past ++ [(⟨s, ready⟩ : Tick w β)]).length = past.length + 1 := by simp
  have full (valid : s.intValidWire1 = true) : s.intValidWire2 = true := by
    simp [intValidWire2, InputBuffer.outValid, valid]
  refine ⟨fun short => ?_, fun short => ?_, fun long => ?_, fun long => ?_⟩
  · have off : s.counter.enblReg = false := by
      rw [Bool.eq_false_iff]
      intro on
      have long := ((enbl_iff nonzero run).mp on).1
      omega
    have law : mAccepted ⟨s, ready⟩ ++ (posedge true continuous cfg s ready).held = _ :=
      conserve s ready
    have none : asked ⟨s, ready⟩ = [] := by simp [asked, OutputBuffer.put, off]
    rw [filled.early (by omega), none] at law
    exact (List.append_eq_nil_iff.mp law).2
  · obtain ⟨port, empty, -⟩ := held_eq_nil.mp (filled.early (by omega))
    have free : s.buf2.inReady ready = true := by
      rw [OutputBuffer.inReady, show s.buf2.intValidReg = false from port]
      rfl
    show (s.buf2.posedge true _ s.intValidWire2 ready).intValidReg = false
    rw [OutputBuffer.posedge_ready free, empty]
  · cases on : s.counter.enblReg with
    | false => exact .inr (enbl_stays nonzero run (by omega) on ready)
    | true =>
      refine .inl ?_
      show (s.buf0.posedge true s.intLastWire0 s.counter.enblReg s.intReadyWire1).intValidReg = true
      cases free : s.buf0.inReady s.intReadyWire1 with
      | true => rw [OutputBuffer.posedge_ready free, on]
      | false =>
        rw [OutputBuffer.posedge_stalled free]
        exact (OutputBuffer.inReady_eq_false.mp free).1
  · cases port : (posedge true continuous cfg s ready).mAxisTvalid with
    | true => exact .inl rfl
    | false =>
      have next : (s.buf2.posedge true (s.buf1.outData s.buf1InData) s.intValidWire2
          ready).intValidReg = false := port
      have empty : s.intValidWire2 = false := by
        cases free : s.buf2.inReady ready with
        | true => rwa [OutputBuffer.posedge_ready free] at next
        | false =>
          rw [OutputBuffer.posedge_stalled free, (OutputBuffer.inReady_eq_false.mp free).1] at next
          cases next
      have none : s.intValidWire1 = false := Bool.eq_false_iff.mpr fun valid =>
        absurd ((full valid).symm.trans empty) (by decide)
      have off : s.counter.enblReg = false :=
        (filled.stage (by omega)).resolve_left (by simp [none])
      refine .inr ⟨held_eq_nil.mpr ⟨port, ?_, ?_⟩, enbl_stays nonzero run (by omega) off ready⟩
      all_goals
        have kept : s.buf1.intReadyReg = true := by
          simpa [intValidWire2, InputBuffer.outValid, none] using empty
        have out : s.buf0.intValidReg = false := none
        simp [intValidWire2, intValidWire1, posedge, InputBuffer.outValid, InputBuffer.posedge,
          OutputBuffer.posedge, OutputBuffer.inReady, kept, out, off]

theorem run_filled (nonzero : 1 ≤ cfg.toNat) (run : (circuit continuous cfg mem).Run past s) :
    Filled past s := by
  induction run with
  | reset reset =>
    obtain ⟨⟨s₀, ready, rfl⟩, -⟩ := reset
    exact ⟨fun _ => rfl, fun _ => rfl, nofun, nofun⟩
  | @tick past s run ready ih => exact filled_step nonzero run ih ready

theorem valid_iff (nonzero : 1 ≤ cfg.toNat) (run : (circuit continuous cfg mem).Run past s) :
    s.mAxisTvalid = true ↔ 4 ≤ past.length ∧
      (continuous = true ∨ (past.flatMap mAccepted).length ≤ cfg.toNat) := by
  have filled := run_filled nonzero run
  constructor
  · intro valid
    have long : ¬ past.length ≤ 3 := fun short =>
      absurd (valid.symm.trans (filled.closed short)) (by decide)
    refine ⟨by omega, ?_⟩
    cases continuous with
    | true => exact .inl rfl
    | false =>
      have some : s.held ≠ [] := fun none =>
        absurd (valid.symm.trans (held_eq_nil.mp none).1) (by decide)
      have positive := List.length_pos_iff.mpr some
      have most := (PacketCounter.run_phase nonzero (run_counter run)).moved_le
      rw [moved_eq nonzero run] at most
      exact .inr (by omega)
  · rintro ⟨long, more⟩
    refine (filled.port long).resolve_right fun ⟨empty, off⟩ => ?_
    have on : s.counter.enblReg = true := by
      refine (enbl_iff nonzero run).mpr ⟨by omega, ?_⟩
      rwa [empty, List.length_nil, Nat.add_zero]
    exact absurd (on.symm.trans off) (by decide)

/-- What leaves the port is the memory in order, the last word of a round marked; one round if the
core is not continuous. From the fifth clock on there is a word in every clock, round after round,
until a core that is not continuous has sent its round. A word that is stalled stays. -/
theorem run_inOrder (nonzero : 1 ≤ cfg.toNat) (run : (circuit continuous cfg mem).Run past s) :
    past.flatMap mAccepted =
      (List.range (past.flatMap mAccepted).length).map (word cfg mem) ∧
    (continuous = false → (past.flatMap mAccepted).length ≤ cfg.toNat + 1) ∧
    (s.mAxisTvalid = true ↔ 4 ≤ past.length ∧
      (continuous = true ∨ (past.flatMap mAccepted).length ≤ cfg.toNat)) ∧
    (s.mAxisTvalid = true →
      (posedge true continuous cfg s false).mAxisTvalid = true ∧
      (posedge true continuous cfg s false).mAxisTlast = s.mAxisTlast ∧
      (posedge true continuous cfg s false).mAxisTdata = s.mAxisTdata) := by
  have count := moved_eq nonzero run
  refine ⟨?_, fun stops => ?_, valid_iff nonzero run, ?_⟩
  · have whole := run_conserve run
    rw [run_asked nonzero run, count] at whole
    have first := congrArg (List.take (past.flatMap mAccepted).length) whole
    rw [List.take_left, ← List.map_take, List.take_range,
      Nat.min_eq_left (Nat.le_add_right _ _)] at first
    exact first
  · subst stops
    have most := (PacketCounter.run_phase nonzero (run_counter run)).moved_le
    omega
  · intro valid
    obtain ⟨still, same⟩ := InoutBuffer.posedge_stalled (b := s.tail) s.buf1InData s.intValidWire1
      valid
    exact ⟨still, congrArg Prod.fst same, congrArg Prod.snd same⟩

def fresh : BramReader 4 Nat :=
  ⟨⟨0, 0, false⟩, ⟨true, false⟩, ⟨(true, 0), true⟩, ⟨(true, 0), false⟩, ⟨BitVec.toNat, 0⟩⟩

theorem fresh_reset : (circuit continuous 1 BitVec.toNat).Reset fresh := ⟨⟨fresh, false, rfl⟩, rfl⟩

/-- Two clocks of stall, and six words taken if there are so many. -/
def stalls : List Bool := List.replicate 4 true ++ [false, false] ++ List.replicate 6 true

/-- One round of two words, and three rounds where the core is continuous. -/
theorem run_inOrder_stalls :
    ((circuit false 1 BitVec.toNat).trace fresh stalls).flatMap mAccepted =
      [(false, 0), (true, 1)] ∧
    ((circuit false 1 BitVec.toNat).after fresh stalls).mAxisTvalid = false ∧
    ((circuit true 1 BitVec.toNat).trace fresh stalls).flatMap mAccepted =
      [(false, 0), (true, 1), (false, 0), (true, 1), (false, 0), (true, 1)] ∧
    ((circuit true 1 BitVec.toNat).after fresh stalls).mAxisTvalid = true := by
  obtain ⟨once, -, stops, -⟩ := @run_inOrder 4 Nat false 1 BitVec.toNat _ _ (by decide)
    (run_trace fresh_reset stalls)
  obtain ⟨round, -, goes, -⟩ := @run_inOrder 4 Nat true 1 BitVec.toNat _ _ (by decide)
    (run_trace fresh_reset stalls)
  refine ⟨?_, ?_, ?_, goes.mpr ⟨by decide, .inl rfl⟩⟩
  · rw [once]
    decide
  · exact Bool.eq_false_iff.mpr fun valid => absurd (stops.mp valid) (by decide)
  · rw [round]
    decide

end BramReader

end Switcheck
