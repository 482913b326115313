import Switcheck.Server.DoubleBuffer
import Switcheck.Writer.AxisMemoryImage

/-!
# Hand-over from the writer to `adc-test-server`

The server polls the counter of addresses while the data of the last bursts counted may still
be in the writer. The low half is sent when the counter is past its end, the high half already
when it stands there.
-/

namespace Switcheck

open Sync Circuit

/-- `writer_0` of the design: bursts of 128 bytes and a ring of 65536. -/
abbrev ringWriter {W α R : Type} (depth : Nat) (packing : Packing W α R) :
    AxisWriterParams W α R where
  addrWidth := 16
  axiAddrWidth := 32
  axiDataWidth := 64
  fifoWriteDepth := depth
  packing := packing

structure HandOver {W α R : Type} (depth : Nat) (packing : Packing W α R) where
  writer : AxisRamWriter (ringWriter depth packing)
  limit : Nat

structure HandOverPins {W α R : Type} (depth : Nat) (packing : Packing W α R) where
  writer : AxisWriterPins (ringWriter depth packing)
  polls : Bool

namespace HandOver

variable {W α R : Type} {depth : Nat} {packing : Packing W α R}

/-- `*rx_cntr`. -/
def position (s : HandOver depth packing) : Nat := s.writer.stsData.toNat

/-- A clock of the writer, in which the loop may make one turn. -/
def tick (s : HandOver depth packing) (i : HandOverPins depth packing) : HandOver depth packing where
  writer := s.writer.posedge true i.writer
  limit := if i.polls then (DoubleBuffer.adcTest.poll s.limit s.position).2 else s.limit

def circuit (depth : Nat) (packing : Packing W α R) :
    Circuit (HandOver depth packing) (HandOverPins depth packing) where
  Reset s := (AxisRamWriter.circuit (ringWriter depth packing)).Reset s.writer ∧
    s.limit = DoubleBuffer.adcTest.half
  tick := tick

abbrev Tick (depth : Nat) (packing : Packing W α R) :=
  Clock (HandOver depth packing) (HandOverPins depth packing)

def writerTick (c : Tick depth packing) : AxisRamWriter.Tick (ringWriter depth packing) :=
  ⟨c.regs.writer, c.pins.writer⟩

/-- The offset of the block the loop decides to send in this clock. -/
def sent (c : Tick depth packing) : Option Nat :=
  if c.pins.polls then (DoubleBuffer.adcTest.poll c.regs.limit c.regs.position).1 else none

def announced (past : List (Tick depth packing)) : List (BitVec 32) :=
  (past.map writerTick).flatMap AxisRamWriter.issued

def acceptedBeats (past : List (Tick depth packing)) : List (Bool × R) :=
  (past.map writerTick).flatMap AxisRamWriter.wBeat

/-- Every burst of the current lap announced in the half sent has its beats accepted. -/
def HalfComplete (minAddr : BitVec 32) (before : List (Tick depth packing))
    (c : Tick depth packing) : Prop :=
  ∀ offset, sent c = some offset → ∀ n addr, (announced before)[n]? = some addr →
    (announced before).length ≤ n + 65536 → offset ≤ (addr - minAddr).toNat →
    (addr - minAddr).toNat < offset + DoubleBuffer.adcTest.block →
    16 * (n + 1) ≤ (acceptedBeats before).length

/-- Data of the half that ends at `limit` have not left the writer: the counter stands at the
end of the half, or one burst on with nothing of that burst in the data buffer yet. -/
def Trailing (s : HandOver depth packing) : Prop :=
  (s.position = s.limit ∧ (s.writer.intWvalidReg = true ∨ s.writer.buf1.intValidReg = true)) ∨
    (s.position = s.limit + 1 ∧ s.writer.intWvalidReg = true ∧ s.writer.intCntrReg = 0 ∧
      s.writer.buf1.intValidReg = true)

/-- No half is sent with its data trailing. -/
def Settled (_ : List (Tick depth packing)) (c : Tick depth packing) : Prop :=
  (sent c).isSome = true → ¬ Trailing c.regs

variable {past : List (Tick depth packing)} {s : HandOver depth packing}
variable {i : HandOverPins depth packing}

theorem run_writer (run : (circuit depth packing).Run past s) :
    (AxisRamWriter.circuit (ringWriter depth packing)).Run (past.map writerTick) s.writer := by
  refine run.map (D := AxisRamWriter.circuit (ringWriter depth packing)) HandOver.writer
    (fun _ i => i.writer) ?_ fun _ _ => rfl
  intro s reset
  exact reset.1

theorem announced_snoc (past : List (Tick depth packing)) (c : Tick depth packing) :
    (announced (past ++ [c])).length =
      (announced past).length + (c.regs.writer.awFires c.pins.writer).toNat := by
  rw [announced, List.map_append]
  exact AxisRamWriter.issued_length _ _

theorem run_position {minAddr : BitVec 32} (run : (circuit depth packing).Run past s)
    (configured : Held (AxisRamWriter.Configured minAddr 65535) (past.map writerTick)) :
    s.position = (announced past).length % 65536 := by
  have constant : Held (fun _ c => c.pins.cfgData = 65535) (past.map writerTick) :=
    configured.mono fun _ _ now => now.2
  exact AxisRamWriter.run_turn (run_writer run) constant

/-- The high half is next only after the counter has passed the low one. -/
def LimitInv (past : List (Tick depth packing)) (s : HandOver depth packing) : Prop :=
  s.limit = 32768 ∨ (s.limit = 0 ∧ 32768 < (announced past).length)

theorem run_limitInv {minAddr : BitVec 32} (run : (circuit depth packing).Run past s)
    (configured : Held (AxisRamWriter.Configured minAddr 65535) (past.map writerTick)) :
    LimitInv past s := by
  induction run with
  | reset reset => exact .inl reset.2
  | @tick past s run i ih =>
    rw [held_map_snoc] at configured
    have position := run_position run configured.1
    have grown := announced_snoc past ⟨s, i⟩
    have kept : LimitInv (past ++ [⟨s, i⟩]) ⟨s.writer, s.limit⟩ := by
      refine (ih configured.1).imp_right fun high => ⟨high.1, ?_⟩
      omega
    show LimitInv _ (tick s i)
    cases polls : i.polls with
    | false => simpa [LimitInv, tick, polls] using kept
    | true =>
      have next : (tick s i).limit = (DoubleBuffer.adcTest.poll s.limit s.position).2 := by
        simp [tick, polls]
      rw [LimitInv, next]
      rcases DoubleBuffer.adcTest.poll_limit s.limit s.position with
        same | ⟨low, passed, zero⟩ | ⟨-, -, half⟩
      · rw [same]
        exact kept
      · refine .inr ⟨zero, ?_⟩
        rcases ih configured.1 with half | ⟨none, -⟩
        · have below := Nat.mod_le (announced past).length 65536
          omega
        · omega
      · exact .inl half

theorem run_lag (run : (circuit depth packing).Run past s)
    (first : Held AxisRamWriter.AwFirst (past.map writerTick)) :
    (acceptedBeats past).length + s.writer.buf1.held.length + 16 * s.writer.intWvalidReg.toNat =
      16 * (announced past).length + s.writer.intCntrReg.toNat ∧
    (s.writer.intWvalidReg = false → s.writer.intCntrReg.toNat = 0) := by
  have writer := run_writer run
  have inv := AxisRamWriter.run_burstInv writer
  have issued := AxisRamWriter.run_issued_begun writer first
  have sent := congrArg List.length (AxisRamWriter.run_wBeat writer)
  have begun := inv.begun
  have length := inv.uniform.length
  have counts := inv.counts
  rw [List.length_append] at sent
  refine ⟨?_, fun idle => counts.trans (inv.idle idle)⟩
  unfold AxisRamWriter.inBurst at counts
  unfold acceptedBeats announced
  omega

/-- What trails, counted in beats: those of the bursts before the end of the half. -/
theorem trailing_iff (run : (circuit depth packing).Run past s)
    (first : Held AxisRamWriter.AwFirst (past.map writerTick)) (ended : s.limit ≤ s.position)
    (within : s.position - s.limit ≤ (announced past).length) :
    Trailing s ↔
      (acceptedBeats past).length < 16 * ((announced past).length - (s.position - s.limit)) := by
  obtain ⟨lag, idle⟩ := run_lag run first
  have short := s.writer.intCntrReg.isLt
  have zero : s.writer.intCntrReg = 0 ↔ s.writer.intCntrReg.toNat = 0 := by
    rw [← BitVec.toNat_inj]
    rfl
  unfold Trailing
  rw [zero]
  rw [OutputBuffer.held, beat_length] at lag
  cases active : s.writer.intWvalidReg <;> cases held : s.writer.buf1.intValidReg <;>
    simp [active, held] at lag idle ⊢ <;> omega

theorem run_placed {minAddr : BitVec 32} (run : (circuit depth packing).Run past s)
    (configured : Held (AxisRamWriter.Configured minAddr 65535) (past.map writerTick)) {n : Nat}
    {addr : BitVec 32} (found : (announced past)[n]? = some addr) :
    (addr - minAddr).toNat = 128 * (n % 65536) := by
  have legal : (ringWriter depth packing).Legal := ⟨3, rfl⟩
  have bytes : 64 / 8 = 2 ^ (ringWriter depth packing).addrSize := legal.bytes
  have placed := AxisRamWriter.run_placed (run_writer run) configured n addr found
  have turn : (65535 : BitVec 16).toNat + 1 = 65536 := rfl
  rw [AxisRamWriter.ringAddr, ← bytes, turn] at placed
  rw [placed, BitVec.add_comm, BitVec.add_sub_cancel, BitVec.toNat_ofNat]
  omega

/-- A half is sent when the counter has left it: its bursts are those announced up to there,
and the last of them is the last of its lap. -/
theorem sent_half {c : Tick depth packing} {offset : Nat} (inv : LimitInv past c.regs)
    (position : c.regs.position = (announced past).length % 65536)
    (sent : sent c = some offset) :
    c.regs.limit ≤ c.regs.position ∧
    (∀ n, n < (announced past).length → offset ≤ 128 * (n % 65536) →
      128 * (n % 65536) < offset + DoubleBuffer.adcTest.block →
      n + (c.regs.position - c.regs.limit) < (announced past).length) ∧
    ∃ n, n + 1 + (c.regs.position - c.regs.limit) = (announced past).length ∧
      (announced past).length ≤ n + 65536 ∧ offset ≤ 128 * (n % 65536) ∧
      128 * (n % 65536) < offset + DoubleBuffer.adcTest.block := by
  have polled : (DoubleBuffer.adcTest.poll c.regs.limit c.regs.position).1 = some offset := by
    unfold HandOver.sent at sent
    split at sent
    · exact sent
    · cases sent
  have block : DoubleBuffer.adcTest.block = 4194304 := rfl
  have half : DoubleBuffer.adcTest.half = 32768 := rfl
  rw [block]
  rcases DoubleBuffer.poll_sent polled with ⟨low, passed, rfl⟩ | ⟨zero, wrapped, rfl⟩
  · obtain limit | ⟨zero, -⟩ := inv
    · refine ⟨Nat.le_of_lt passed, fun n early _ inside => ?_,
        (announced past).length - (c.regs.position - c.regs.limit) - 1, ?_⟩
      · omega
      · omega
    · omega
  · obtain limit | ⟨-, later⟩ := inv
    · omega
    · rw [block]
      refine ⟨by omega, fun n early inside _ => ?_,
        (announced past).length - (c.regs.position - c.regs.limit) - 1, ?_⟩
      · omega
      · omega

theorem halfComplete_iff {minAddr : BitVec 32} (run : (circuit depth packing).Run past s)
    (configured : Held (AxisRamWriter.Configured minAddr 65535) (past.map writerTick))
    (first : Held AxisRamWriter.AwFirst (past.map writerTick)) :
    HalfComplete minAddr past ⟨s, i⟩ ↔ Settled past ⟨s, i⟩ := by
  unfold HalfComplete Settled
  rw [Option.isSome_iff_exists, forall_exists_index]
  refine forall_congr' fun offset => forall_congr' fun sent => ?_
  obtain ⟨ended, inside, n, last, lap, above, below⟩ :=
    sent_half (run_limitInv run configured) (run_position run configured) sent
  dsimp only at ended inside last
  rw [trailing_iff run first ended (by omega), Nat.not_lt]
  constructor
  · intro complete
    have announcedLast := List.getElem?_eq_getElem (show n < (announced past).length by omega)
    have placed := run_placed run configured announcedLast
    have beats := complete n _ announcedLast lap (placed ▸ above) (placed ▸ below)
    omega
  · intro settled k addr found _ above' below'
    rw [run_placed run configured found] at above' below'
    have early := inside k (List.getElem?_eq_some_iff.mp found).1 above' below'
    omega

/-- Every half is complete whenever it is sent exactly when none is sent with its data trailing. -/
theorem run_halvesComplete_iff {minAddr : BitVec 32} (run : (circuit depth packing).Run past s)
    (configured : Held (AxisRamWriter.Configured minAddr 65535) (past.map writerTick))
    (first : Held AxisRamWriter.AwFirst (past.map writerTick)) :
    Held (HalfComplete minAddr) past ↔ Held Settled past := by
  refine run.held_congr (G := fun past =>
    Held (AxisRamWriter.Configured minAddr 65535) (past.map writerTick) ∧
      Held AxisRamWriter.AwFirst (past.map writerTick)) ?_ ?_ ⟨configured, first⟩
  · rintro past c ⟨configured, first⟩
    rw [held_map_snoc] at configured first
    exact ⟨configured.1, first.1⟩
  · rintro past s i run ⟨configured, first⟩
    exact halfComplete_iff run configured first

/-! ### Laps of `adc_test`

The design packs four 16-bit samples into a memory word. A run of a whole lap is put together
from bursts: where the writer stands in the ring does not change what it does.
-/

def axis16 : Packing (BitVec 16) (BitVec 16) (BitVec 64) where
  wrLanes := 1
  rdLanes := 4
  lanes w := [w]
  word xs := xs.getD 3 0 ++ xs.getD 2 0 ++ xs.getD 1 0 ++ xs.getD 0 0
  lanes_length _ := rfl
  wrLanes_pos := Nat.one_pos
  rdLanes_pos := by decide

/-- A sample arrives, the loop makes a turn, or the data channel stalls; else nothing happens. -/
inductive Event where
  | sample | idle | stall | poll

def pins (e : Event) : HandOverPins 2048 axis16 where
  writer := {
    minAddr := 0x10000000
    cfgData := 65535
    mAxiAwready := true
    mAxiWready := match e with | .stall => false | _ => true
    sAxisTdata := 0
    sAxisTvalid := match e with | .sample => true | _ => false }
  polls := match e with | .poll => true | _ => false

def fresh : HandOver 2048 axis16 where
  writer := AxisRamWriter.posedge false
    ⟨false, false, 0, 0, [], ⟨0, false⟩, ⟨(false, 0), false⟩⟩ (pins .idle).writer
  limit := 32768

theorem fresh_reset : (circuit 2048 axis16).Reset fresh :=
  ⟨⟨_, _, rfl⟩, rfl⟩

def traced (events : List Event) : List (Tick 2048 axis16) :=
  (circuit 2048 axis16).trace fresh (events.map pins)

def reached (events : List Event) : HandOver 2048 axis16 :=
  (circuit 2048 axis16).after fresh (events.map pins)

theorem run_traced (events : List Event) :
    (circuit 2048 axis16).Run (traced events) (reached events) :=
  run_trace fresh_reset _

theorem traced_snoc (events : List Event) (e : Event) :
    traced (events ++ [e]) = traced events ++ [⟨reached events, pins e⟩] := by
  rw [traced, List.map_append, List.map_singleton, trace_snoc]
  rfl

theorem reached_snoc (events : List Event) (e : Event) :
    reached (events ++ [e]) = tick (reached events) (pins e) := by
  rw [reached, List.map_append, after_append]
  rfl

/-- The writer as it would be at the start of the ring. -/
def home (s : AxisRamWriter (ringWriter 2048 axis16)) : AxisRamWriter (ringWriter 2048 axis16) where
  intAwvalidReg := s.intAwvalidReg
  intWvalidReg := s.intWvalidReg
  intCntrReg := s.intCntrReg
  intAddrReg := 0
  fifo0 := s.fifo0
  buf0 := ⟨0, s.buf0.intValidReg⟩
  buf1 := s.buf1

abbrev writerAlone :
    Circuit (AxisRamWriter (ringWriter 2048 axis16)) (AxisWriterPins (ringWriter 2048 axis16)) :=
  AxisRamWriter.circuit _

theorem home_after (s : AxisRamWriter (ringWriter 2048 axis16)) (pins : List (AxisWriterPins _)) :
    home (writerAlone.after s pins) = home (writerAlone.after (home s) pins) := by
  induction pins generalizing s with
  | nil => rfl
  | cons i rest ih =>
    calc home (writerAlone.after (writerAlone.tick s i) rest)
        = home (writerAlone.after (home (writerAlone.tick (home s) i)) rest) := ih _
      _ = home (writerAlone.after (writerAlone.tick (home s) i) rest) := (ih _).symm

theorem home_issued (s : AxisRamWriter (ringWriter 2048 axis16)) (pins : List (AxisWriterPins _)) :
    ((writerAlone.trace s pins).flatMap AxisRamWriter.issued).length =
      ((writerAlone.trace (home s) pins).flatMap AxisRamWriter.issued).length := by
  induction pins generalizing s with
  | nil => rfl
  | cons i rest ih =>
    have fires : (AxisRamWriter.issued ⟨s, i⟩).length = (AxisRamWriter.issued ⟨home s, i⟩).length := by
      rw [AxisRamWriter.issued, AxisRamWriter.issued, beat_length, beat_length]
      rfl
    have same : home (writerAlone.tick s i) = home (writerAlone.tick (home s) i) := rfl
    rw [trace, trace, List.flatMap_cons, List.flatMap_cons, List.length_append, List.length_append,
      fires, ih (writerAlone.tick s i), ih (writerAlone.tick (home s) i), same]

def writerPins (events : List Event) : List (AxisWriterPins (ringWriter 2048 axis16)) :=
  events.map fun e => (pins e).writer

/-- After `events` the writer is at rest, with `n` addresses announced. -/
structure Rested (events : List Event) (n limit : Nat) : Prop where
  rest : home (reached events).writer = home fresh.writer
  count : (announced (traced events)).length = n
  limit : (reached events).limit = limit

theorem rested_nil : Rested [] 0 32768 := ⟨rfl, rfl, rfl⟩

theorem Rested.append {events : List Event} {n limit : Nat} (rested : Rested events n limit)
    (more : List Event) :
    home (reached (events ++ more)).writer =
      home (writerAlone.after (home fresh.writer) (writerPins more)) ∧
    (announced (traced (events ++ more))).length = n +
      ((writerAlone.trace (home fresh.writer) (writerPins more)).flatMap
        AxisRamWriter.issued).length := by
  have tick : ∀ (s : HandOver 2048 axis16) i,
    ((circuit 2048 axis16).tick s i).writer = writerAlone.tick s.writer i.writer := fun _ _ => rfl
  have reached' : (reached (events ++ more)).writer =
      writerAlone.after (reached events).writer (writerPins more) := by
    rw [reached, List.map_append, after_append, after_map _ _ tick, List.map_map]
    rfl
  have traced' : (traced (events ++ more)).map writerTick = (traced events).map writerTick ++
      writerAlone.trace (reached events).writer (writerPins more) := by
    rw [traced, List.map_append, trace_append, List.map_append]
    refine congrArg (_ ++ ·) ((trace_map _ _ tick _ _).trans ?_)
    rw [List.map_map]
    rfl
  refine ⟨?_, ?_⟩
  · rw [reached', home_after, rested.rest]
  · rw [announced, traced', List.flatMap_append, List.length_append, home_issued _ (writerPins more),
      rested.rest]
    exact congrArg (· + _) rested.count

/-- 64 samples make a burst, and the writer is at rest again 18 clocks later. -/
def burst : List Event := List.replicate 64 .sample ++ List.replicate 18 .idle

def bursts (k : Nat) : List Event := (List.replicate k burst).flatten

theorem burst_home :
    home (writerAlone.after (home fresh.writer) (writerPins burst)) =
      home fresh.writer := by
  decide +kernel

theorem burst_issued :
    ((writerAlone.trace (home fresh.writer) (writerPins burst)).flatMap
      AxisRamWriter.issued).length = 1 := by
  decide +kernel

theorem limit_reached (events : List Event) {more : List Event}
    (quiet : ∀ e ∈ more, (pins e).polls = false) :
    (reached (events ++ more)).limit = (reached events).limit := by
  induction more generalizing events with
  | nil => rw [List.append_nil]
  | cons e rest ih =>
    have later : ∀ e' ∈ rest, (pins e').polls = false := fun e' member =>
      quiet e' (List.mem_cons_of_mem _ member)
    rw [List.append_cons, ih (events ++ [e]) later, reached_snoc, tick, quiet e List.mem_cons_self]
    rfl

theorem burst_quiet : ∀ e ∈ burst, (pins e).polls = false := by
  intro e member
  rcases List.mem_append.mp member with sample | idle
  · rw [List.eq_of_mem_replicate sample]
    rfl
  · rw [List.eq_of_mem_replicate idle]
    rfl

theorem Rested.burst {events : List Event} {n limit : Nat} (rested : Rested events n limit) :
    Rested (events ++ HandOver.burst) (n + 1) limit := by
  obtain ⟨rest, count⟩ := rested.append HandOver.burst
  refine ⟨rest.trans burst_home, ?_, ?_⟩
  · rw [count, burst_issued]
  · exact (limit_reached events burst_quiet).trans rested.limit

theorem Rested.bursts {events : List Event} {n limit : Nat} (rested : Rested events n limit)
    (k : Nat) : Rested (events ++ HandOver.bursts k) (n + k) limit := by
  induction k with
  | zero => simpa [HandOver.bursts] using rested
  | succ k ih =>
    have one : HandOver.bursts (k + 1) = HandOver.bursts k ++ HandOver.burst := by
      simp [HandOver.bursts, List.replicate_succ']
    rw [one, ← List.append_assoc]
    exact ih.burst

theorem traced_held {Q : HandOverPins 2048 axis16 → Prop} {events : List Event}
    (all : ∀ e ∈ events, Q (pins e)) : Held (fun _ c => Q c.pins) (traced events) := by
  apply held_trace
  intro i member
  obtain ⟨e, among, rfl⟩ := List.mem_map.mp member
  exact all e among

theorem traced_configured (events : List Event) :
    Held (AxisRamWriter.Configured 0x10000000 65535) ((traced events).map writerTick) :=
  (held_map ..).mpr (traced_held (Q := fun i =>
    i.writer.minAddr = 0x10000000 ∧ i.writer.cfgData = 65535) fun _ _ => ⟨rfl, rfl⟩)

theorem traced_awFirst (events : List Event) :
    Held AxisRamWriter.AwFirst ((traced events).map writerTick) :=
  AxisRamWriter.run_awFirst (run_writer (run_traced events))
    ((held_map ..).mpr (traced_held (Q := fun i => i.writer.mAxiAwready = true) fun _ _ => rfl))

theorem position_of_count {events : List Event} {n : Nat}
    (count : (announced (traced events)).length = n) : (reached events).position = n % 65536 := by
  rw [run_position (run_traced events) (traced_configured events), count]

theorem sent_poll (events : List Event) :
    sent ⟨reached events, pins .poll⟩ =
      (DoubleBuffer.adcTest.poll (reached events).limit (reached events).position).1 := rfl

theorem settled_poll {events : List Event} :
    Held Settled (traced (events ++ [.poll])) ↔ Held Settled (traced events) ∧
      ((sent ⟨reached events, pins .poll⟩).isSome = true → ¬ Trailing (reached events)) := by
  rw [traced_snoc, held_snoc]
  rfl

theorem settled_quiet {events : List Event} (quiet : ∀ e ∈ events, (pins e).polls = false) :
    Held Settled (traced events) := by
  have held : Held (fun _ c => c.pins.polls = false) (traced events) :=
    traced_held (Q := fun i => i.polls = false) quiet
  refine held.mono fun before c quiet sends => ?_
  unfold sent at sends
  rw [quiet] at sends
  cases sends

theorem poll_home :
    home (writerAlone.after (home fresh.writer) (writerPins [.poll])) = home fresh.writer := by
  decide +kernel

theorem poll_issued :
    ((writerAlone.trace (home fresh.writer) (writerPins [.poll])).flatMap
      AxisRamWriter.issued).length = 0 := by
  decide +kernel

theorem Rested.poll {events : List Event} {n limit : Nat} (rested : Rested events n limit) :
    Rested (events ++ [.poll]) n (DoubleBuffer.adcTest.poll limit (n % 65536)).2 := by
  obtain ⟨rest, count⟩ := rested.append [.poll]
  refine ⟨rest.trans poll_home, ?_, ?_⟩
  · rw [count, poll_issued, Nat.add_zero]
  · rw [reached_snoc, tick, position_of_count rested.count, rested.limit]
    rfl

/-- A poll with the counter well past the low half finds all of it accepted. -/
def lowHalf : List Event := bursts 40000

theorem rested_lowHalf : Rested lowHalf 40000 32768 := by
  have rested := rested_nil.bursts 40000
  rwa [List.nil_append, Nat.zero_add] at rested

theorem lowHalf_quiet : ∀ e ∈ lowHalf, (pins e).polls = false := by
  intro e member
  obtain ⟨part, among, inside⟩ := List.mem_flatten.mp member
  rw [List.eq_of_mem_replicate among] at inside
  exact burst_quiet e inside

theorem run_halvesComplete_iff_lowHalf :
    Held (HalfComplete 0x10000000) (traced (lowHalf ++ [.poll])) ∧
    sent ⟨reached lowHalf, pins .poll⟩ = some 0 := by
  have position := position_of_count rested_lowHalf.count
  have limit := rested_lowHalf.limit
  have beyond : ¬ Trailing (reached lowHalf) := by
    unfold Trailing
    rw [position, limit]
    omega
  refine ⟨(run_halvesComplete_iff (run_traced _) (traced_configured _) (traced_awFirst _)).mpr
    (settled_poll.mpr ⟨settled_quiet lowHalf_quiet, fun _ => beyond⟩), ?_⟩
  rw [sent_poll, position, limit]
  rfl

/-- The lap is completed with the data of its last burst stalled. -/
def stalledBurst : List Event := List.replicate 64 .sample ++ [.stall, .stall]

def stalledLap : List Event := lowHalf ++ [.poll] ++ bursts 25535 ++ stalledBurst

theorem stalledBurst_quiet : ∀ e ∈ stalledBurst, (pins e).polls = false := by decide

theorem stalledBurst_busy :
    (home (writerAlone.after (home fresh.writer) (writerPins stalledBurst))).intWvalidReg = true := by
  decide +kernel

theorem stalledBurst_issued :
    ((writerAlone.trace (home fresh.writer) (writerPins stalledBurst)).flatMap
      AxisRamWriter.issued).length = 1 := by
  decide +kernel

theorem Rested.stalled {events : List Event} {n limit : Nat} (rested : Rested events n limit) :
    (reached (events ++ stalledBurst)).writer.intWvalidReg = true ∧
    (reached (events ++ stalledBurst)).position = (n + 1) % 65536 ∧
    (reached (events ++ stalledBurst)).limit = limit := by
  obtain ⟨state, count⟩ := rested.append stalledBurst
  refine ⟨?_, ?_, ?_⟩
  · exact (congrArg AxisRamWriter.intWvalidReg state).trans stalledBurst_busy
  · exact position_of_count (count.trans (congrArg (n + ·) stalledBurst_issued))
  · exact (limit_reached events stalledBurst_quiet).trans rested.limit

/-- 65536 addresses are announced, the counter stands at 0, and the high half is sent while the
last burst in it is in the writer. -/
theorem Rested.incomplete {events : List Event} (rested : Rested events 65535 0) :
    sent ⟨reached (events ++ stalledBurst), pins .poll⟩ = some (4096 * 1024) ∧
    ¬ Held (HalfComplete 0x10000000) (traced (events ++ stalledBurst ++ [.poll])) := by
  obtain ⟨busy, position, limit⟩ := rested.stalled
  have sends : sent ⟨reached (events ++ stalledBurst), pins .poll⟩ = some (4096 * 1024) := by
    rw [sent_poll, position, limit]
    rfl
  have trailing : Trailing (reached (events ++ stalledBurst)) :=
    .inl ⟨position.trans limit.symm, .inl busy⟩
  refine ⟨sends, fun complete => ?_⟩
  rw [traced_snoc, held_snoc] at complete
  have settled := (halfComplete_iff (run_traced _) (traced_configured _) (traced_awFirst _)).mp
    complete.2
  exact settled (by rw [sends]; rfl) trailing

theorem stalledLap_incomplete :
    (circuit 2048 axis16).Run (traced (stalledLap ++ [.poll])) (reached (stalledLap ++ [.poll])) ∧
    Held (AxisRamWriter.Configured 0x10000000 65535)
      ((traced (stalledLap ++ [.poll])).map writerTick) ∧
    Held AxisRamWriter.AwFirst ((traced (stalledLap ++ [.poll])).map writerTick) ∧
    sent ⟨reached stalledLap, pins .poll⟩ = some (4096 * 1024) ∧
    ¬ Held (HalfComplete 0x10000000) (traced (stalledLap ++ [.poll])) := by
  have rested : Rested (lowHalf ++ [.poll] ++ bursts 25535) 65535 0 :=
    rested_lowHalf.poll.bursts 25535
  exact ⟨run_traced _, traced_configured _, traced_awFirst _, rested.incomplete⟩

end HandOver

end Switcheck
