import Switcheck.Server.Session

/-!
# The radar server

The ring of the radar design has 2^19 bursts, but the counter of its writer reaches the server
through a 16-bit field of the status word.
-/

namespace Switcheck

namespace DoubleBuffer

/-- The loop of `radar.c`. -/
def radar : DoubleBuffer where
  half := 256 * 1024
  block := 32768 * 1024

/-- `concat_1`: the counters of `reader_0` and `writer_0` in ports of 16 bits. -/
def concat1 (reader writer : BitVec 19) : BitVec 32 := writer.setWidth 16 ++ reader.setWidth 16

/-- The `uint16_t` at `sts + 2`. -/
def rxCntr (sts : BitVec 32) : BitVec 16 := sts.extractLsb' 16 16

structure RadarPoll where
  advance : Nat
  reader : BitVec 19

def radarSampling : Sampling RadarPoll where
  advance := RadarPoll.advance
  position i counter := (rxCntr (concat1 i.reader (BitVec.ofNat 19 counter))).toNat

/-- Every half the counter has traversed is sent, once and in order, and none with the counter
in it. -/
def InStep (d : DoubleBuffer) (s : Session) : Prop :=
  s.sent.map Sent.offset = d.offsets (s.counter / d.half) ∧
    ∀ b ∈ s.sent, ¬ d.Inside b.offset (b.counter % (2 * d.half))

theorem radar_position (i : RadarPoll) (counter : Nat) :
    radarSampling.position i counter < radar.half := by
  have narrow := (rxCntr (concat1 i.reader (BitVec.ofNat 19 counter))).isLt
  exact Nat.lt_trans narrow (by decide)

theorem radar_turn {s : Session} (first : s.limit = radar.half) (i : RadarPoll) :
    (radar.turn radarSampling s i).limit = radar.half ∧
    (radar.turn radarSampling s i).sent = s.sent := by
  have low := radar_position i (s.counter + radarSampling.advance i)
  have idle : radar.ready s.limit
      (radarSampling.position i (s.counter + radarSampling.advance i)) = false := by
    unfold ready
    rw [first, decide_eq_false (Nat.lt_asymm low)]
    rfl
  obtain ⟨limit, sent⟩ := turn_idle idle
  exact ⟨limit.trans first, sent⟩

/-- The position read never passes the limit of 2^18, so the loop sleeps for ever. -/
theorem radar_silent (polls : List RadarPoll) :
    (radar.session radarSampling polls).limit = radar.half ∧
    (radar.session radarSampling polls).sent = [] := by
  induction polls using List.reverseRecOn with
  | nil => exact ⟨rfl, rfl⟩
  | append_singleton polls i ih =>
    obtain ⟨limit, sent⟩ := radar_turn ih.1 i
    rw [session_snoc]
    exact ⟨limit, sent.trans ih.2⟩

theorem offsets_nil_iff {d : DoubleBuffer} {n : Nat} : d.offsets n = [] ↔ n = 0 := by
  simp [offsets]

/-- The radar server keeps step only until the counter has traversed its first half. -/
theorem radar_inStep_iff (polls : List RadarPoll) :
    radar.InStep (radar.session radarSampling polls) ↔
      radarSampling.moved polls < 262144 := by
  have counter := session_counter radar radarSampling polls
  have silent := (radar_silent polls).2
  unfold InStep
  rw [silent, counter, List.map_nil, eq_comm, offsets_nil_iff, Nat.div_eq_zero_iff]
  constructor
  · rintro ⟨none | below, -⟩
    · cases none
    · exact below
  · intro below
    exact ⟨.inr below, by simp⟩

/-- Two polls less than half a ring apart, the second in the other half. -/
theorem radar_half_unsent : ¬ ∀ polls : List RadarPoll,
    (∀ i ∈ polls, i.advance < 262144) → radar.InStep (radar.session radarSampling polls) := by
  intro claim
  have step := claim [⟨200000, 0⟩, ⟨100000, 0⟩] (by decide)
  exact absurd step.1 (by decide)

end DoubleBuffer

end Switcheck
