import Mathlib.Tactic.IntervalCases
import Switcheck.Sync.Circuit
import Switcheck.Sync.Wire

/-!
# The datagrams of `handler_ep6`

A pass of the loop takes samples from the FIFO of the receivers and sends them in datagrams of two
frames each. The settings are those that the pass has read; how the audio index goes with the rate
is in `HpsdrEp6`.
-/

namespace Switcheck

open Sync Circuit

namespace HpsdrPayload

/-- What is on the pins and in the converter when the header of a frame is filled. -/
structure Sensors where
  gpioIn : Byte
  cwPtt : Byte
  xadc16 : BitVec 32
  xadc17 : BitVec 32
  xadc24 : BitVec 32
  xadc25 : BitVec 32

/-- `m * n * 64`. -/
def taking (receivers : Nat) : Nat :=
  let n := 504 / (receivers * 6 + 2)
  256 / n * n * 64

/-- What a pass finds: the receivers, the bytes that it takes from `fifo`, the words of `codec`, the
rate when `rate_counter` is set and when the audio is read at an index, and the sensors. -/
structure Pass where
  receivers : Nat
  fifo : List Byte
  codec : Nat → BitVec 32
  reload : Nat
  rate : Nat → Nat
  sensors : Nat → Sensors
  least : 1 ≤ receivers
  most : receivers ≤ 8
  whole : fifo.length = taking receivers

def ident : List Byte := [0xef, 0xfe, 1, 6]

def header : List Byte :=
  [127, 127, 127, 0, 0, 33, 17, 21,
    127, 127, 127, 8, 0, 0, 0, 0,
    127, 127, 127, 16, 0, 0, 0, 0,
    127, 127, 127, 24, 0, 0, 0, 0,
    127, 127, 127, 32, 66, 66, 66, 66]

/-- `value >> 8` and `value` of `value = xadc[...] >> 3`. -/
def reading (word : BitVec 32) : List Byte :=
  let value : BitVec 16 := (word >>> 3).setWidth 16
  [(value >>> 8).setWidth 8, value.setWidth 8]

/-- The bytes of a word of `audio` that `memcpy` takes. -/
def micBytes (word : BitVec 32) : List Byte := [word.setWidth 8, (word >>> 8).setWidth 8]

namespace Pass

variable (p : Pass)

def size : Nat := p.receivers * 6 + 2

def n : Nat := 504 / p.size

def m : Nat := 256 / p.n

def flags (i : Nat) : Byte := ((p.sensors i).gpioIn &&& 7) ||| (p.sensors i).cwPtt

end Pass

/-- The loop over the samples of a frame: where it writes, where it reads, the audio index. -/
structure Filling where
  buffer : Nat → Byte
  pointer : Nat
  dataOffset : Nat
  k : Nat

structure Batch where
  buffer : Nat → Byte
  headerOffset : Nat
  dataOffset : Nat
  k : Nat

end HpsdrPayload

structure HpsdrPayload where
  buffer : Nat → Byte
  headerOffset : Nat
  counter : BitVec 32
  rateCounter : Int
  k : Nat
  audio : Nat → BitVec 32

namespace HpsdrPayload

section

variable (codec thetis : Bool) (p : Pass) (audio : Nat → BitVec 32)

def sample (f : Filling) : Filling :=
  let data := p.fifo
  let buffer := copy f.buffer f.pointer
    ((data.drop f.dataOffset).take (if p.size > 14 then 12 else p.size - 2))
  let buffer :=
    if p.size > 14 then
      copy buffer (f.pointer + 12)
        (if thetis then
          (data.drop (12 + f.dataOffset)).take (if p.size > 32 then 18 else p.size - 14)
        else (data.drop (18 + f.dataOffset)).take (if p.size > 26 then 12 else p.size - 14))
    else buffer
  let pointer := f.pointer + p.size
  { buffer :=
      if codec then copy buffer (pointer - 2) (micBytes (audio (f.k >>> p.rate f.k))) else buffer
    pointer := pointer
    dataOffset := f.dataOffset + 32
    k := if codec then f.k + 1 else f.k }

def place (i : Nat) : Nat := i * 516 - i % 2 * 4 + 8

/-- The header of frame `i`, with what the sensors have to tell in its turn. -/
def fillHeader (b : Batch) (i : Nat) : Nat → Byte :=
  let pointer := place i
  let sensors := p.sensors i
  let buffer := copy b.buffer pointer ((header.drop b.headerOffset).take 8)
  let buffer := copy buffer (pointer + 3) [buffer (pointer + 3) ||| p.flags i]
  if b.headerOffset = 8 then copy buffer (pointer + 6) (reading sensors.xadc24)
  else if b.headerOffset = 16 then
    copy (copy buffer (pointer + 4) (reading sensors.xadc16)) (pointer + 6)
      (reading sensors.xadc17)
  else if b.headerOffset = 24 then copy buffer (pointer + 4) (reading sensors.xadc25)
  else buffer

def frame (b : Batch) (i : Nat) : Batch :=
  let pointer := place i + 8
  let f := (sample codec thetis p audio)^[p.n]
    { buffer := copy (fillHeader p b i) pointer (List.replicate 504 0)
      pointer := pointer
      dataOffset := b.dataOffset
      k := b.k }
  { buffer := f.buffer
    headerOffset := if b.headerOffset ≥ 32 then 0 else b.headerOffset + 8
    dataOffset := f.dataOffset
    k := f.k }

end

variable (codec thetis : Bool)

def numbered (s : HpsdrPayload) (p : Pass) : Nat → Byte :=
  (List.range p.m).foldl (fun buffer i =>
    copy buffer (i * 1032 + 4) (bigEndian 4 (s.counter + BitVec.ofNat 32 i).toNat)) s.buffer

/-- `--rate_counter == 0`: the audio is taken anew. -/
def takesAudio (s : HpsdrPayload) : Bool := codec && s.rateCounter - 1 == 0

def audioNext (s : HpsdrPayload) (p : Pass) : Nat → BitVec 32 := fun index =>
  if takesAudio codec s ∧ index < p.m * p.n * 2 then p.codec index else s.audio index

def kNext (s : HpsdrPayload) : Nat := if takesAudio codec s then 0 else s.k

def frames (s : HpsdrPayload) (p : Pass) : Batch :=
  (List.range (p.m * 2)).foldl (frame codec thetis p (audioNext codec s p))
    ⟨numbered s p, s.headerOffset, 0, kNext codec s⟩

def pass (s : HpsdrPayload) (p : Pass) : HpsdrPayload where
  buffer := (frames codec thetis s p).buffer
  headerOffset := (frames codec thetis s p).headerOffset
  counter := s.counter + BitVec.ofNat 32 p.m
  rateCounter :=
    if takesAudio codec s then (2 ^ p.reload : Nat)
    else if codec then s.rateCounter - 1 else s.rateCounter
  k := (frames codec thetis s p).k
  audio := audioNext codec s p

/-- The buffer as it is set up before the loop. -/
def circuit : Circuit HpsdrPayload Pass where
  Reset s := (∀ i < 25, stored s.buffer (i * 1032) 4 = ident) ∧ s.headerOffset = 0 ∧ s.counter = 0 ∧
    (∃ rate, s.rateCounter = (2 ^ rate : Nat)) ∧ s.k = 0 ∧ ∀ index < 512, s.audio index = 0
  tick := pass codec thetis

abbrev Tick := Clock HpsdrPayload Pass

/-- What `sendmmsg` sends in a pass. -/
def sent (c : Tick) : List (List Byte) :=
  (List.range c.pins.m).map fun i => stored (pass codec thetis c.regs c.pins).buffer (i * 1032) 1032

/-! ### What a frame is to say -/

section

variable (p : Pass) (audio : Nat → BitVec 32)

/-- The control bytes of frame `i` where it is the turn of header `turn`. -/
def control (turn i : Nat) : List Byte :=
  match turn with
  | 0 => [p.flags i, 0, 33, 17, 21]
  | 1 => [8 ||| p.flags i, 0, 0] ++ reading (p.sensors i).xadc24
  | 2 => [16 ||| p.flags i] ++ reading (p.sensors i).xadc16 ++ reading (p.sensors i).xadc17
  | 3 => [24 ||| p.flags i] ++ reading (p.sensors i).xadc25 ++ [0, 0]
  | _ => [32 ||| p.flags i, 66, 66, 66, 66]

/-- Where the samples of receiver `q` are in a record of the FIFO: the third of the five channels
is left out without `THETIS`, and there are no more than five. -/
def channel (q : Nat) : Option Nat :=
  if q < 2 then some q
  else if thetis then if q < 5 then some q else none
  else if q < 4 then some (q + 1) else none

def record (r : Nat) : List Byte := (p.fifo.drop (32 * r)).take 32

/-- The sample of receiver `q` in a record. -/
def iq (bytes : List Byte) (q : Nat) : List Byte :=
  match channel thetis q with
  | some c => (bytes.drop (6 * c)).take 6
  | none => List.replicate 6 0

def mic (k : Nat) : List Byte :=
  if codec then micBytes (audio (k >>> p.rate k)) else [0, 0]

/-- The samples of all receivers in record `r`, with that of the microphone at index `k`. -/
def slot (r k : Nat) : List Byte :=
  (List.range p.receivers).flatMap (iq thetis (record p r)) ++ mic codec p audio k

def onward (k r : Nat) : Nat := if codec then k + r else k

def slots (k r count : Nat) : List Byte :=
  (List.range count).flatMap fun j => slot codec thetis p audio (r + j) (onward codec k j)

/-- Frame `i` of a pass whose first header is in turn at `turn`. -/
def frameBytes (turn k i : Nat) : List Byte :=
  [127, 127, 127] ++ control p ((turn + i) % 5) i ++
    (slots codec thetis p audio (onward codec k (i * p.n)) (i * p.n) p.n ++
      List.replicate (504 - p.n * p.size) 0)

end

/-! ### What the host reads -/

structure Heard where
  iq : List (List Byte)
  mic : List Byte
  deriving DecidableEq

structure Frame where
  control : List Byte
  samples : List Heard
  deriving DecidableEq

structure Datagram where
  number : Nat
  frames : List Frame
  deriving DecidableEq

def readHeard (receivers : Nat) : Reader Heard := fun bytes => do
  let (block, bytes) ← readBytes (receivers * 6) bytes
  let (mic, bytes) ← readBytes 2 bytes
  some (⟨(readMany (readBytes 6) receivers block).1, mic⟩, bytes)

def readFrame (receivers : Nat) : Reader Frame := fun bytes => do
  let (sync, bytes) ← readBytes 3 bytes
  let (control, bytes) ← readBytes 5 bytes
  let (body, bytes) ← readBytes 504 bytes
  let (samples, _) := readMany (readHeard receivers) (504 / (receivers * 6 + 2)) body
  if sync = [127, 127, 127] then some (⟨control, samples⟩, bytes) else none

def readDatagram (receivers : Nat) (bytes : List Byte) : Option Datagram := do
  let (id, bytes) ← readBytes 4 bytes
  let (number, bytes) ← readNumber 4 bytes
  let (first, bytes) ← readFrame receivers bytes
  let (second, bytes) ← readFrame receivers bytes
  if id = ident ∧ bytes = [] then some ⟨number, [first, second]⟩ else none

def received (past : List Tick) : List (Option Datagram) :=
  past.flatMap fun c => (sent codec thetis c).map (readDatagram c.pins.receivers)

/-- Record `r` as the host is to hear it, with the audio at index `k`. -/
def heard (p : Pass) (audio : Nat → BitVec 32) (r k : Nat) : Heard :=
  ⟨(List.range p.receivers).map (iq thetis (record p r)), mic codec p audio k⟩

def taken (c : Tick) : List Heard :=
  (List.range (c.pins.m * 2 * c.pins.n)).map fun r =>
    heard codec thetis c.pins (audioNext codec c.regs c.pins) r (onward codec (kNext codec c.regs) r)

/-- The frames of a pass, each with its pass. -/
def turns (c : Tick) : List (Pass × Nat) :=
  (List.range (c.pins.m * 2)).map fun i => (c.pins, i)

variable {codec thetis} {p : Pass} {audio : Nat → BitVec 32}

theorem copy_at (memory : Nat → Byte) (offset : Nat) (bytes : List Byte) (k : Nat) :
    copy memory offset bytes (offset + k) = bytes.getD k (memory (offset + k)) := by
  rw [copy, if_pos (Nat.le_add_right _ _), Nat.add_sub_cancel_left]

theorem fillHeader_eq (b : Batch) (i : Nat) {turn : Nat} (low : turn < 5)
    (offset : b.headerOffset = 8 * turn) :
    fillHeader p b i = copy b.buffer (place i) ([127, 127, 127] ++ control p turn i) := by
  have flagged (x : Byte) (rest : List Byte) :
      copy (copy b.buffer (place i) ([127, 127, 127] ++ [x] ++ rest)) (place i + 3)
          [copy b.buffer (place i) ([127, 127, 127] ++ [x] ++ rest) (place i + 3) ||| p.flags i] =
        copy b.buffer (place i) ([127, 127, 127] ++ [x ||| p.flags i] ++ rest) := by
    rw [copy_at]
    exact copy_within b.buffer (place i) [127, 127, 127] rest rfl
  have filled (before after : List Byte) (word : BitVec 32) :
      copy (copy b.buffer (place i) (before ++ [0, 0] ++ after)) (place i + before.length)
          (reading word) = copy b.buffer (place i) (before ++ reading word ++ after) :=
    copy_within b.buffer (place i) before after rfl
  unfold fillHeader
  dsimp only
  interval_cases turn <;> rw [offset]
  · exact (flagged 0 [0, 33, 17, 21]).trans (by simp [control])
  · rw [if_pos rfl]
    refine (congrArg (fun m => copy m (place i + 6) (reading (p.sensors i).xadc24))
      (flagged 8 [0, 0, 0, 0])).trans ?_
    exact (filled [127, 127, 127, 8 ||| p.flags i, 0, 0] [] _).trans (by simp [control])
  · rw [if_neg (by decide), if_pos rfl]
    refine (congrArg (fun m => copy (copy m (place i + 4) (reading (p.sensors i).xadc16))
      (place i + 6) (reading (p.sensors i).xadc17)) (flagged 16 [0, 0, 0, 0])).trans ?_
    refine (congrArg (fun m => copy m (place i + 6) (reading (p.sensors i).xadc17))
      (filled [127, 127, 127, 16 ||| p.flags i] [0, 0] _)).trans ?_
    exact (filled ([127, 127, 127, 16 ||| p.flags i] ++ reading (p.sensors i).xadc16) [] _).trans
      (by simp [control])
  · rw [if_neg (by decide), if_neg (by decide), if_pos rfl]
    refine (congrArg (fun m => copy m (place i + 4) (reading (p.sensors i).xadc25))
      (flagged 24 [0, 0, 0, 0])).trans ?_
    exact (filled [127, 127, 127, 24 ||| p.flags i] [0, 0] _).trans (by simp [control])
  · rw [if_neg (by decide), if_neg (by decide), if_neg (by decide)]
    exact (flagged 32 [66, 66, 66, 66]).trans (by simp [control])

/-! ### The samples of a record -/

theorem flatMap_blocks (bytes : List Byte) (a m : Nat) :
    ((List.range m).flatMap fun q => (bytes.drop (a + 6 * q)).take 6) =
      (bytes.drop a).take (6 * m) := by
  induction m with
  | zero => simp
  | succ m ih =>
    rw [List.range_succ, flatMap_snoc, ih, Nat.mul_succ, List.take_add, List.drop_drop]

theorem flatMap_zeros (m : Nat) :
    ((List.range m).flatMap fun _ => List.replicate 6 (0 : Byte)) = List.replicate (6 * m) 0 := by
  induction m with
  | zero => rfl
  | succ m ih => rw [List.range_succ, flatMap_snoc, ih, Nat.mul_succ, List.replicate_append_replicate]

/-- The receivers after the second that have a channel. -/
def more (thetis : Bool) (receivers : Nat) : Nat := min (receivers - 2) (if thetis then 3 else 2)

def skip (thetis : Bool) : Nat := if thetis then 12 else 18

/-- The first two channels, the others from where they begin, and zeros for the receivers that have
none. -/
theorem iq_parts (bytes : List Byte) (receivers : Nat) :
    (List.range receivers).flatMap (iq thetis bytes) =
      bytes.take (6 * min receivers 2) ++
        (bytes.drop (skip thetis)).take (6 * more thetis receivers) ++
        List.replicate (6 * (receivers - 2 - more thetis receivers)) 0 := by
  have parts : receivers = min receivers 2 + more thetis receivers +
      (receivers - 2 - more thetis receivers) := by
    unfold more
    omega
  have few : more thetis receivers ≤ if thetis then 3 else 2 := Nat.min_le_right _ _
  conv_lhs => rw [parts]
  rw [List.range_add, List.range_add, List.flatMap_append, List.flatMap_append, List.flatMap_map,
    List.flatMap_map]
  congr 1
  · congr 1
    · have first := flatMap_blocks bytes 0 (min receivers 2)
      rw [List.drop_zero] at first
      rw [← first]
      refine List.flatMap_congr fun q member => ?_
      have low : q < 2 := by
        have inside := List.mem_range.mp member
        omega
      simp [iq, channel, low]
    · rw [← flatMap_blocks]
      refine List.flatMap_congr fun q member => ?_
      have inside := List.mem_range.mp member
      have both : min receivers 2 = 2 := by
        unfold more at inside
        omega
      have high : ¬ 2 + q < 2 := by omega
      cases thetis with
      | false =>
        have low : 2 + q < 4 := by
          rw [if_neg Bool.false_ne_true] at few
          omega
        have where' : 6 * (2 + q + 1) = 18 + 6 * q := by omega
        simp [iq, channel, both, high, low, skip, where']
      | true =>
        have low : 2 + q < 5 := by
          rw [if_pos rfl] at few
          omega
        have where' : 6 * (2 + q) = 12 + 6 * q := by omega
        simp [iq, channel, both, high, low, skip, where']
  · rw [← flatMap_zeros]
    refine List.flatMap_congr fun q member => ?_
    have inside := List.mem_range.mp member
    have none : channel thetis (min receivers 2 + more thetis receivers + q) = none := by
      unfold channel
      cases thetis
      · simp only [more, Bool.false_eq_true, if_false] at inside ⊢
        rw [if_neg (by omega), if_neg (by omega)]
      · simp only [more, if_true] at inside ⊢
        rw [if_neg (by omega), if_neg (by omega)]
    rw [iq, none]

theorem size_cases (p : Pass) :
    (if p.size > 14 then 12 else p.size - 2) = 6 * min p.receivers 2 ∧
      (p.size > 14 ↔ 2 < p.receivers) ∧
      (if thetis then if p.size > 32 then 18 else p.size - 14
        else if p.size > 26 then 12 else p.size - 14) = 6 * more thetis p.receivers := by
  have least := p.least
  have most := p.most
  unfold Pass.size more
  refine ⟨?_, by omega, ?_⟩
  · split <;> omega
  · cases thetis
    · simp only [Bool.false_eq_true, if_false]
      split <;> omega
    · simp only [if_true]
      split <;> omega

/-- A copy over the first of the zeros that were copied before. -/
theorem copy_zeros (memory : Nat → Byte) (o : Nat) (before after bytes : List Byte) (rest : Nat) :
    copy (copy memory o (before ++ (List.replicate (bytes.length + rest) 0 ++ after)))
        (o + before.length) bytes =
      copy memory o (before ++ bytes ++ (List.replicate rest 0 ++ after)) := by
  rw [← List.replicate_append_replicate, List.append_assoc, ← List.append_assoc before]
  exact copy_within memory o before _ (List.length_replicate ..)

theorem record_length {r : Nat} (inside : 32 * (r + 1) ≤ p.fifo.length) :
    (record p r).length = 32 := by
  rw [record, List.length_take, List.length_drop]
  omega

/-- The channels after the second lie inside the record. -/
theorem channels_inside (thetis : Bool) (receivers : Nat) :
    skip thetis + 6 * more thetis receivers ≤ 30 := by
  have most : more thetis receivers ≤ if thetis then 3 else 2 := Nat.min_le_right _ _
  cases thetis <;> simp only [skip, Bool.false_eq_true, if_false, if_true] at most ⊢ <;> omega

/-- What the first `memcpy` of a turn takes. -/
theorem take_first (r : Nat) :
    (p.fifo.drop (32 * r)).take (if p.size > 14 then 12 else p.size - 2) =
      (record p r).take (6 * min p.receivers 2) := by
  rw [(@size_cases false p).1, record, List.take_take]
  congr 1
  omega

/-- What the second one takes. -/
theorem take_others (thetis : Bool) (r : Nat) :
    (if thetis then (p.fifo.drop (12 + 32 * r)).take (if p.size > 32 then 18 else p.size - 14)
      else (p.fifo.drop (18 + 32 * r)).take (if p.size > 26 then 12 else p.size - 14)) =
      ((record p r).drop (skip thetis)).take (6 * more thetis p.receivers) := by
  have channels := channels_inside thetis p.receivers
  have inside : 6 * more thetis p.receivers ≤ 32 - skip thetis := by omega
  obtain ⟨-, -, second⟩ := @size_cases thetis p
  rw [record, List.drop_take, List.take_take, Nat.min_eq_left inside, List.drop_drop]
  cases thetis
  · simp only [Bool.false_eq_true, if_false] at second ⊢
    rw [second, Nat.add_comm, skip, if_neg Bool.false_ne_true]
  · simp only [if_true] at second ⊢
    rw [second, Nat.add_comm, skip, if_pos rfl]

/-- One turn of the loop over the samples writes the slot of a record over zeros. -/
theorem sample_eq {memory : Nat → Byte} {o r k : Nat} {before after : List Byte}
    (inside : 32 * (r + 1) ≤ p.fifo.length) :
    sample codec thetis p audio
        ⟨copy memory o (before ++ (List.replicate p.size 0 ++ after)), o + before.length, 32 * r, k⟩ =
      ⟨copy memory o (before ++ (slot codec thetis p audio r k ++ after)),
        o + (before.length + p.size), 32 * (r + 1), onward codec k 1⟩ := by
  obtain ⟨-, three, -⟩ := @size_cases thetis p
  have few : more thetis p.receivers ≤ p.receivers - 2 := Nat.min_le_left _ _
  have channels := channels_inside thetis p.receivers
  set A := (record p r).take (6 * min p.receivers 2) with isA
  set B := ((record p r).drop (skip thetis)).take (6 * more thetis p.receivers) with isB
  set z := 6 * (p.receivers - 2 - more thetis p.receivers) with isZ
  have whole := record_length inside
  have lengthA : A.length = 6 * min p.receivers 2 := by
    rw [isA, List.length_take, whole]
    omega
  have lengthB : B.length = 6 * more thetis p.receivers := by
    rw [isB, List.length_take, List.length_drop, whole]
    omega
  have total : p.size = A.length + B.length + z + 2 := by
    unfold Pass.size
    omega
  -- the first two channels
  have start := copy_zeros memory o before after A (B.length + (z + 2))
  rw [show A.length + (B.length + (z + 2)) = p.size by omega] at start
  -- the others
  have next : (if p.size > 14 then copy (copy memory o (before ++ A ++
        (List.replicate (B.length + (z + 2)) 0 ++ after))) (o + before.length + 12) B
      else copy memory o (before ++ A ++ (List.replicate (B.length + (z + 2)) 0 ++ after))) =
      copy memory o (before ++ A ++ B ++ (List.replicate (z + 2) 0 ++ after)) := by
    split
    · have step := copy_zeros memory o (before ++ A) after B (z + 2)
      rwa [show o + (before ++ A).length = o + before.length + 12 by
        rw [List.length_append]; omega] at step
    · have none : B = [] := List.length_eq_zero_iff.mp (by omega)
      simp [none]
  -- and the microphone
  have last : (if codec then copy (copy memory o (before ++ A ++ B ++
        (List.replicate (z + 2) 0 ++ after))) (o + before.length + p.size - 2)
          (micBytes (audio (k >>> p.rate k)))
      else copy memory o (before ++ A ++ B ++ (List.replicate (z + 2) 0 ++ after))) =
      copy memory o (before ++ (slot codec thetis p audio r k ++ after)) := by
    rw [slot, iq_parts, ← isA, ← isB, ← isZ, mic, ← List.replicate_append_replicate]
    cases codec with
    | false => simp [List.replicate]
    | true =>
      have here : o + (before ++ A ++ B ++ List.replicate z (0 : Byte)).length =
          o + before.length + p.size - 2 := by
        simp only [List.length_append, List.length_replicate]
        omega
      have same : (List.replicate 2 (0 : Byte)).length =
        (micBytes (audio (k >>> p.rate k))).length := rfl
      have step := copy_within memory o (before ++ A ++ B ++ List.replicate z 0) after same
      rw [here] at step
      simpa [List.append_assoc] using step
  unfold sample
  dsimp only
  rw [take_first, take_others, ← isA, ← isB, start, next, last, Nat.add_assoc, Nat.mul_succ]
  cases codec <;> rfl

@[simp] theorem mic_length (k : Nat) : (mic codec p audio k).length = 2 := by
  unfold mic
  split <;> rfl

theorem iq_length {bytes : List Byte} (whole : bytes.length = 32) (q : Nat) :
    (iq thetis bytes q).length = 6 := by
  have few (c : Nat) (found : channel thetis q = some c) : c ≤ 4 := by
    unfold channel at found
    grind
  unfold iq
  split
  case h_1 c found =>
    have := few c found
    rw [List.length_take, List.length_drop, whole]
    omega
  case h_2 => exact List.length_replicate

theorem flatMap_length {f : Nat → List Byte} {size : Nat} (n : Nat)
    (each : ∀ j < n, (f j).length = size) :
    ((List.range n).flatMap f).length = n * size := by
  induction n with
  | zero => simp
  | succ n ih =>
    rw [List.range_succ, flatMap_snoc, List.length_append, each n (Nat.lt_succ_self n),
      ih fun j low => each j (Nat.lt_succ_of_lt low), Nat.succ_mul]

theorem slot_length {r k : Nat} (inside : 32 * (r + 1) ≤ p.fifo.length) :
    (slot codec thetis p audio r k).length = p.size := by
  rw [slot, List.length_append, mic_length, Pass.size,
    flatMap_length p.receivers fun q _ => iq_length (record_length inside) q]

theorem slots_length {r k count : Nat} (inside : 32 * (r + count) ≤ p.fifo.length) :
    (slots codec thetis p audio k r count).length = count * p.size :=
  flatMap_length count fun j low => slot_length (by omega)

theorem slots_succ (r k count : Nat) :
    slots codec thetis p audio k r (count + 1) = slots codec thetis p audio k r count ++
      slot codec thetis p audio (r + count) (onward codec k count) := by
  rw [slots, List.range_succ, flatMap_snoc]
  rfl

theorem onward_add (k m n : Nat) : onward codec (onward codec k m) n = onward codec k (m + n) := by
  unfold onward
  split <;> omega

/-- The loop over the samples writes their slots over zeros, one after another. -/
theorem samples_eq {memory : Nat → Byte} {o r k : Nat} {before : List Byte}
    (count rest : Nat) (inside : 32 * (r + count) ≤ p.fifo.length) :
    (sample codec thetis p audio)^[count] ⟨copy memory o (before ++
        List.replicate (count * p.size + rest) 0), o + before.length, 32 * r, k⟩ =
      ⟨copy memory o (before ++ slots codec thetis p audio k r count ++ List.replicate rest 0),
        o + (before.length + count * p.size), 32 * (r + count), onward codec k count⟩ := by
  induction count generalizing rest with
  | zero =>
    cases codec <;> simp [slots, onward]
  | succ count ih =>
    have earlier : 32 * (r + count) ≤ p.fifo.length := by omega
    have here : 32 * (r + count + 1) ≤ p.fifo.length := inside
    have more : (count + 1) * p.size + rest = count * p.size + (p.size + rest) := by
      rw [Nat.succ_mul, Nat.add_assoc]
    have step := @sample_eq codec thetis p audio memory o (r + count) (onward codec k count)
      (before ++ slots codec thetis p audio k r count) (List.replicate rest 0) here
    rw [List.length_append, slots_length earlier] at step
    rw [Function.iterate_succ_apply', more, ih (p.size + rest) earlier,
      ← List.replicate_append_replicate, step, slots_succ, onward_add, Nat.succ_mul count p.size]
    simp only [List.append_assoc, Nat.add_assoc]

/-! ### The frames of a pass -/

theorem control_length (turn i : Nat) : (control p turn i).length = 5 := by
  unfold control
  split <;> rfl

theorem frame_eq {b : Batch} {turn r i : Nat} (low : turn < 5)
    (header : b.headerOffset = 8 * turn) (data : b.dataOffset = 32 * r)
    (inside : 32 * (r + p.n) ≤ p.fifo.length) :
    frame codec thetis p audio b i =
      ⟨copy b.buffer (place i) ([127, 127, 127] ++ control p turn i ++
          (slots codec thetis p audio b.k r p.n ++ List.replicate (504 - p.n * p.size) 0)),
        8 * ((turn + 1) % 5), 32 * (r + p.n), onward codec b.k p.n⟩ := by
  have fits : p.n * p.size ≤ 504 := Nat.div_mul_le_self 504 p.size
  have head : ([127, 127, 127] ++ control p turn i).length = 8 := by
    rw [List.length_append, control_length]
    rfl
  have filled := @samples_eq codec thetis p audio b.buffer (place i) r b.k
    ([127, 127, 127] ++ control p turn i) p.n (504 - p.n * p.size) inside
  rw [Nat.add_sub_cancel' fits, ← copy_append, head] at filled
  unfold frame
  dsimp only
  rw [fillHeader_eq b i low header, data, filled, header, List.append_assoc]
  congr 1
  split <;> omega

theorem frameBytes_length (turn k i : Nat) (inside : 32 * (i * p.n + p.n) ≤ p.fifo.length) :
    (frameBytes codec thetis p audio turn k i).length = 512 := by
  have fits : p.n * p.size ≤ 504 := Nat.div_mul_le_self 504 p.size
  rw [frameBytes, List.length_append, List.length_append, List.length_append, control_length,
    slots_length inside, List.length_replicate]
  simp only [List.length_cons, List.length_nil]
  omega

theorem frames_eq (memory : Nat → Byte) {turn : Nat} (k : Nat) (low : turn < 5)
    (count : Nat) (inside : 32 * (count * p.n) ≤ p.fifo.length) :
    (List.range count).foldl (frame codec thetis p audio) ⟨memory, 8 * turn, 0, k⟩ =
      ⟨(List.range count).foldl
          (fun m i => copy m (place i) (frameBytes codec thetis p audio turn k i)) memory,
        8 * ((turn + count) % 5), 32 * (count * p.n), onward codec k (count * p.n)⟩ := by
  induction count with
  | zero =>
    rw [Nat.zero_mul, Nat.add_zero, Nat.mod_eq_of_lt low]
    cases codec <;> rfl
  | succ count ih =>
    have more : (count + 1) * p.n = count * p.n + p.n := Nat.succ_mul count p.n
    rw [more] at inside ⊢
    rw [List.range_succ, List.foldl_append, List.foldl_append, ih (by omega), List.foldl_cons,
      List.foldl_nil, List.foldl_cons, List.foldl_nil,
      frame_eq (Nat.mod_lt (turn + count) (by decide)) rfl rfl inside,
      onward_add, Nat.mod_add_mod, Nat.add_assoc turn]
    rfl

theorem place_even (d : Nat) : place (2 * d) = d * 1032 + 8 := by
  unfold place
  omega

theorem place_odd (d : Nat) : place (2 * d + 1) = d * 1032 + 520 := by
  unfold place
  omega

theorem place_apart {i j : Nat} (other : j ≠ i) : place i + 512 ≤ place j ∨ place j + 512 ≤ place i := by
  unfold place
  omega

theorem records_inside (p : Pass) : 32 * (p.m * 2 * p.n) ≤ p.fifo.length := by
  have same : p.m * 2 * p.n = p.m * p.n * 2 := Nat.mul_right_comm _ _ _
  rw [show p.fifo.length = p.m * p.n * 64 from p.whole, same]
  omega

theorem frame_inside {i : Nat} (low : i < p.m * 2) : 32 * (i * p.n + p.n) ≤ p.fifo.length := by
  have row : (i + 1) * p.n ≤ p.m * 2 * p.n := Nat.mul_le_mul_right _ low
  have whole := records_inside p
  rw [Nat.succ_mul] at row
  omega

section

variable {s : HpsdrPayload} {turn : Nat} (low : turn < 5) (header : s.headerOffset = 8 * turn)

include low header

theorem frames_closed :
    frames codec thetis s p =
      ⟨(List.range (p.m * 2)).foldl (fun m i => copy m (place i)
          (frameBytes codec thetis p (audioNext codec s p) turn (kNext codec s) i)) (numbered s p),
        8 * ((turn + p.m * 2) % 5), 32 * (p.m * 2 * p.n),
        onward codec (kNext codec s) (p.m * 2 * p.n)⟩ := by
  rw [frames, header, frames_eq _ _ low _ (records_inside p)]

/-- The frames leave the first eight bytes of a datagram. -/
theorem stored_early {d k size : Nat} (near : d * 1032 ≤ k) (far : k + size ≤ d * 1032 + 8) :
    stored (frames codec thetis s p).buffer k size = stored (numbered s p) k size := by
  rw [frames_closed low header]
  refine stored_foldl_copy_other _ _ fun i inside => ?_
  rw [frameBytes_length _ _ _ (frame_inside inside)]
  obtain ⟨e, rfl | rfl⟩ := i.even_or_odd'
  · rw [place_even]
    omega
  · rw [place_odd]
    omega

theorem stored_ids (d : Nat) :
    stored (frames codec thetis s p).buffer (d * 1032) 4 = stored s.buffer (d * 1032) 4 := by
  rw [stored_early low header (Nat.le_refl _) (by omega), numbered]
  refine stored_foldl_copy_other _ _ fun i _ => ?_
  rw [bigEndian_length]
  omega

theorem stored_number {d : Nat} (inside : d < p.m) :
    stored (frames codec thetis s p).buffer (d * 1032 + 4) 4 =
      bigEndian 4 (s.counter + BitVec.ofNat 32 d).toNat := by
  have self := @stored_foldl_copy_self s.buffer (fun i => i * 1032 + 4)
    (fun i => bigEndian 4 (s.counter + BitVec.ofNat 32 i).toNat) _ d inside
    fun j _ other => by
      rw [bigEndian_length, bigEndian_length]
      omega
  rw [bigEndian_length] at self
  rw [stored_early low header (d := d) (by omega) (by omega)]
  exact self

theorem stored_frame {i : Nat} (inside : i < p.m * 2) :
    stored (frames codec thetis s p).buffer (place i) 512 =
      frameBytes codec thetis p (audioNext codec s p) turn (kNext codec s) i := by
  have length (j : Nat) (inside : j < p.m * 2) :
      (frameBytes codec thetis p (audioNext codec s p) turn (kNext codec s) j).length = 512 :=
    frameBytes_length _ _ _ (frame_inside inside)
  have self := @stored_foldl_copy_self (numbered s p) place
    (frameBytes codec thetis p (audioNext codec s p) turn (kNext codec s)) _ i inside
    fun j inside' other => by
      rw [length i inside, length j inside']
      exact place_apart other
  rw [length i inside] at self
  rw [frames_closed low header]
  exact self

/-- A datagram of a pass where the header of the first frame is in turn at `turn`. -/
theorem stored_datagram {d : Nat} (ids : stored s.buffer (d * 1032) 4 = ident) (inside : d < p.m) :
    stored (frames codec thetis s p).buffer (d * 1032) 1032 =
      ident ++ (bigEndian 4 (s.counter + BitVec.ofNat 32 d).toNat ++
        (frameBytes codec thetis p (audioNext codec s p) turn (kNext codec s) (2 * d) ++
          frameBytes codec thetis p (audioNext codec s p) turn (kNext codec s) (2 * d + 1))) := by
  rw [show 1032 = 4 + (4 + (512 + 512)) from rfl, stored_add, stored_add, stored_add,
    stored_ids low header, ids, stored_number low header inside,
    show d * (4 + (4 + (512 + 512))) + 4 + 4 = place (2 * d) by rw [place_even],
    show place (2 * d) + 512 = place (2 * d + 1) by rw [place_even, place_odd],
    stored_frame low header (by omega), stored_frame low header (by omega)]

end

/-! ### Reading it back -/

theorem readHeard_slot {r k : Nat} (rest : List Byte) (inside : 32 * (r + 1) ≤ p.fifo.length) :
    readHeard p.receivers (slot codec thetis p audio r k ++ rest) =
      some (heard codec thetis p audio r k, rest) := by
  have each : ∀ item ∈ (List.range p.receivers).map (iq thetis (record p r)), ∀ rest,
      readBytes 6 (item ++ rest) = some (item, rest) := by
    intro item member rest
    obtain ⟨q, _, rfl⟩ := List.mem_map.mp member
    exact readBytes_append _ _ (iq_length (record_length inside) q)
  have block := readMany_count [] each
  rw [List.length_map, List.length_range, List.append_nil, List.flatMap_map] at block
  have length : ((List.range p.receivers).flatMap (iq thetis (record p r))).length =
      p.receivers * 6 :=
    flatMap_length _ fun q _ => iq_length (record_length inside) q
  rw [readHeard, slot, List.append_assoc, readBytes_append _ _ length]
  simp [readBytes_append, block, heard]

/-- Frame `i` as the host is to read it. -/
def told (codec thetis : Bool) (p : Pass) (audio : Nat → BitVec 32) (turn k i : Nat) : Frame :=
  ⟨control p ((turn + i) % 5) i, (List.range p.n).map fun j =>
    heard codec thetis p audio (i * p.n + j) (onward codec k (i * p.n + j))⟩

def Heard.bytes (h : Heard) : List Byte := h.iq.flatten ++ h.mic

theorem heard_bytes (r k : Nat) :
    (heard codec thetis p audio r k).bytes = slot codec thetis p audio r k := by
  rw [Heard.bytes, heard, slot, List.flatMap_def]

theorem told_samples (turn k i : Nat) :
    (told codec thetis p audio turn k i).samples.flatMap Heard.bytes =
      slots codec thetis p audio (onward codec k (i * p.n)) (i * p.n) p.n := by
  rw [told, List.flatMap_map, slots]
  refine List.flatMap_congr fun j _ => ?_
  rw [heard_bytes, onward_add]

theorem readFrame_frameBytes {turn k i : Nat} (rest : List Byte)
    (inside : 32 * (i * p.n + p.n) ≤ p.fifo.length) :
    readFrame p.receivers (frameBytes codec thetis p audio turn k i ++ rest) =
      some (told codec thetis p audio turn k i, rest) := by
  have fits : p.n * p.size ≤ 504 := Nat.div_mul_le_self 504 p.size
  have body : (slots codec thetis p audio (onward codec k (i * p.n)) (i * p.n) p.n ++
      List.replicate (504 - p.n * p.size) 0).length = 504 := by
    rw [List.length_append, slots_length inside, List.length_replicate]
    omega
  have each : ∀ item ∈ (told codec thetis p audio turn k i).samples, ∀ rest,
      readHeard p.receivers (item.bytes ++ rest) = some (item, rest) := by
    intro item member rest
    obtain ⟨j, low, rfl⟩ := List.mem_map.mp member
    have low := List.mem_range.mp low
    rw [heard_bytes, readHeard_slot rest (by omega)]
  have samples := readMany_count (List.replicate (504 - p.n * p.size) 0) each
  rw [told_samples, show (told codec thetis p audio turn k i).samples.length = p.n by
    simp [told]] at samples
  have sync (rest : List Byte) :
      readBytes 3 ([127, 127, 127] ++ rest) = some ([127, 127, 127], rest) :=
    readBytes_append _ _ rfl
  rw [readFrame, frameBytes, List.append_assoc, List.append_assoc, sync]
  simp only [Option.bind_eq_bind, Option.bind_some]
  rw [readBytes_append _ _ (control_length _ _)]
  simp only [Option.bind_some]
  rw [readBytes_append _ _ body]
  simp only [Option.bind_some]
  rw [show 504 / (p.receivers * 6 + 2) = p.n from rfl, samples, if_pos trivial]
  rfl

/-! ### Over the passes -/

def count (past : List Tick) : Nat := (past.map fun c => c.pins.m).sum

theorem count_snoc (past : List Tick) (c : Tick) : count (past ++ [c]) = count past + c.pins.m := by
  simp [count]

/-- Where the numbers and the headers are after as many datagrams as have been sent. -/
structure Tells (past : List Tick) (s : HpsdrPayload) : Prop where
  ids : ∀ d < 25, stored s.buffer (d * 1032) 4 = ident
  counter : s.counter = BitVec.ofNat 32 (count past)
  header : s.headerOffset = 8 * (2 * count past % 5)

theorem Pass.m_le (p : Pass) : p.m ≤ 25 := by
  obtain ⟨receivers, _, _, _, _, _, least, most, _⟩ := p
  unfold m n size
  dsimp only
  interval_cases receivers <;> decide

theorem run_slip {past : List Tick} {s : HpsdrPayload} (run : (circuit codec thetis).Run past s) :
    Tells past s := by
  induction run with
  | reset h =>
    obtain ⟨ids, header, counter, _⟩ := h
    exact ⟨ids, counter, header⟩
  | @tick past s run p ih =>
    obtain ⟨ids, counter, header⟩ := ih
    have low : 2 * count past % 5 < 5 := Nat.mod_lt _ (by decide)
    refine ⟨fun d inside => ?_, ?_, ?_⟩
    · exact (stored_ids low header d).trans (ids d inside)
    · show s.counter + BitVec.ofNat 32 p.m = _
      rw [counter, count_snoc, BitVec.ofNat_add]
    · show (frames codec thetis s p).headerOffset = _
      rw [frames_closed low header, count_snoc]
      dsimp only
      omega

theorem readDatagram_sent {past : List Tick} {s : HpsdrPayload} (tells : Tells past s) {d : Nat}
    (inside : d < p.m) :
    readDatagram p.receivers (stored (pass codec thetis s p).buffer (d * 1032) 1032) =
      some ⟨(count past + d) % 2 ^ 32,
        [told codec thetis p (audioNext codec s p) (2 * count past % 5) (kNext codec s) (2 * d),
          told codec thetis p (audioNext codec s p) (2 * count past % 5) (kNext codec s)
            (2 * d + 1)]⟩ := by
  obtain ⟨ids, counter, header⟩ := tells
  have low : 2 * count past % 5 < 5 := Nat.mod_lt _ (by decide)
  have most := p.m_le
  have number : (s.counter + BitVec.ofNat 32 d).toNat = (count past + d) % 2 ^ 32 := by
    rw [counter, ← BitVec.ofNat_add, BitVec.toNat_ofNat]
  have fits : (count past + d) % 2 ^ 32 < 256 ^ 4 := Nat.mod_lt _ (by decide)
  have first := @readFrame_frameBytes codec thetis p (audioNext codec s p) (2 * count past % 5)
    (kNext codec s) (2 * d)
  have second := @readFrame_frameBytes codec thetis p (audioNext codec s p) (2 * count past % 5)
    (kNext codec s) (2 * d + 1) [] (frame_inside (by omega))
  rw [List.append_nil] at second
  have id (rest : List Byte) : readBytes 4 (ident ++ rest) = some (ident, rest) :=
    readBytes_append _ _ rfl
  rw [readDatagram, show (pass codec thetis s p).buffer = (frames codec thetis s p).buffer from rfl,
    stored_datagram low header (ids d (by omega)) inside, number, id]
  simp only [Option.bind_eq_bind, Option.bind_some]
  rw [readNumber_append _ fits]
  simp only [Option.bind_some]
  rw [first _ (frame_inside (by omega))]
  simp only [Option.bind_some]
  rw [second]
  rfl

/-- The frames of a pass are read as they are to be, two a datagram, and so are their samples. -/
theorem frames_told (turn k : Nat) :
    ((List.range p.m).flatMap fun d =>
        [told codec thetis p audio turn k (2 * d), told codec thetis p audio turn k (2 * d + 1)]) =
      (List.range (p.m * 2)).map (told codec thetis p audio turn k) := by
  rw [Nat.mul_comm, map_range_mul]
  rfl

theorem samples_told (turn k frames : Nat) :
    ((List.range frames).map (told codec thetis p audio turn k)).flatMap (·.samples) =
      (List.range (frames * p.n)).map fun r =>
        heard codec thetis p audio r (onward codec k r) := by
  rw [Nat.mul_comm, map_range_mul, List.flatMap_map]
  refine List.flatMap_congr fun i _ => ?_
  rw [told, Nat.mul_comm]

theorem turns_length (past : List Tick) : (past.flatMap turns).length = 2 * count past := by
  induction past using List.reverseRecOn with
  | nil => rfl
  | append_singleton past c ih =>
    rw [flatMap_snoc, List.length_append, ih, count_snoc, turns, List.length_map, List.length_range]
    omega

/-- The host reads every datagram of every run: the numbers go up by one from 0, the headers come in
turn with what the sensors say then, and the samples of all receivers in all records are there, each
once and in order. -/
theorem run_decodes {past : List Tick} {s : HpsdrPayload}
    (run : (circuit codec thetis).Run past s) :
    ∃ datagrams : List Datagram,
      received codec thetis past = datagrams.map some ∧
        datagrams.map (·.number) = (List.range datagrams.length).map (· % 2 ^ 32) ∧
        (datagrams.flatMap (·.frames)).map (·.control) =
          (past.flatMap turns).mapIdx (fun f turn => control turn.1 (f % 5) turn.2) ∧
        (datagrams.flatMap (·.frames)).flatMap (·.samples) = past.flatMap (taken codec thetis) := by
  suffices counted : ∃ datagrams : List Datagram,
      datagrams.length = count past ∧ received codec thetis past = datagrams.map some ∧
        datagrams.map (·.number) = (List.range (count past)).map (· % 2 ^ 32) ∧
        (datagrams.flatMap (·.frames)).map (·.control) =
          (past.flatMap turns).mapIdx (fun f turn => control turn.1 (f % 5) turn.2) ∧
        (datagrams.flatMap (·.frames)).flatMap (·.samples) = past.flatMap (taken codec thetis) by
    obtain ⟨datagrams, length, rest⟩ := counted
    rw [← length] at rest
    exact ⟨datagrams, rest⟩
  induction run with
  | reset h => exact ⟨[], rfl, rfl, rfl, rfl, rfl⟩
  | @tick past s run p ih =>
    obtain ⟨datagrams, length, read, numbers, controls, samples⟩ := ih
    have tells := run_slip run
    let next (d : Nat) : Datagram := ⟨(count past + d) % 2 ^ 32,
      [told codec thetis p (audioNext codec s p) (2 * count past % 5) (kNext codec s) (2 * d),
        told codec thetis p (audioNext codec s p) (2 * count past % 5) (kNext codec s)
          (2 * d + 1)]⟩
    have frames : ((List.range p.m).map next).flatMap (·.frames) = (List.range (p.m * 2)).map
        (told codec thetis p (audioNext codec s p) (2 * count past % 5) (kNext codec s)) := by
      rw [List.flatMap_map]
      exact frames_told _ _
    refine ⟨datagrams ++ (List.range p.m).map next, ?_, ?_, ?_, ?_, ?_⟩
    · rw [List.length_append, length, List.length_map, List.length_range, count_snoc]
    · rw [received, flatMap_snoc, List.map_append, ← read, received, sent, List.map_map,
        List.map_map]
      refine congrArg _ (List.map_congr_left fun d inside => ?_)
      exact readDatagram_sent tells (List.mem_range.mp inside)
    · rw [List.map_append, numbers, count_snoc, List.range_add, List.map_append, List.map_map,
        List.map_map]
      rfl
    · rw [List.flatMap_append, List.map_append, controls, frames, flatMap_snoc, List.mapIdx_append,
        turns_length, List.map_map]
      refine congrArg _ (List.ext_getElem (by simp [turns]) fun i _ _ => ?_)
      simp [turns, told, Nat.add_comm]
    · rw [List.flatMap_append, List.flatMap_append, samples, frames, samples_told, flatMap_snoc]
      rfl

/-- One receiver, and a key that is down. -/
def keyed : Pass where
  receivers := 1
  fifo := (List.range (taking 1)).map (BitVec.ofNat 8)
  codec _ := 0
  reload := 0
  rate _ := 0
  sensors i := ⟨4, 1, 8, 16, BitVec.ofNat 32 (8 * i), 24⟩
  least := Nat.le_refl 1
  most := by decide
  whole := by rw [List.length_map, List.length_range]

def start : HpsdrPayload where
  buffer a := ident.getD (a % 1032) 0
  headerOffset := 0
  counter := 0
  rateCounter := 1
  k := 0
  audio _ := 0

theorem start_reset : (circuit codec thetis).Reset start :=
  ⟨by decide, rfl, rfl, ⟨0, rfl⟩, rfl, fun _ _ => rfl⟩

theorem run_decodes_keyed :
    ∃ datagrams : List Datagram,
      received false false ((circuit false false).trace start [keyed, keyed]) =
          datagrams.map some ∧
        datagrams.map (·.number) = [0, 1, 2, 3, 4, 5, 6, 7] ∧
        (datagrams.flatMap (·.frames)).map (·.control) =
          [[5, 0, 33, 17, 21], [13, 0, 0, 0, 1], [21, 0, 1, 0, 2], [29, 0, 3, 0, 0],
            [37, 66, 66, 66, 66], [5, 0, 33, 17, 21], [13, 0, 0, 0, 6], [21, 0, 1, 0, 2],
            [29, 0, 3, 0, 0], [37, 66, 66, 66, 66], [5, 0, 33, 17, 21], [13, 0, 0, 0, 3],
            [21, 0, 1, 0, 2], [29, 0, 3, 0, 0], [37, 66, 66, 66, 66], [5, 0, 33, 17, 21]] := by
  obtain ⟨datagrams, read, numbers, controls, _⟩ :=
    run_decodes ((circuit false false).run_trace start_reset [keyed, keyed])
  have length : datagrams.length = 8 := by
    have same := congrArg List.length read
    rw [List.length_map] at same
    exact same.symm.trans rfl
  refine ⟨datagrams, read, ?_, ?_⟩
  · rw [numbers, length]
    rfl
  · rw [controls]
    rfl

end HpsdrPayload

end Switcheck
