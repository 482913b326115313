import Mathlib.Data.List.Forall2
import Switcheck.Ft8.Datagram

/-!
# What `upload-to-pskreporter` sends

The loop keeps the header and the station where they are and puts the records of a batch behind
them. All writes are inside the buffer exactly when every datagram fits.
-/

namespace Switcheck

open Sync

namespace PskReporter

structure Conforms (s : Upload) (lines : List Reception) : Prop where
  inside : ∀ write ∈ s.writes, write.1 + write.2 ≤ 512
  wellFormed : ∀ datagram ∈ s.sent, WellFormed datagram
  receptions : s.sent.flatMap receptions = lines

/-- The `k`-th ten. -/
def nthTen {α : Type} (items : List α) (k : Nat) : List α := (items.drop (10 * k)).take 10

/-- A datagram with ten records, or fewer at the end, is no longer than the buffer. -/
def Fits (call grid antenna : List Byte) (lines : List Reception) : Prop :=
  ∀ k, 120 + (stationSize call grid antenna + padding (stationSize call grid antenna)) +
    (recordsSize (nthTen lines k) + padding (recordsSize (nthTen lines k))) ≤ 512

variable {s s' s'' : Upload} {bytes first second call grid antenna : List Byte} {system : System}
  {station : IpfixSet} {pending : List Reception} {batches : List (List Reception)}
  {time sequence : BitVec 32}

/-! ### Batches -/

/-- Where the items are full tens and a rest, these are the batches. -/
theorem nthTen_flatten {α : Type} {tens : List (List α)} {rest : List α}
    (full : ∀ ten ∈ tens, ten.length = 10) (few : rest.length ≤ 10) (k : Nat) :
    nthTen (tens.flatten ++ rest) k = (tens ++ [rest]).getD k [] := by
  induction tens generalizing k with
  | nil =>
    cases k with
    | zero => simp [nthTen, List.take_of_length_le few]
    | succ k =>
      rw [nthTen, List.drop_of_length_le (by simp; omega)]
      simp
  | cons ten tens ih =>
    obtain ⟨here, later⟩ := List.forall_mem_cons.mp full
    cases k with
    | zero => simp [nthTen, here]
    | succ k =>
      rw [List.cons_append, List.getD_cons_succ, ← ih later k, nthTen, nthTen, List.flatten_cons,
        List.append_assoc, List.drop_append, List.drop_of_length_le (by omega), List.nil_append,
        show 10 * (k + 1) - ten.length = 10 * k by omega]

theorem forall_nthTen {α : Type} {P : List α → Prop} {tens : List (List α)} {rest : List α}
    (full : ∀ ten ∈ tens, ten.length = 10) (few : rest.length ≤ 10) (none : P []) :
    (∀ k, P (nthTen (tens.flatten ++ rest) k)) ↔ (∀ ten ∈ tens, P ten) ∧ P rest := by
  have each : (∀ k, P (nthTen (tens.flatten ++ rest) k)) ↔ ∀ ten ∈ tens ++ [rest], P ten := by
    constructor
    · intro all ten member
      obtain ⟨k, inside, rfl⟩ := List.getElem_of_mem member
      have here := all k
      rwa [nthTen_flatten full few, List.getD_eq_getElem _ _ inside] at here
    · intro all k
      rw [nthTen_flatten full few]
      by_cases inside : k < (tens ++ [rest]).length
      · rw [List.getD_eq_getElem _ _ inside]
        exact all _ (List.getElem_mem inside)
      · rwa [List.getD_eq_default _ _ (Nat.le_of_not_lt inside)]
  rw [each, List.forall_mem_append, List.forall_mem_singleton]

/-! ### Writes -/

def Within (bound : Nat) (s : Upload) : Prop := ∀ write ∈ s.writes, write.1 + write.2 ≤ bound

/-- The bytes are written at `dst`, which moves past them. -/
structure Puts (bytes : List Byte) (s s' : Upload) : Prop where
  buffer : s'.buffer = copy s.buffer s.dst bytes
  dst : s'.dst = s.dst + bytes.length
  start : s'.start = s.start
  counter : s'.counter = s.counter
  sequence : s'.sequence = s.sequence
  sent : s'.sent = s.sent
  within : ∀ bound, Within bound s' ↔ Within bound s ∧ s.dst + bytes.length ≤ bound

theorem within_write {bound offset : Nat} :
    Within bound (s.write offset bytes) ↔ Within bound s ∧ offset + bytes.length ≤ bound := by
  simp only [Within, Upload.write, List.forall_mem_append, List.forall_mem_singleton]

theorem put_puts (s : Upload) (bytes : List Byte) : Puts bytes s (s.put bytes) :=
  ⟨rfl, rfl, rfl, rfl, rfl, rfl, fun _ => within_write⟩

theorem Puts.trans (before : Puts first s s') (after : Puts second s' s'') :
    Puts (first ++ second) s s'' := by
  refine ⟨?_, ?_, after.start.trans before.start, after.counter.trans before.counter,
    after.sequence.trans before.sequence, after.sent.trans before.sent, fun bound => ?_⟩
  · rw [after.buffer, before.buffer, before.dst, copy_append]
  · rw [after.dst, before.dst, List.length_append, Nat.add_assoc]
  · rw [after.within, before.within, before.dst, List.length_append, and_assoc]
    refine and_congr_right fun _ => ?_
    omega

theorem copyChar_puts (s : Upload) (value : List Byte) : Puts (text value) s (s.copyChar value) :=
  (put_puts s _).trans (put_puts _ _)

theorem copyInt2_puts {value : BitVec 16} {n : Nat} (s : Upload) (same : value.toNat = n) :
    Puts (bigEndian 2 n) s (s.copyInt2 value) := by
  subst same
  exact put_puts s _

theorem copyReception_puts (s : Upload) (r : Reception) : Puts r.write s (s.copyReception r) := by
  refine (copyChar_puts s r.call).trans ?_
  refine (copyChar_puts _ r.grid).trans ?_
  refine (put_puts _ (bigEndian 4 r.freq.toNat)).trans ?_
  refine (put_puts _ (bigEndian 1 r.snr.toNat)).trans ?_
  refine (copyChar_puts _ ft8).trans ?_
  exact (put_puts _ (bigEndian 1 1)).trans (put_puts _ (bigEndian 4 r.time.toNat))

/-- A part of the buffer that a write does not touch. -/
theorem Puts.stored_other {offset size : Nat} (puts : Puts bytes s s')
    (apart : offset + size ≤ s.dst ∨ s.dst + bytes.length ≤ offset) :
    stored s'.buffer offset size = stored s.buffer offset size := by
  rw [puts.buffer]
  exact stored_copy_other apart

theorem Puts.stored_self (puts : Puts bytes s s') :
    stored s'.buffer s.dst bytes.length = bytes := by
  rw [puts.buffer]
  exact stored_copy_self _ _ _

/-! ### Sets -/

/-- The bytes from `start` to `dst` are the header of a set, not yet written, and its `body`. -/
structure Open (body : List Byte) (s : Upload) : Prop where
  dst : s.dst = s.start + 4 + body.length
  body : stored s.buffer (s.start + 4) body.length = body

theorem Open.puts {body : List Byte} (opened : Open body s) (puts : Puts bytes s s') :
    Open (body ++ bytes) s' := by
  obtain ⟨dst, stored⟩ := opened
  refine ⟨?_, ?_⟩
  · rw [puts.dst, dst, puts.start, List.length_append, Nat.add_assoc]
  · have self := puts.stored_self
    rw [dst] at self
    rw [List.length_append, stored_add, puts.start, self, puts.stored_other (.inl (by omega)),
      stored]

theorem Open.size {body : List Byte} (opened : Open body s) (id : BitVec 16) :
    s.size = (padSet id body).length := by
  rw [padSet_length, Upload.size, opened.dst, show s.start + 4 + body.length - s.start =
    4 + body.length by omega]

/-- What `closeSet` leaves: the set from `start` on, and the bytes before it as they were. -/
structure Closed (set : IpfixSet) (s s' : Upload) : Prop where
  written : stored s'.buffer s.start set.length = set.write
  before : ∀ offset size, offset + size ≤ s.start →
    stored s'.buffer offset size = stored s.buffer offset size
  dst : s'.dst = s.start + 4
  start : s'.start = s.start
  counter : s'.counter = s.counter
  sequence : s'.sequence = s.sequence
  sent : s'.sent = s.sent
  within : ∀ bound, Within bound s' ↔ Within bound s ∧ s.start + set.length ≤ bound

theorem closeSet_closed {body : List Byte} (opened : Open body s) (id : BitVec 16)
    (short : (padSet id body).length < 65536) :
    Closed (padSet id body) s (s.closeSet id) := by
  have size := opened.size id
  have long := padSet_length id body
  obtain ⟨dst, kept⟩ := opened
  have sizes : s.dst - s.start = 4 + body.length := by omega
  let zeros : List Byte := List.replicate (padding (4 + body.length)) 0
  have padding : zeros.length = PskReporter.padding (4 + body.length) := List.length_replicate
  let padded : Upload := { s.write s.dst zeros with dst := s.start }
  have heads : Puts (bigEndian 2 id.toNat ++ bigEndian 2 (padSet id body).length) padded
      (s.closeSet id) := by
    have puts := (put_puts padded (bigEndian 2 id.toNat)).trans
      (put_puts _ (bigEndian 2 (BitVec.ofNat 16 s.size).toNat))
    have same : s.closeSet id = (padded.put (bigEndian 2 id.toNat)).put
        (bigEndian 2 (BitVec.ofNat 16 s.size).toNat) := by
      simp only [Upload.closeSet, sizes]
      rfl
    rw [same]
    rwa [BitVec.toNat_ofNat, size, Nat.mod_eq_of_lt (show _ < 2 ^ 16 from short)] at puts ⊢
  have four : (bigEndian 2 id.toNat ++ bigEndian 2 (padSet id body).length).length = 4 := by simp
  refine ⟨?_, fun offset size inside => ?_, ?_, heads.start, heads.counter, heads.sequence,
    heads.sent, fun bound => ?_⟩
  · have self := heads.stored_self
    rw [four] at self
    have middle : stored (s.closeSet id).buffer (s.start + 4) body.length = body := by
      rw [heads.stored_other (.inr (Nat.le_of_eq (congrArg (s.start + ·) four)))]
      rw [show padded.buffer = copy s.buffer s.dst zeros from rfl,
        stored_copy_other (.inl (by omega)), kept]
    have last : stored (s.closeSet id).buffer (s.start + 4 + body.length) zeros.length = zeros := by
      rw [heads.stored_other (.inr (by rw [four]; exact Nat.le_add_right _ _)), ← dst]
      exact stored_copy_self _ _ _
    rw [long, ← padding, stored_add, stored_add, ← Nat.add_assoc, last, middle]
    rw [show stored _ s.start 4 = _ from self, IpfixSet.write]
    simp [padSet, zeros]
  · rw [heads.stored_other (.inl inside)]
    exact stored_copy_other (.inl (by omega))
  · rw [heads.dst, four]
  · rw [heads.within, four, show Within bound padded ↔ _ from within_write, dst, long, padding,
      and_assoc]
    refine and_congr_right fun _ => ?_
    show _ ∧ s.start + 4 ≤ bound ↔ _
    omega

/-! ### The loop -/

/-- The datagrams of the `batches` are sent, and the records that are `pending` stand behind the
place of their set's header. -/
structure Running (system : System) (station : IpfixSet) (batches : List (List Reception))
    (pending : List Reception) (s : Upload) : Prop where
  start : s.start = 120 + station.length
  version : stored s.buffer 0 2 = bigEndian 2 10
  front : stored s.buffer 12 (108 + station.length) =
    bigEndian 4 system.rand.toNat ++ (frontSets station).flatMap IpfixSet.write
  opened : Open (recordsBody pending) s
  counter : s.counter = pending.length
  sent : List.Forall₂ (fun datagram batch => ∃ time sequence,
    datagram = (message system station time sequence batch).write) s.sent batches
  within : ∀ bound, Within bound s ↔ s.start ≤ bound ∧
    (∀ batch ∈ batches, s.start + (recordSet batch).length ≤ bound) ∧
    (pending ≠ [] → s.dst ≤ bound)

theorem running_record (running : Running system station batches pending s) (r : Reception) :
    Running system station batches (pending ++ [r])
      { s.copyReception r with counter := (s.copyReception r).counter + 1 } := by
  obtain ⟨start, version, front, opened, counter, sent, within⟩ := running
  have puts := copyReception_puts s r
  have dst := opened.dst
  have body : recordsBody (pending ++ [r]) = recordsBody pending ++ r.write := by
    simp [recordsBody]
  have onward : Open (recordsBody (pending ++ [r])) (s.copyReception r) := by
    rw [body]
    exact opened.puts puts
  have size := r.write_length
  refine ⟨puts.start.trans start, ?_, ?_, ⟨onward.dst, onward.body⟩, ?_, ?_, fun bound => ?_⟩
  · rw [← version]
    exact puts.stored_other (.inl (by omega))
  · rw [← front]
    exact puts.stored_other (.inl (by omega))
  · rw [List.length_append, List.length_singleton, ← counter, ← puts.counter]
  · show List.Forall₂ _ (s.copyReception r).sent _
    rwa [puts.sent]
  · show Within bound (s.copyReception r) ↔ (s.copyReception r).start ≤ bound ∧
      (∀ batch ∈ batches, (s.copyReception r).start + _ ≤ bound) ∧
      (_ → (s.copyReception r).dst ≤ bound)
    rw [puts.within, within, puts.start, puts.dst]
    constructor
    · rintro ⟨⟨below, sets, -⟩, last⟩
      exact ⟨below, sets, fun _ => last⟩
    · rintro ⟨below, sets, last⟩
      have fits := last (List.append_ne_nil_of_right_ne_nil _ (List.cons_ne_nil r []))
      exact ⟨⟨below, sets, fun _ => by omega⟩, fits⟩

/-- Neither a set nor the ten bytes of the header that change touch the others before `start`. -/
theorem header_kept {set : IpfixSet} (running : Running system station batches pending s)
    (closed : Closed set s s') (puts : Puts bytes { s' with dst := 2 } s'')
    (ten : bytes.length = 10) :
    stored s''.buffer 0 2 = bigEndian 2 10 ∧
      stored s''.buffer 12 (108 + station.length) =
        bigEndian 4 system.rand.toNat ++ (frontSets station).flatMap IpfixSet.write := by
  have start := running.start
  refine ⟨?_, ?_⟩
  · rw [puts.stored_other (.inl (Nat.le_refl 2)), ← running.version]
    exact closed.before 0 2 (by omega)
  · rw [puts.stored_other (.inr (ten.symm ▸ Nat.le_refl 12)), ← running.front]
    exact closed.before 12 _ (by omega)

/-- The lengths, the time and the number of the datagram go into the header. -/
theorem flush_message (running : Running system station batches pending s)
    (closed : Closed (recordSet pending) s s') (puts : Puts (bigEndian 2
      (16 + (message system station time sequence pending).body.length) ++
        (bigEndian 4 time.toNat ++ bigEndian 4 sequence.toNat)) { s' with dst := 2 } s'') :
    stored s''.buffer 0 ((recordSet pending).length + (120 + station.length)) =
      (message system station time sequence pending).write := by
  have ten : (bigEndian 2 (16 + (message system station time sequence pending).body.length) ++
      (bigEndian 4 time.toNat ++ bigEndian 4 sequence.toNat)).length = 10 := by simp
  obtain ⟨version, front⟩ := header_kept running closed puts ten
  have self := puts.stored_self
  rw [ten] at self
  have last : stored s''.buffer (120 + station.length) (recordSet pending).length =
      (recordSet pending).write := by
    have behind : 2 + 10 ≤ 120 + station.length := by omega
    rw [puts.stored_other (.inr (ten.symm ▸ behind)), ← running.start]
    exact closed.written
  rw [show (recordSet pending).length + (120 + station.length) =
      2 + (10 + (108 + station.length + (recordSet pending).length)) by omega,
    stored_add, stored_add, stored_add, version, show 0 + 2 + 10 + (108 + station.length) =
      120 + station.length by omega, last]
  rw [show stored s''.buffer (0 + 2) 10 = _ from self,
    show stored s''.buffer (0 + 2 + 10) _ = _ from front, IpfixMessage.write, message_body]
  simp [message]

/-- After the set, `flush` writes three fields of the header and sends what is before `total`. -/
theorem flush_puts {total : Nat} (system : System) (counted : 0 < s.counter)
    (sum : s.size + s.start = total) (short : total < 65536) :
    ∃ u, s.flush system = { u with
        sent := s.sent ++ [stored u.buffer 0 total]
        counter := 0
        sequence := s.sequence + 1
        dst := s.start + 4 } ∧
      Puts (bigEndian 2 total ++ (bigEndian 4 (system.time s.sent.length).toNat ++
        bigEndian 4 s.sequence.toNat)) { s.closeSet 0x9993 with dst := 2 } u := by
  obtain rfl := sum
  let closed : Upload := { s.closeSet 0x9993 with dst := 2 }
  have length : (BitVec.ofNat 16 (s.size + s.start)).toNat = s.size + s.start := by
    rw [BitVec.toNat_ofNat, Nat.mod_eq_of_lt short]
  refine ⟨((closed.copyInt2 (BitVec.ofNat 16 (s.size + s.start))).copyInt4
    (system.time s.sent.length)).copyInt4 s.sequence, ?_, ?_⟩
  · rw [Upload.flush, if_pos counted]
    rfl
  · refine (copyInt2_puts closed length).trans ?_
    exact (put_puts _ (bigEndian 4 (system.time s.sent.length).toNat)).trans
      (put_puts _ (bigEndian 4 s.sequence.toNat))

theorem running_flush (running : Running system station batches pending s) (some : pending ≠ [])
    (few : pending.length ≤ 10) (small : station.length ≤ 120) :
    Running system station (batches ++ [pending]) [] (s.flush system) := by
  have short := recordSet_short few
  have size : s.size = (recordSet pending).length := running.opened.size 0x9993
  have closed : Closed (recordSet pending) s (s.closeSet 0x9993) :=
    closeSet_closed running.opened 0x9993 (Nat.lt_trans short (by decide))
  have counted : 0 < s.counter := running.counter ▸ List.length_pos_iff.mpr some
  have start := running.start
  have dst := running.opened.dst
  have total : 16 + (message system station (system.time s.sent.length) s.sequence
      pending).body.length = s.size + s.start := by
    rw [message_length, size, start]
  obtain ⟨u, flushed, puts⟩ := flush_puts system counted total.symm (by omega)
  have datagram := flush_message running closed puts
  rw [← message_length system station (system.time s.sent.length) s.sequence pending] at datagram
  have same : u.start = s.start := puts.start.trans closed.start
  rw [flushed]
  have ten : (bigEndian 2 (16 + (message system station (system.time s.sent.length) s.sequence
      pending).body.length) ++ (bigEndian 4 (system.time s.sent.length).toNat ++
        bigEndian 4 s.sequence.toNat)).length = 10 := by simp
  obtain ⟨version, front⟩ := header_kept running closed puts ten
  refine ⟨same.trans start, version, front, ⟨?_, rfl⟩, rfl, ?_, fun bound => ?_⟩
  · exact congrArg (· + 4) same.symm
  · exact List.rel_append running.sent (.cons ⟨_, _, datagram⟩ .nil)
  · show Within bound u ↔ u.start ≤ bound ∧
      (∀ batch ∈ batches ++ [pending], u.start + _ ≤ bound) ∧ _
    have long := padSet_length 0x9993 (recordsBody pending)
    rw [puts.within, ten, same, List.forall_mem_append, List.forall_mem_singleton]
    show Within bound (s.closeSet 0x9993) ∧ 2 + 10 ≤ bound ↔ _
    rw [closed.within, running.within]
    constructor
    · rintro ⟨⟨⟨below, sets, -⟩, last⟩, -⟩
      exact ⟨below, ⟨sets, last⟩, fun none => absurd rfl none⟩
    · rintro ⟨below, ⟨sets, last⟩, -⟩
      refine ⟨⟨⟨below, sets, fun _ => ?_⟩, last⟩, by omega⟩
      rw [recordSet, long] at last
      omega

theorem header_rand_length (rand : BitVec 32) :
    (header.take 12 ++ bigEndian 4 rand.toNat ++ header.drop 16).length = 120 := by
  simp only [List.length_append, bigEndian_length]
  rfl

/-- The header with the random number in it. -/
theorem header_stored (memory : Nat → Byte) (rand : BitVec 32) :
    stored (copy memory 0 (header.take 12 ++ bigEndian 4 rand.toNat ++ header.drop 16)) 0 2 =
      bigEndian 2 10 ∧
    stored (copy memory 0 (header.take 12 ++ bigEndian 4 rand.toNat ++ header.drop 16)) 12 108 =
      bigEndian 4 rand.toNat ++ header.drop 16 := by
  have whole := stored_copy_self memory 0
    (header.take 12 ++ bigEndian 4 rand.toNat ++ header.drop 16)
  have parts : header.take 12 ++ bigEndian 4 rand.toNat ++ header.drop 16 =
      bigEndian 2 10 ++ (List.replicate 10 0 ++ (bigEndian 4 rand.toNat ++ header.drop 16)) := by
    rw [List.append_assoc, ← List.append_assoc (bigEndian 2 10)]
    rfl
  rw [header_rand_length, show 120 = 2 + (10 + 108) from rfl, stored_add, stored_add] at whole
  obtain ⟨version, rest⟩ := List.append_inj (whole.trans parts) (by simp)
  exact ⟨version, (List.append_inj rest (by simp)).2⟩

theorem stationSize_le (shortCall : call.length ≤ 16) (shortGrid : grid.length ≤ 6)
    (shortAntenna : antenna.length ≤ 64) : stationSize call grid antenna ≤ 116 := by
  rw [stationSize, show soft.length = 22 from rfl]
  omega

theorem stationSet_small (shortCall : call.length ≤ 16) (shortGrid : grid.length ≤ 6)
    (shortAntenna : antenna.length ≤ 64) : (stationSet call grid antenna).length ≤ 120 := by
  have le := stationSize_le shortCall shortGrid shortAntenna
  have pad := padding_lt (stationSize call grid antenna)
  rw [stationSet_length]
  omega

/-- The buffer with the header. -/
def headed (system : System) : Upload :=
  { (Upload.mk system.stack [] 0 0 0 0 []).write 0
      (header.take 12 ++ bigEndian 4 system.rand.toNat ++ header.drop 16) with
    start := 120
    dst := 124 }

theorem setUp_puts (system : System) (call grid antenna : List Byte) :
    ∃ t, Puts (stationBody call grid antenna) (headed system) t ∧
      Upload.setUp system call grid antenna = { t.closeSet 0x9992 with
        start := (t.closeSet 0x9992).start + t.size
        counter := 0
        sequence := 0
        dst := (t.closeSet 0x9992).start + t.size + 4 } := by
  refine ⟨_, (((copyChar_puts _ call).trans (copyChar_puts _ grid)).trans
    (copyChar_puts _ soft)).trans (copyChar_puts _ antenna), ?_⟩
  simp only [Upload.setUp, header_length]
  rfl

theorem setUp_running (system : System) (small : (stationSet call grid antenna).length ≤ 120) :
    Running system (stationSet call grid antenna) [] []
      (Upload.setUp system call grid antenna) := by
  obtain ⟨t, puts, same⟩ := setUp_puts system call grid antenna
  have none : Open [] (headed system) := ⟨rfl, rfl⟩
  have opened : Open (stationBody call grid antenna) t := none.puts puts
  have size : t.size = (stationSet call grid antenna).length := opened.size 0x9992
  have closed : Closed (stationSet call grid antenna) t (t.closeSet 0x9992) :=
    closeSet_closed opened 0x9992 (Nat.lt_of_le_of_lt small (by decide))
  have start : t.start = 120 := puts.start
  have dst : (headed system).dst = 124 := rfl
  have long := stationSet_length call grid antenna
  have body := stationBody_length call grid antenna
  obtain ⟨version, front⟩ := header_stored system.stack system.rand
  rw [same, closed.start, start, size]
  refine ⟨rfl, ?_, ?_, ⟨rfl, rfl⟩, rfl, ?_, fun bound => ?_⟩
  · show stored (t.closeSet 0x9992).buffer 0 2 = _
    rw [closed.before 0 2 (by omega), puts.stored_other (.inl (by omega))]
    exact version
  · show stored (t.closeSet 0x9992).buffer 12 _ = _
    have written := closed.written
    rw [start] at written
    rw [stored_add, closed.before 12 108 (by omega), puts.stored_other (.inl (by omega)),
      show stored (headed system).buffer 12 108 = _ from front, written, header_sets]
    simp [frontSets]
  · rw [show (t.closeSet 0x9992).sent = [] from closed.sent.trans puts.sent]
    exact .nil
  · show Within bound (t.closeSet 0x9992) ↔ _
    have headers : Within bound (headed system) ↔ 120 ≤ bound := by
      have written : Within bound (headed system) ↔ True ∧ 0 + _ ≤ bound :=
        within_write.trans (and_congr_left' (iff_true_intro (List.forall_mem_nil _)))
      rw [written, header_rand_length, true_and]
    rw [closed.within, puts.within, headers, start]
    show (_ ∧ 124 + _ ≤ bound) ∧ _ ↔ 120 + (stationSet call grid antenna).length ≤ bound ∧ _
    constructor
    · rintro ⟨-, last⟩
      exact ⟨last, List.forall_mem_nil _, fun none => absurd rfl none⟩
    · rintro ⟨last, -⟩
      exact ⟨⟨by omega, by omega⟩, last⟩

/-- The lines so far are those of full batches and of fewer than ten that are pending. -/
def Reads (system : System) (station : IpfixSet) (lines : List Reception) (s : Upload) : Prop :=
  ∃ batches pending, Running system station batches pending s ∧
    (∀ batch ∈ batches, batch.length = 10) ∧ pending.length < 10 ∧
    batches.flatten ++ pending = lines

theorem reads_turn {lines : List Reception} (small : station.length ≤ 120)
    (reads : Reads system station lines s) (line : List Byte) :
    Reads system station (lines ++ (readLine system.library line).toList)
      (s.turn system (some line)) := by
  obtain ⟨batches, pending, running, full, few, whole⟩ := reads
  rw [Upload.turn]
  cases readLine system.library line with
  | none => exact ⟨batches, pending, running, full, few, whole.trans (List.append_nil _).symm⟩
  | some r =>
    have onward := running_record running r
    have length : (pending ++ [r]).length = pending.length + 1 := by simp
    have count : (s.copyReception r).counter + 1 = pending.length + 1 :=
      onward.counter.trans length
    dsimp only
    split
    · rename_i fewer
      refine ⟨batches, pending ++ [r], onward, full, by omega, ?_⟩
      rw [← whole, List.append_assoc]
      rfl
    · rename_i ten
      have tenth : (pending ++ [r]).length = 10 := by omega
      have flushed := running_flush onward (List.append_ne_nil_of_right_ne_nil _
        (List.cons_ne_nil r [])) (Nat.le_of_eq tenth) small
      refine ⟨batches ++ [pending ++ [r]], [], flushed, ?_, by decide, ?_⟩
      · rw [List.forall_mem_append, List.forall_mem_singleton]
        exact ⟨full, tenth⟩
      · rw [← whole]
        simp

theorem reads_foldl {lines : List Reception} (small : station.length ≤ 120)
    (reads : Reads system station lines s) (file : List (List Byte)) :
    Reads system station (lines ++ file.filterMap (readLine system.library))
      ((file.map some).foldl (Upload.turn system) s) := by
  induction file generalizing lines s with
  | nil =>
    rw [List.filterMap_nil, List.append_nil]
    exact reads
  | cons line file ih =>
    have later := ih (reads_turn small reads line)
    rw [List.append_assoc] at later
    rw [List.map_cons, List.foldl_cons, List.filterMap_cons]
    cases read : readLine system.library line with
    | none =>
      rw [read] at later
      exact later
    | some r =>
      rw [read] at later
      exact later

/-- The batches that were sent in the end. -/
structure Sends (system : System) (station : IpfixSet) (lines : List Reception)
    (batches : List (List Reception)) (s : Upload) : Prop where
  running : Running system station batches [] s
  few : ∀ batch ∈ batches, batch.length ≤ 10
  whole : batches.flatten = lines
  each : ∀ P : List Reception → Prop, P [] →
    ((∀ k, P (nthTen lines k)) ↔ ∀ batch ∈ batches, P batch)

theorem reads_end {lines : List Reception} (small : station.length ≤ 120)
    (reads : Reads system station lines s) :
    ∃ batches, Sends system station lines batches (s.turn system none) := by
  obtain ⟨batches, pending, running, full, few, rfl⟩ := reads
  have le : ∀ batch ∈ batches, batch.length ≤ 10 := fun batch member =>
    Nat.le_of_eq (full batch member)
  have each (P : List Reception → Prop) (none : P []) :=
    forall_nthTen (P := P) full (Nat.le_of_lt few) none
  rw [Upload.turn]
  cases pending with
  | nil =>
    have stays : s.flush system = s := if_neg (by rw [running.counter]; exact Nat.lt_irrefl 0)
    refine ⟨batches, by rwa [stays], le, (List.append_nil _).symm, fun P none => ?_⟩
    rw [each P none, and_iff_left none]
  | cons r rest =>
    refine ⟨batches ++ [r :: rest], running_flush running (List.cons_ne_nil r rest)
      (Nat.le_of_lt few) small, ?_, by simp, fun P none => ?_⟩
    · rw [List.forall_mem_append, List.forall_mem_singleton]
      exact ⟨le, Nat.le_of_lt few⟩
    · rw [each P none, List.forall_mem_append, List.forall_mem_singleton]

theorem upload_sends (system : System) (file : List Byte)
    (small : (stationSet call grid antenna).length ≤ 120) :
    ∃ batches, Sends system (stationSet call grid antenna) (accepted system.library file) batches
      (Upload.upload system call grid antenna file) := by
  have start : Reads system (stationSet call grid antenna) []
      (Upload.setUp system call grid antenna) :=
    ⟨[], [], setUp_running system small, List.forall_mem_nil _, by decide, rfl⟩
  have all := reads_end small (reads_foldl small start (lines file))
  rwa [Upload.upload, List.foldl_append]

/-- What is read back from the datagrams of some batches. -/
theorem messages_read {sent : List (List Byte)} (small : station.length ≤ 120)
    (whole : station.length % 4 = 0) (other : station.id ≠ 0x9993)
    (same : List.Forall₂ (fun datagram batch => ∃ time sequence,
      datagram = (message system station time sequence batch).write) sent batches)
    (few : ∀ batch ∈ batches, batch.length ≤ 10) :
    (∀ datagram ∈ sent, WellFormed datagram) ∧ sent.flatMap receptions = batches.flatten := by
  induction same with
  | nil => exact ⟨List.forall_mem_nil _, rfl⟩
  | cons here later ih =>
    obtain ⟨time, sequence, rfl⟩ := here
    obtain ⟨fewHere, fewLater⟩ := List.forall_mem_cons.mp few
    obtain ⟨wellFormed, read⟩ := ih fewLater
    refine ⟨List.forall_mem_cons.mpr ⟨?_, wellFormed⟩, ?_⟩
    · exact message_wellFormed small whole other fewHere
    · rw [List.flatMap_cons, List.flatten_cons, message_receptions small other fewHere, read]

/-- The writes are inside the buffer exactly when every datagram fits. -/
theorem sends_inside {lines : List Reception}
    (sends : Sends system (stationSet call grid antenna) lines batches s)
    (shortCall : call.length ≤ 16) (shortGrid : grid.length ≤ 6)
    (shortAntenna : antenna.length ≤ 64) :
    Within 512 s ↔ Fits call grid antenna lines := by
  have le := stationSize_le shortCall shortGrid shortAntenna
  have pad := padding_lt (stationSize call grid antenna)
  have long := stationSet_length call grid antenna
  have fits := sends.each (fun batch => s.start + (recordSet batch).length ≤ 512) (by
    rw [sends.running.start, recordSet_length, show recordsSize [] = 4 from rfl,
      show padding 4 = 0 from rfl]
    omega)
  have same : Fits call grid antenna lines ↔
      ∀ k, s.start + (recordSet (nthTen lines k)).length ≤ 512 := by
    rw [sends.running.start, long]
    simp only [recordSet_length]
    rfl
  rw [same, fits, sends.running.within]
  constructor
  · rintro ⟨-, sets, -⟩
    exact sets
  · intro sets
    refine ⟨?_, sets, fun none => absurd rfl none⟩
    rw [sends.running.start]
    omega

/-- The program does what it is for, with every write inside its buffer, exactly for the arguments
and files of which each datagram fits. -/
theorem main_conforms_iff {program path file : List Byte}
    (opened : system.fopen path = some file)
    (ran : main system [program, call, grid, antenna, path] = .ok s) :
    Conforms s (accepted system.library file) ↔
      Fits call grid antenna (accepted system.library file) := by
  obtain ⟨shortCall, shortGrid, shortAntenna, file', opened', rfl⟩ := main_ok ran
  obtain rfl : file = file' := Option.some.inj (opened.symm.trans opened')
  have small := stationSet_small shortCall shortGrid shortAntenna
  obtain ⟨batches, sends⟩ := upload_sends system file small
  have other : (stationSet call grid antenna).id ≠ 0x9993 :=
    show (0x9992 : BitVec 16) ≠ 0x9993 by decide
  have read := messages_read small (padSet_padded _ _) other sends.running.sent sends.few
  rw [sends.whole] at read
  rw [← sends_inside sends shortCall shortGrid shortAntenna]
  exact ⟨fun conforms => conforms.inside, fun inside => ⟨inside, read.1, read.2⟩⟩

/-- Whatever is in the file, if the arguments are short. -/
theorem fits_of_short {lines : List Reception}
    (short : call.length + grid.length + antenna.length ≤ 26) : Fits call grid antenna lines := by
  intro k
  have le := recordsSize_le (nthTen lines k)
  have few : (nthTen lines k).length ≤ 10 := List.length_take_le 10 _
  have soft : soft.length = 22 := rfl
  unfold stationSize padding
  omega

def twoDigits : List Byte → Option (List Byte × Int)
  | a :: b :: src =>
    if isdigit a && isdigit b then some (src, 10 * (a.toNat - 48) + (b.toNat - 48)) else none
  | _ => none

/-- A library for files that are well formed: every field of the time has two digits, and the
numbers are decimal. -/
def plain : CLibrary where
  strptime src := do
    let (src, year) ← twoDigits src
    let (src, mon) ← twoDigits src
    let (src, mday) ← twoDigits src
    let (src, hour) ← twoDigits (src.dropWhile isspace)
    let (src, min) ← twoDigits src
    let (src, sec) ← twoDigits src
    if 1 ≤ mon ∧ mon ≤ 12 ∧ 1 ≤ mday ∧ mday ≤ 31 ∧ hour ≤ 23 ∧ min ≤ 59 ∧ sec ≤ 60 then
      some (src, ⟨if year < 69 then year + 100 else year, mon - 1, mday, hour, min, sec⟩)
    else none
  strtod src :=
    let spaces := (src.takeWhile isspace).length
    let decimal := (src.drop spaces).takeWhile fun c => isdigit c || c = 45 || c = 46
    if decimal = [] then 0 else spaces + decimal.length
  timegm tm :=
    let year := if tm.mon < 2 then tm.year + 1899 else tm.year + 1900
    let days := 365 * year + year / 4 - year / 100 + year / 400 +
      (153 * ((tm.mon + 10) % 12) + 2) / 5 + tm.mday - 719469
    60 * (60 * (24 * days + tm.hour) + tm.min) + tm.sec

/-- A system with one file. -/
def offline (file : List Byte) : System :=
  ⟨plain, fun _ => some file, true, true, 0, fun _ => 0, fun _ => 0⟩

/-- "260523 120000 0.1 -5 0.2 7074000 " -/
def decoded : List Byte :=
  [0x32, 0x36, 0x30, 0x35, 0x32, 0x33, 0x20, 0x31, 0x32, 0x30, 0x30, 0x30, 0x30, 0x20, 0x30, 0x2e,
    0x31, 0x20, 0x2d, 0x35, 0x20, 0x30, 0x2e, 0x32, 0x20, 0x37, 0x30, 0x37, 0x34, 0x30, 0x30, 0x30,
    0x20]

/-- A line with a call sign of 13 letters and a locator of four. -/
def longLine : List Byte :=
  decoded ++ List.replicate 13 0x41 ++ [0x20, 0x4a, 0x4f, 0x35, 0x30, 0x0a]

example : accepted plain longLine =
    [⟨List.replicate 13 0x41, [0x4a, 0x4f, 0x35, 0x30], 7074000, 251, 1779537615, by decide,
      by decide⟩] := by decide +kernel

/-- The longest arguments. -/
def call16 : List Byte := List.replicate 16 0x41

def grid6 : List Byte := List.replicate 6 0x41

def antenna64 : List Byte := List.replicate 64 0x41

/-- Eleven lines, so that two datagrams are sent. -/
def longFile : List Byte := (List.replicate 11 longLine).flatten

theorem main_conforms_iff_elevenLines :
    Conforms (Upload.upload (offline longFile) call16 grid6 [] longFile)
      (accepted plain longFile) ∧
    (Upload.upload (offline longFile) call16 grid6 [] longFile).sent.length = 2 := by
  have opened : (offline longFile).fopen [] = some longFile := rfl
  have ran : main (offline longFile) [[], call16, grid6, [], []] =
      .ok (Upload.upload (offline longFile) call16 grid6 [] longFile) := rfl
  exact ⟨(main_conforms_iff opened ran).mpr (fits_of_short (by decide)), by decide +kernel⟩

/-- Ten such lines with the longest arguments: the last record ends 58 bytes past the buffer. -/
theorem longestLines_overflow : ¬ ∀ (system : System)
    (program call grid antenna path file : List Byte) (s : Upload), system.fopen path = some file →
    main system [program, call, grid, antenna, path] = .ok s →
    Conforms s (accepted system.library file) := by
  intro claim
  let file := (List.replicate 10 longLine).flatten
  have conforms := claim (offline file) [] call16 grid6 antenna64 [] file _ rfl rfl
  exact absurd conforms.inside (by decide +kernel)

end PskReporter

end Switcheck
