import Switcheck.Ft8.Upload

/-!
# The datagrams of PSK Reporter

Each datagram is an IPFIX message with the two templates, the station and the records of ten
accepted lines, or of those left at the end. All of it is read back from the bytes.
-/

namespace Switcheck

open Sync

namespace PskReporter

def Reception.write (r : Reception) : List Byte :=
  text r.call ++ (text r.grid ++ (bigEndian 4 r.freq.toNat ++ (bigEndian 1 r.snr.toNat ++
    (text ft8 ++ (bigEndian 1 1 ++ bigEndian 4 r.time.toNat)))))

def readRecord : Reader Reception := fun bytes => do
  let (call, rest) ← readText bytes
  let (grid, rest) ← readText rest
  let (freq, rest) ← readNumber 4 rest
  let (snr, rest) ← readNumber 1 rest
  let (mode, rest) ← readText rest
  let (source, rest) ← readNumber 1 rest
  let (time, rest) ← readNumber 4 rest
  if sizes : call.length ≤ 13 ∧ grid.length ≤ 4 then
    if mode = ft8 ∧ source = 1 then
      some (⟨call, grid, BitVec.ofNat 32 freq, BitVec.ofNat 8 snr, BitVec.ofNat 32 time, sizes.1,
        sizes.2⟩, rest)
    else none
  else none

/-- The records of a set, and what is left after them. -/
def records (set : IpfixSet) : List Reception × List Byte :=
  readMany readRecord set.body.length set.body

/-- The reception records of a datagram: they are in the sets with the id of their template. -/
def receptions (datagram : List Byte) : List Reception :=
  match readMessage datagram with
  | none => []
  | some m => (m.sets.filter (·.id = 0x9993)).flatMap fun set => (records set).1

/-- The lengths of the message and of its sets are those of the bytes they cover, each set is padded
to a multiple of four, and there is only padding after the records. -/
def WellFormed (datagram : List Byte) : Prop :=
  ∃ m, readMessage datagram = some m ∧ (∀ set ∈ m.sets, set.length % 4 = 0) ∧
    ∀ set ∈ m.sets, set.id = 0x9993 → ∃ k < 4, (records set).2 = List.replicate k 0

/-- The size of the set with the station. -/
def stationSize (call grid antenna : List Byte) : Nat :=
  4 + (call.length + 1 + (grid.length + 1) + (soft.length + 1) + (antenna.length + 1))

/-- The size of the set with the records. -/
def recordsSize (batch : List Reception) : Nat :=
  4 + (batch.map fun r => 16 + r.call.length + r.grid.length).sum

/-- The set with its padding. -/
def padSet (id : BitVec 16) (body : List Byte) : IpfixSet :=
  ⟨id, body ++ List.replicate (padding (4 + body.length)) 0⟩

theorem padSet_length (id : BitVec 16) (body : List Byte) :
    (padSet id body).length = 4 + body.length + padding (4 + body.length) := by
  simp only [IpfixSet.length, padSet, List.length_append, List.length_replicate]
  omega

/-! ### Records -/

theorem Reception.write_length (r : Reception) :
    r.write.length = 16 + r.call.length + r.grid.length := by
  simp only [write, List.length_append, text_length, bigEndian_length, ft8, List.length_cons,
    List.length_nil]
  omega

theorem readRecord_append (r : Reception) (rest : List Byte) :
    readRecord (r.write ++ rest) = some (r, rest) := by
  have callSize := r.callSize
  have gridSize := r.gridSize
  simp only [readRecord, Reception.write, List.append_assoc, Option.bind_eq_bind, Option.bind_some,
    readText_append r.call _ (by omega), readText_append r.grid _ (by omega),
    readNumber_append _ (show r.freq.toNat < 256 ^ 4 from r.freq.isLt),
    readNumber_append _ (show r.snr.toNat < 256 ^ 1 from r.snr.isLt),
    readText_append ft8 _ (by decide), readNumber_append _ (show 1 < 256 ^ 1 by decide),
    readNumber_append _ (show r.time.toNat < 256 ^ 4 from r.time.isLt)]
  rw [dif_pos ⟨callSize, gridSize⟩]
  simp

/-- Padding is too short for a record. -/
theorem readRecord_padding {k : Nat} (short : k < 4) : readRecord (List.replicate k 0) = none := by
  match k, short with
  | 0, _ => rfl
  | 1, _ => rfl
  | 2, _ => rfl
  | 3, _ => rfl

/-! ### The parts of a datagram -/

def stationTemplate : IpfixSet := ⟨3, (header.drop 20).take 40⟩

def recordTemplate : IpfixSet := ⟨2, header.drop 64⟩

def stationBody (call grid antenna : List Byte) : List Byte :=
  text call ++ text grid ++ text soft ++ text antenna

def stationSet (call grid antenna : List Byte) : IpfixSet :=
  padSet 0x9992 (stationBody call grid antenna)

def recordsBody (batch : List Reception) : List Byte := batch.flatMap Reception.write

def recordSet (batch : List Reception) : IpfixSet := padSet 0x9993 (recordsBody batch)

/-- The sets before the records. -/
def frontSets (station : IpfixSet) : List IpfixSet := [stationTemplate, recordTemplate, station]

def message (system : System) (station : IpfixSet) (time sequence : BitVec 32)
    (batch : List Reception) : IpfixMessage :=
  ⟨time, sequence, system.rand, frontSets station ++ [recordSet batch]⟩

variable {system : System} {station : IpfixSet} {batch : List Reception}
  {time sequence : BitVec 32}

theorem header_sets : header.drop 16 = stationTemplate.write ++ recordTemplate.write := by decide

theorem stationBody_length (call grid antenna : List Byte) :
    4 + (stationBody call grid antenna).length = stationSize call grid antenna := by
  simp only [stationBody, stationSize, List.length_append, text_length]

theorem stationSet_length (call grid antenna : List Byte) :
    (stationSet call grid antenna).length =
      stationSize call grid antenna + padding (stationSize call grid antenna) := by
  rw [stationSet, padSet_length, stationBody_length]

theorem recordsBody_length (batch : List Reception) :
    4 + (recordsBody batch).length = recordsSize batch := by
  rw [recordsBody, recordsSize, List.length_flatMap]
  simp only [Reception.write_length]

theorem recordSet_length (batch : List Reception) :
    (recordSet batch).length = recordsSize batch + padding (recordsSize batch) := by
  rw [recordSet, padSet_length, recordsBody_length]

theorem recordsSize_le (batch : List Reception) : recordsSize batch ≤ 4 + 33 * batch.length := by
  refine Nat.add_le_add_left ?_ 4
  induction batch with
  | nil => exact Nat.le_refl 0
  | cons r batch ih =>
    have callSize := r.callSize
    have gridSize := r.gridSize
    rw [List.map_cons, List.sum_cons, List.length_cons]
    omega

/-- Ten records do not come near the 65536 bytes that a length can tell. -/
theorem recordSet_short (few : batch.length ≤ 10) : (recordSet batch).length < 400 := by
  have le := recordsSize_le batch
  have pad := padding_lt (recordsSize batch)
  rw [recordSet_length]
  omega

theorem message_body (system : System) (station : IpfixSet) (time sequence : BitVec 32)
    (batch : List Reception) : (message system station time sequence batch).body =
      (frontSets station).flatMap IpfixSet.write ++ (recordSet batch).write := by
  simp [IpfixMessage.body, message]

theorem frontSets_length (station : IpfixSet) :
    ((frontSets station).flatMap IpfixSet.write).length = 104 + station.length := by
  simp only [frontSets, List.flatMap_cons, List.flatMap_nil, List.length_append,
    IpfixSet.write_length, List.length_nil]
  rw [show stationTemplate.length = 44 from rfl, show recordTemplate.length = 60 from rfl]
  omega

/-- The length that `main` puts into the header. -/
theorem message_length (system : System) (station : IpfixSet) (time sequence : BitVec 32)
    (batch : List Reception) : 16 + (message system station time sequence batch).body.length =
      (recordSet batch).length + (120 + station.length) := by
  rw [message_body, List.length_append, frontSets_length, IpfixSet.write_length]
  omega

theorem padSet_padded (id : BitVec 16) (body : List Byte) : (padSet id body).length % 4 = 0 := by
  rw [padSet_length]
  exact padded _

theorem records_padSet (batch : List Reception) :
    records (recordSet batch) =
      (batch, List.replicate (padding (4 + (recordsBody batch).length)) 0) := by
  have takes (r : Reception) : 0 < r.write.length := by
    rw [r.write_length]
    omega
  have enough : batch.length ≤ (recordSet batch).body.length := by
    rw [recordSet, padSet, List.length_append]
    exact Nat.le_trans (length_le_flatMap takes batch) (Nat.le_add_right _ _)
  exact readMany_flatMap (fun r _ => readRecord_append r) (readRecord_padding (padding_lt _)) enough

theorem readMessage_message (small : station.length ≤ 120) (few : batch.length ≤ 10) :
    readMessage (message system station time sequence batch).write =
      some (message system station time sequence batch) := by
  refine readMessage_write _ ?_
  have short := recordSet_short few
  rw [IpfixMessage.write_length, message_length]
  omega

theorem message_sets {P : IpfixSet → Prop} :
    (∀ set ∈ (message system station time sequence batch).sets, P set) ↔
      P stationTemplate ∧ P recordTemplate ∧ P station ∧ P (recordSet batch) := by
  simp [message, frontSets]

theorem message_wellFormed (small : station.length ≤ 120) (whole : station.length % 4 = 0)
    (other : station.id ≠ 0x9993) (few : batch.length ≤ 10) :
    WellFormed (message system station time sequence batch).write := by
  refine ⟨_, readMessage_message small few, message_sets.mpr ?_, message_sets.mpr ?_⟩
  · exact ⟨rfl, rfl, whole, padSet_padded _ _⟩
  · refine ⟨fun same => ?_, fun same => ?_, fun same => absurd same other, fun _ => ?_⟩
    · exact absurd same (by decide)
    · exact absurd same (by decide)
    · rw [records_padSet]
      exact ⟨_, padding_lt _, rfl⟩

theorem message_receptions (small : station.length ≤ 120) (other : station.id ≠ 0x9993)
    (few : batch.length ≤ 10) :
    receptions (message system station time sequence batch).write = batch := by
  rw [receptions, readMessage_message small few]
  have sets : (message system station time sequence batch).sets.filter (·.id = 0x9993) =
      [recordSet batch] := by
    simp only [message, frontSets, List.cons_append, List.nil_append]
    rw [List.filter_cons_of_neg (by decide), List.filter_cons_of_neg (by decide),
      List.filter_cons_of_neg (by simpa using other), List.filter_cons_of_pos (by
        simp [recordSet, padSet]), List.filter_nil]
  simp only [sets, List.flatMap_singleton, records_padSet]

end PskReporter

end Switcheck
