import Switcheck.Sync.Wire

/-!
# IPFIX messages

A header with the length of the message, then sets, each with its own length. Reading goes by the
lengths alone, and a message is read only if they add up.
-/

namespace Switcheck.Sync

structure IpfixSet where
  id : BitVec 16
  body : List Byte
  deriving DecidableEq

structure IpfixMessage where
  time : BitVec 32
  sequence : BitVec 32
  domain : BitVec 32
  sets : List IpfixSet
  deriving DecidableEq

namespace IpfixSet

/-- The bytes of the set, with the four of its header. -/
def length (s : IpfixSet) : Nat := 4 + s.body.length

def write (s : IpfixSet) : List Byte :=
  bigEndian 2 s.id.toNat ++ (bigEndian 2 s.length ++ s.body)

end IpfixSet

def readSet : Reader IpfixSet := fun bytes => do
  let (id, rest) ← readNumber 2 bytes
  let (length, rest) ← readNumber 2 rest
  if 4 ≤ length then
    let (body, rest) ← readBytes (length - 4) rest
    some (⟨BitVec.ofNat 16 id, body⟩, rest)
  else none

namespace IpfixMessage

def body (m : IpfixMessage) : List Byte := m.sets.flatMap IpfixSet.write

def write (m : IpfixMessage) : List Byte :=
  bigEndian 2 10 ++ (bigEndian 2 (16 + m.body.length) ++ (bigEndian 4 m.time.toNat ++
    (bigEndian 4 m.sequence.toNat ++ (bigEndian 4 m.domain.toNat ++ m.body))))

end IpfixMessage

def readMessage (bytes : List Byte) : Option IpfixMessage := do
  let (version, rest) ← readNumber 2 bytes
  let (length, rest) ← readNumber 2 rest
  let (time, rest) ← readNumber 4 rest
  let (sequence, rest) ← readNumber 4 rest
  let (domain, rest) ← readNumber 4 rest
  let (sets, left) := readMany readSet rest.length rest
  if version = 10 ∧ length = bytes.length ∧ left = [] then
    some ⟨BitVec.ofNat 32 time, BitVec.ofNat 32 sequence, BitVec.ofNat 32 domain, sets⟩
  else none

theorem IpfixSet.write_length (s : IpfixSet) : s.write.length = s.length := by
  simp only [IpfixSet.write, List.length_append, bigEndian_length, IpfixSet.length]
  omega

theorem IpfixMessage.write_length (m : IpfixMessage) : m.write.length = 16 + m.body.length := by
  simp only [IpfixMessage.write, List.length_append, bigEndian_length]
  omega

theorem readSet_append (s : IpfixSet) (rest : List Byte) (short : s.length < 65536) :
    readSet (s.write ++ rest) = some (s, rest) := by
  have id : s.id.toNat < 256 ^ 2 := s.id.isLt
  have length : s.length < 256 ^ 2 := short
  have body : readBytes (s.length - 4) (s.body ++ rest) = some (s.body, rest) :=
    readBytes_append _ _ (Nat.add_sub_cancel_left 4 s.body.length).symm
  rw [readSet, IpfixSet.write, List.append_assoc, List.append_assoc, readNumber_append _ id]
  simp only [Option.bind_eq_bind, Option.bind_some, readNumber_append _ length]
  rw [if_pos (show 4 ≤ s.length from Nat.le_add_right 4 _), body]
  simp

theorem length_le_body {m : IpfixMessage} {s : IpfixSet} (member : s ∈ m.sets) :
    s.length ≤ m.body.length := by
  obtain ⟨before, after, split⟩ := List.append_of_mem member
  rw [IpfixMessage.body, split, List.flatMap_append, List.flatMap_cons, List.length_append,
    List.length_append, s.write_length]
  omega

theorem readMessage_write (m : IpfixMessage) (short : m.write.length < 65536) :
    readMessage m.write = some m := by
  have length := m.write_length
  have small : 16 + m.body.length < 256 ^ 2 := length ▸ short
  have sets : readMany readSet m.body.length m.body = (m.sets, []) := by
    have each : ∀ s ∈ m.sets, ∀ rest, readSet (s.write ++ rest) = some (s, rest) := by
      intro s member rest
      have within := length_le_body member
      exact readSet_append s rest (by omega)
    have takes (s : IpfixSet) : 0 < s.write.length := by
      rw [s.write_length, IpfixSet.length]
      omega
    have all : readMany readSet m.body.length (m.body ++ []) = (m.sets, []) :=
      readMany_flatMap each rfl (length_le_flatMap takes m.sets)
    rwa [List.append_nil] at all
  have version : readNumber 2 m.write = some (10, _) := readNumber_append _ (by decide)
  rw [readMessage, version]
  simp only [Option.bind_eq_bind, Option.bind_some, readNumber_append _ small,
    readNumber_append _ (show m.time.toNat < 256 ^ 4 from m.time.isLt),
    readNumber_append _ (show m.sequence.toNat < 256 ^ 4 from m.sequence.isLt),
    readNumber_append _ (show m.domain.toNat < 256 ^ 4 from m.domain.isLt), sets, length]
  simp

end Switcheck.Sync
