import Switcheck.Ft8.DecodeLine
import Switcheck.Sync.Ipfix

/-!
# `upload-to-pskreporter`

`main` builds each datagram in one buffer: the header and the station once, then up to ten
records, then the lengths. Offsets are from the start of `buffer`; a copy past its 512 bytes is
made all the same, and `writes` tells of it.
-/

namespace Switcheck

open Sync

namespace PskReporter

/-- What the program finds outside. -/
structure System where
  library : CLibrary
  /-- The file of that name, if it can be opened. -/
  fopen : List Byte → Option (List Byte)
  socket : Bool
  gethostbyname : Bool
  rand : BitVec 32
  /-- The time when the datagram of that number is sent. -/
  time : Nat → BitVec 32
  /-- What the stack holds where `buffer` is. -/
  stack : Nat → Byte

/-- The variables of `main`, the place and size of every write to `buffer`, and what is sent. -/
structure Upload where
  buffer : Nat → Byte
  writes : List (Nat × Nat)
  start : Nat
  dst : Nat
  counter : Nat
  sequence : BitVec 32
  sent : List (List Byte)

/-- "Red Pitaya FT8 TRX 1.0" -/
def soft : List Byte :=
  [0x52, 0x65, 0x64, 0x20, 0x50, 0x69, 0x74, 0x61, 0x79, 0x61, 0x20, 0x46, 0x54, 0x38, 0x20, 0x54,
    0x52, 0x58, 0x20, 0x31, 0x2e, 0x30]

/-- "FT8" -/
def ft8 : List Byte := [0x46, 0x54, 0x38]

def header : List Byte :=
  [0x00, 0x0A, 0x00, 0x00, 0x00, 0x00, 0x00, 0x00,
    0x00, 0x00, 0x00, 0x00, 0x00, 0x00, 0x00, 0x00,
    0x00, 0x03, 0x00, 0x2C, 0x99, 0x92, 0x00, 0x04,
    0x00, 0x00,
    0x80, 0x02, 0xFF, 0xFF, 0x00, 0x00, 0x76, 0x8F,
    0x80, 0x04, 0xFF, 0xFF, 0x00, 0x00, 0x76, 0x8F,
    0x80, 0x08, 0xFF, 0xFF, 0x00, 0x00, 0x76, 0x8F,
    0x80, 0x09, 0xFF, 0xFF, 0x00, 0x00, 0x76, 0x8F,
    0x00, 0x00,
    0x00, 0x02, 0x00, 0x3C, 0x99, 0x93, 0x00, 0x07,
    0x80, 0x01, 0xFF, 0xFF, 0x00, 0x00, 0x76, 0x8F,
    0x80, 0x03, 0xFF, 0xFF, 0x00, 0x00, 0x76, 0x8F,
    0x80, 0x05, 0x00, 0x04, 0x00, 0x00, 0x76, 0x8F,
    0x80, 0x06, 0x00, 0x01, 0x00, 0x00, 0x76, 0x8F,
    0x80, 0x0A, 0xFF, 0xFF, 0x00, 0x00, 0x76, 0x8F,
    0x80, 0x0B, 0x00, 0x01, 0x00, 0x00, 0x76, 0x8F,
    0x00, 0x96, 0x00, 0x04]

def padding (size : Nat) : Nat := (4 - size % 4) % 4

namespace Upload

/-- `memcpy` and `memset` leave `dst` where it is. -/
def write (s : Upload) (offset : Nat) (bytes : List Byte) : Upload :=
  { s with
    buffer := copy s.buffer offset bytes
    writes := s.writes ++ [(offset, bytes.length)] }

def put (s : Upload) (bytes : List Byte) : Upload :=
  { s.write s.dst bytes with dst := s.dst + bytes.length }

/-- No string here is longer than the 127 bytes that `int8_t` can count. -/
def copyChar (s : Upload) (value : List Byte) : Upload :=
  (s.put (bigEndian 1 value.length)).put value

def copyInt1 (s : Upload) (value : BitVec 8) : Upload := s.put (bigEndian 1 value.toNat)

def copyInt2 (s : Upload) (value : BitVec 16) : Upload := s.put (bigEndian 2 value.toNat)

def copyInt4 (s : Upload) (value : BitVec 32) : Upload := s.put (bigEndian 4 value.toNat)

/-- The size of the set from `start` to `dst`, with the padding. -/
def size (s : Upload) : Nat := s.dst - s.start + padding (s.dst - s.start)

/-- The padding and the header of a set. -/
def closeSet (s : Upload) (id : BitVec 16) : Upload :=
  let size := s.size
  let s := s.write s.dst (List.replicate (padding (s.dst - s.start)) 0)
  let s := { s with dst := s.start }
  (s.copyInt2 id).copyInt2 (BitVec.ofNat 16 size)

/-- The header, with the random number in it, and the station. -/
def setUp (system : System) (call grid antenna : List Byte) : Upload :=
  let s : Upload := ⟨system.stack, [], 0, 0, 0, 0, []⟩
  let s := s.write 0 (header.take 12 ++ bigEndian 4 system.rand.toNat ++ header.drop 16)
  let s := { s with start := header.length, dst := header.length + 4 }
  let s := (((s.copyChar call).copyChar grid).copyChar soft).copyChar antenna
  let size := s.size
  let s := s.closeSet 0x9992
  let s := { s with start := s.start + size }
  { s with counter := 0, sequence := 0, dst := s.start + 4 }

def copyReception (s : Upload) (r : Reception) : Upload :=
  let s := s.copyChar r.call
  let s := s.copyChar r.grid
  let s := s.copyInt4 r.freq
  let s := s.copyInt1 r.snr
  let s := s.copyChar ft8
  let s := s.copyInt1 1
  s.copyInt4 r.time

def flush (system : System) (s : Upload) : Upload :=
  if s.counter > 0 then
    let size := s.size
    let s := s.closeSet 0x9993
    let s := { s with dst := 2 }
    let size := size + s.start
    let s := s.copyInt2 (BitVec.ofNat 16 size)
    let s := s.copyInt4 (system.time s.sent.length)
    let s := s.copyInt4 s.sequence
    { s with
      sent := s.sent ++ [stored s.buffer 0 size]
      counter := 0
      sequence := s.sequence + 1
      dst := s.start + 4 }
  else s

/-- One turn of the loop, with what `fgets` has returned. -/
def turn (system : System) (s : Upload) (src : Option (List Byte)) : Upload :=
  match src with
  | none => s.flush system
  | some line =>
    match readLine system.library line with
    | none => s
    | some r =>
      let s := s.copyReception r
      let s := { s with counter := s.counter + 1 }
      if s.counter < 10 then s else s.flush system

/-- The loop, which the end of the file ends. -/
def upload (system : System) (call grid antenna file : List Byte) : Upload :=
  ((lines file).map some ++ [none]).foldl (turn system) (setUp system call grid antenna)

end Upload

/-- What is printed where the program fails. -/
def main (system : System) (argv : List (List Byte)) : Except String Upload :=
  match argv with
  | [_, call, grid, antenna, path] =>
    if call.length > 16 then .error "Call sign is too long.\n"
    else if grid.length > 6 then .error "Grid locator is too long.\n"
    else if antenna.length > 64 then .error "Antenna description is too long.\n"
    else
      match system.fopen path with
      | none => .error "Cannot open input file.\n"
      | some file =>
        if system.socket = false then .error "Cannot open socket.\n"
        else if system.gethostbyname = false then .error "Cannot find remote host address.\n"
        else .ok (Upload.upload system call grid antenna file)
  | _ => .error "Usage: upload-to-pskreporter call grid antenna file\n"

theorem padding_lt (size : Nat) : padding size < 4 := Nat.mod_lt _ (by decide)

theorem padded (size : Nat) : (size + padding size) % 4 = 0 := by
  unfold padding
  omega

theorem header_length : header.length = 120 := rfl

/-- Only arguments of lengths that were checked come to the loop. -/
theorem main_ok {system : System} {program call grid antenna path : List Byte} {s : Upload}
    (ran : main system [program, call, grid, antenna, path] = .ok s) :
    call.length ≤ 16 ∧ grid.length ≤ 6 ∧ antenna.length ≤ 64 ∧
      ∃ file, system.fopen path = some file ∧ s = Upload.upload system call grid antenna file := by
  simp only [main] at ran
  split at ran
  · cases ran
  split at ran
  · cases ran
  split at ran
  · cases ran
  rename_i call grid antenna
  split at ran
  · cases ran
  · rename_i file opened
    split at ran
    · cases ran
    split at ran
    · cases ran
    · cases ran
      exact ⟨Nat.not_lt.mp call, Nat.not_lt.mp grid, Nat.not_lt.mp antenna, file, opened, rfl⟩

end PskReporter

end Switcheck
