import Mathlib.Data.Nat.Init
import Switcheck.Sync.RegisterFile

/-!
# Words as bytes

A bank of 32-bit words as a processor sees it: bytes, lowest first, in fields of any size. A
store of a field that does not cross a word is one byte-strobed write.
-/

namespace Switcheck.Sync

/-- The bits of a word, lowest first. -/
def gather (n : Nat) (bit : Nat → Bool) : BitVec n :=
  BitVec.ofNat n (Nat.ofBits fun k : Fin n => bit k)

theorem gather_getLsbD {n k : Nat} (bit : Nat → Bool) (low : k < n) :
    (gather n bit).getLsbD k = bit k := by
  rw [gather, BitVec.getLsbD_ofNat, Nat.testBit_ofBits_lt _ _ low, decide_eq_true low,
    Bool.true_and]

variable {words : Nat → BitVec 32} {offset size : Nat}

def bitOf (words : Nat → BitVec 32) (k : Nat) : Bool := (words (k / 32)).getLsbD (k % 32)

def byteOf (words : Nat → BitVec 32) (a : Nat) : BitVec 8 :=
  (words (a / 4)).extractLsb' (8 * (a % 4)) 8

/-- A little-endian load of `size` bytes. -/
def load (words : Nat → BitVec 32) (offset size : Nat) : BitVec (8 * size) :=
  gather (8 * size) fun k => (byteOf words (offset + k / 8)).getLsbD (k % 8)

theorem byteOf_getLsbD (words : Nat → BitVec 32) (a k : Nat) (low : k < 8) :
    (byteOf words a).getLsbD k = bitOf words (8 * a + k) := by
  rw [byteOf, BitVec.getLsbD_extractLsb', decide_eq_true low, Bool.true_and, bitOf,
    show (8 * a + k) / 32 = a / 4 by omega, show (8 * a + k) % 32 = 8 * (a % 4) + k by omega]

theorem load_getLsbD {k : Nat} (low : k < 8 * size) :
    (load words offset size).getLsbD k = bitOf words (8 * offset + k) := by
  rw [load, gather_getLsbD _ low, byteOf_getLsbD _ _ _ (Nat.mod_lt k (by decide))]
  congr 1
  omega

/-- The words side by side, the first lowest. -/
def bus (n : Nat) (words : Nat → BitVec 32) : BitVec n := gather n (bitOf words)

theorem bus_slice {n : Nat} (inside : 8 * (offset + size) ≤ n) :
    (bus n words).extractLsb' (8 * offset) (8 * size) = load words offset size := by
  refine BitVec.eq_of_getLsbD_eq fun k low => ?_
  rw [BitVec.getLsbD_extractLsb', decide_eq_true low, Bool.true_and, load_getLsbD low, bus,
    gather_getLsbD _ (by omega)]

/-- The words a wide register is read out in. -/
def busWord {n : Nat} (x : BitVec n) (j : Nat) : BitVec 32 := x.extractLsb' (32 * j) 32

theorem load_busWord {n : Nat} (x : BitVec n) :
    load (busWord x) offset size = x.extractLsb' (8 * offset) (8 * size) := by
  refine BitVec.eq_of_getLsbD_eq fun k low => ?_
  rw [load_getLsbD low, bitOf, busWord, BitVec.getLsbD_extractLsb', BitVec.getLsbD_extractLsb',
    decide_eq_true low, decide_eq_true (Nat.mod_lt _ (by decide)), Nat.div_add_mod]

/-! ### Stores -/

def writeWord (words : Nat → BitVec 32) (op : StrobedWrite) : Nat → BitVec 32 :=
  fun j => if j = op.addr then mergeBytes (words j) op.data op.strb else words j

/-- The byte-strobed write of a field; what is on the other lanes does not matter. -/
structure Stores (offset size : Nat) (value : BitVec (8 * size)) (op : StrobedWrite) : Prop where
  addr : op.addr = offset / 4
  strb : ∀ b < 4, op.strb.getLsbD b = decide (offset % 4 ≤ b ∧ b < offset % 4 + size)
  data : ∀ k < 8 * size, op.data.getLsbD (8 * (offset % 4) + k) = value.getLsbD k

theorem bitOf_writeWord (words : Nat → BitVec 32) (op : StrobedWrite) (k : Nat) :
    bitOf (writeWord words op) k =
      if k / 32 = op.addr ∧ op.strb.getLsbD (k % 32 / 8) then op.data.getLsbD (k % 32)
      else bitOf words k := by
  unfold bitOf writeWord
  by_cases here : k / 32 = op.addr
  · rw [if_pos here, mergeBytes_getLsbD _ _ _ (Nat.mod_lt k (by decide))]
    simp only [here, true_and]
  · rw [if_neg here, if_neg fun both => here both.1]

variable {value : BitVec (8 * size)} {op : StrobedWrite}

theorem Stores.writes (stores : Stores offset size value op) (whole : offset % 4 + size ≤ 4)
    (k : Nat) : (k / 32 = op.addr ∧ op.strb.getLsbD (k % 32 / 8) = true) ↔
      8 * offset ≤ k ∧ k < 8 * (offset + size) := by
  rw [stores.addr, stores.strb _ (by omega), decide_eq_true_iff]
  omega

theorem load_store_self (stores : Stores offset size value op) (whole : offset % 4 + size ≤ 4) :
    load (writeWord words op) offset size = value := by
  refine BitVec.eq_of_getLsbD_eq fun k low => ?_
  rw [load_getLsbD low, bitOf_writeWord, if_pos ((stores.writes whole _).mpr (by omega)),
    ← stores.data k low]
  congr 1
  omega

theorem load_store_other {offset' size' : Nat} (stores : Stores offset size value op)
    (whole : offset % 4 + size ≤ 4)
    (apart : offset' + size' ≤ offset ∨ offset + size ≤ offset') :
    load (writeWord words op) offset' size' = load words offset' size' := by
  refine BitVec.eq_of_getLsbD_eq fun k low => ?_
  rw [load_getLsbD low, load_getLsbD low, bitOf_writeWord, if_neg]
  rw [stores.writes whole]
  omega

end Switcheck.Sync
