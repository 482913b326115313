import Mathlib.Data.BitVec

/-!
# Register file

A file of 32-bit words under byte-strobed writes: what a bank of configuration registers is
for, whatever the bus in front of it.
-/

namespace Switcheck.Sync

abbrev RegisterFile (n : Nat) := Fin n → BitVec 32

structure StrobedWrite where
  addr : Nat
  strb : BitVec 4
  data : BitVec 32

def mergeBytes (old data : BitVec 32) (strb : BitVec 4) : BitVec 32 :=
  pick 3 ++ pick 2 ++ pick 1 ++ pick 0
where
  pick (b : Nat) : BitVec 8 :=
    if strb.getLsbD b then data.extractLsb' (8 * b) 8 else old.extractLsb' (8 * b) 8

theorem pick_getLsbD (old data : BitVec 32) (strb : BitVec 4) (b k : Nat) (low : k < 8) :
    (mergeBytes.pick old data strb b).getLsbD k =
      if strb.getLsbD b then data.getLsbD (8 * b + k) else old.getLsbD (8 * b + k) := by
  unfold mergeBytes.pick
  split <;> simp [low]

theorem mergeBytes_getLsbD (old data : BitVec 32) (strb : BitVec 4) {k : Nat} (low : k < 32) :
    (mergeBytes old data strb).getLsbD k =
      if strb.getLsbD (k / 8) then data.getLsbD k else old.getLsbD k := by
  have place : 8 * (k / 8) + k % 8 = k := Nat.div_add_mod k 8
  have byte := pick_getLsbD old data strb (k / 8) (k % 8) (Nat.mod_lt k (by decide))
  rw [place] at byte
  rw [← byte, mergeBytes, BitVec.getLsbD_append, BitVec.getLsbD_append, BitVec.getLsbD_append]
  have which : k / 8 = 0 ∨ k / 8 = 1 ∨ k / 8 = 2 ∨ k / 8 = 3 := by omega
  rcases which with zero | one | two | three
  · rw [zero, if_pos (by omega), show k % 8 = k by omega]
  · rw [one, if_neg (by omega), if_pos (by omega), show k % 8 = k - 8 by omega]
  · rw [two, if_neg (by omega), if_neg (by omega), if_pos (by omega),
      show k % 8 = k - 8 - 8 by omega]
  · rw [three, if_neg (by omega), if_neg (by omega), if_neg (by omega),
      show k % 8 = k - 8 - 8 - 8 by omega]

namespace RegisterFile

variable {n : Nat}

def apply (file : RegisterFile n) (op : StrobedWrite) : RegisterFile n :=
  fun j => if j.val = op.addr then mergeBytes (file j) op.data op.strb else file j

/-- The file after a sequence of writes, from all words zero. -/
def after (ops : List StrobedWrite) : RegisterFile n := ops.foldl apply fun _ => 0

theorem after_append (ops more : List StrobedWrite) :
    (after (ops ++ more) : RegisterFile n) = more.foldl apply (after ops) :=
  List.foldl_append

end RegisterFile

end Switcheck.Sync
