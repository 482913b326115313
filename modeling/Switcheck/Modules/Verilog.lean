import Mathlib.Algebra.Group.Nat.Defs
import Mathlib.Data.Nat.Init

/-! Verilog arithmetic: the system function widths are computed with, and register counts. -/

namespace Switcheck

def clog2 (n : Nat) : Nat := if n ≤ 1 then 0 else (n - 1).log2 + 1

theorem le_two_pow_clog2 (n : Nat) : n ≤ 2 ^ clog2 n := by
  unfold clog2
  split
  · omega
  · have := Nat.lt_log2_self (n := n - 1)
    omega

theorem toNat_add_one {w : Nat} {x : BitVec w} (room : x.toNat + 1 < 2 ^ w) :
    (x + 1).toNat = x.toNat + 1 := by
  rw [BitVec.toNat_add, BitVec.ofNat_eq_ofNat, BitVec.toNat_ofNat, Nat.add_mod_mod,
    Nat.mod_eq_of_lt room]

theorem toNat_sub_one {w : Nat} {x : BitVec w} (some : x ≠ 0) : (x - 1).toNat + 1 = x.toNat := by
  have pos := BitVec.toNat_pos_of_ne_zero some
  have bound := x.isLt
  have wide : 1 < 2 ^ w := by omega
  have one : (1 : BitVec w).toNat = 1 := Nat.mod_eq_of_lt wide
  have le : 1 ≤ x := BitVec.le_def.mpr (by omega)
  rw [BitVec.toNat_sub_of_le le, one]
  omega

theorem succ_mod_succ (n m : Nat) :
    (n + 1) % (m + 1) = if n % (m + 1) < m then n % (m + 1) + 1 else 0 := by
  have bound : n % (m + 1) < m + 1 := Nat.mod_lt n (Nat.succ_pos m)
  rw [← Nat.mod_add_mod]
  split
  · exact Nat.mod_eq_of_lt (by omega)
  · have top : n % (m + 1) + 1 = m + 1 := by omega
    rw [top, Nat.mod_self]

theorem succ_dvd_succ_iff (n m : Nat) : m + 1 ∣ n + 1 ↔ n % (m + 1) = m := by
  have bound : n % (m + 1) < m + 1 := Nat.mod_lt n (Nat.succ_pos m)
  rw [Nat.dvd_iff_mod_eq_zero, succ_mod_succ]
  split <;> omega

/-- `{x[m-1:0], b}`. -/
def shiftIn {m : Nat} (x : BitVec (m + 1)) (b : Bool) : BitVec (m + 1) :=
  x.extractLsb' 0 m ++ BitVec.ofBool b

@[simp] theorem getLsbD_shiftIn_zero {m : Nat} (x : BitVec (m + 1)) (b : Bool) :
    (shiftIn x b).getLsbD 0 = b := by
  rw [shiftIn, BitVec.getLsbD_append]
  simp

theorem getLsbD_shiftIn_succ {m k : Nat} (x : BitVec (m + 1)) (b : Bool) (below : k < m) :
    (shiftIn x b).getLsbD (k + 1) = x.getLsbD k := by
  rw [shiftIn, BitVec.getLsbD_append]
  simp [below]

theorem shiftIn_false {m : Nat} (x : BitVec (m + 1)) : shiftIn x false = x <<< 1 := by
  apply BitVec.eq_of_getLsbD_eq
  intro k inside
  rw [BitVec.getLsbD_shiftLeft]
  cases k with
  | zero =>
    rw [getLsbD_shiftIn_zero]
    simp
  | succ k =>
    rw [getLsbD_shiftIn_succ x false (by omega), decide_eq_true inside, Bool.true_and]
    rfl

/-- `{x, 4'd0, {k{1'b0}}}`: the byte address of a burst of sixteen words of `2 ^ k` bytes. -/
theorem setWidth_burst {n : Nat} (x : BitVec n) (k w : Nat) :
    (x ++ 0#4 ++ 0#k).setWidth w = BitVec.ofNat w (16 * 2 ^ k * x.toNat) := by
  apply BitVec.eq_of_toNat_eq
  rw [BitVec.toNat_setWidth, BitVec.toNat_append, BitVec.toNat_append, BitVec.toNat_ofNat]
  simp only [BitVec.toNat_ofNat, Nat.zero_mod, Nat.or_zero, Nat.shiftLeft_eq]
  congr 1
  rw [Nat.mul_assoc, Nat.mul_comm]

/-- A register that counts to `c` and starts again. -/
theorem toNat_ringNext {w : Nat} {x c : BitVec w} {n : Nat} (turn : x.toNat = n % (c.toNat + 1)) :
    (if x < c then x + 1 else 0).toNat = (n + 1) % (c.toNat + 1) := by
  have bound := c.isLt
  rw [succ_mod_succ, ← turn]
  by_cases below : x < c
  · have less : x.toNat < c.toNat := below
    rw [if_pos below, if_pos less, toNat_add_one (by omega)]
  · have more : ¬ x.toNat < c.toNat := below
    rw [if_neg below, if_neg more]
    rfl

end Switcheck
