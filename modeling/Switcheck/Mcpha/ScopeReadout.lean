import Mathlib.Data.BitVec
import Mathlib.Data.List.Range

/-!
# The oscilloscope read-out of `mcpha-server`

Command 20 sends the window of samples around the trigger from a ring of `2 ^ 23` samples of four
bytes, in one piece or, when it passes the end of the ring, in two.
-/

namespace Switcheck.ScopeReadout

/-- A call of `send`: the offset from `ram` and the length, in bytes. -/
structure Send where
  offset : BitVec 32
  length : BitVec 32
  deriving DecidableEq

/-- The first sample of the window, from the status word and the settings. -/
def windowStart (sts32 pre : BitVec 32) : BitVec 32 := ((sts32 >>> 1) - pre) &&& 0x007FFFFF

def sends (start tot : BitVec 32) : List Send :=
  if start + tot ≤ 0x007FFFFF then [⟨start * 4, tot * 4⟩]
  else [⟨start * 4, (0x007FFFFF - start) * 4⟩, ⟨0, (start + tot - 0x007FFFFF) * 4⟩]

/-- Command 20, from what it reads at `cfg + 76`, `cfg + 80` and `sts + 32`. -/
def command20 (cfg76 cfg80 sts32 : BitVec 32) : List Send :=
  sends (windowStart sts32 (cfg76 + 1)) (cfg80 + 1)

variable {ring : Nat → BitVec 8} {start tot : BitVec 32}

def Send.bytes (ring : Nat → BitVec 8) (s : Send) : List (BitVec 8) :=
  (List.range s.length.toNat).map fun k => ring (s.offset.toNat + k)

def sampleBytes (ring : Nat → BitVec 8) (k : Nat) : List (BitVec 8) :=
  (List.range 4).map fun b => ring (4 * k + b)

def window (ring : Nat → BitVec 8) (start tot : Nat) : List (BitVec 8) :=
  (List.range tot).flatMap fun i => sampleBytes ring ((start + i) % 2 ^ 23)

/-- What is sent is the window, whatever the ring holds, and read within its bytes. -/
def Unrolls (sent : List Send) (start tot : Nat) : Prop :=
  (∀ ring, sent.flatMap (Send.bytes ring) = window ring start tot) ∧
    ∀ s ∈ sent, s.offset.toNat + s.length.toNat ≤ 2 ^ 25

theorem window_append (ring : Nat → BitVec 8) (start n m : Nat) :
    window ring start (n + m) = window ring start n ++ window ring (start + n) m := by
  unfold window
  rw [List.range_add, List.flatMap_append, List.flatMap_map]
  simp only [Nat.add_assoc]

theorem window_one (ring : Nat → BitVec 8) (start : Nat) :
    window ring start 1 = sampleBytes ring (start % 2 ^ 23) := by
  simp [window]

/-- Up to the end of the ring the samples of a window follow one another in memory. -/
theorem window_straight (ring : Nat → BitVec 8) {start n : Nat} (below : start + n ≤ 2 ^ 23) :
    window ring start n = (List.range (4 * n)).map fun k => ring (4 * start + k) := by
  induction n with
  | zero => rfl
  | succ n ih =>
    rw [window_append, ih (by omega), window_one, Nat.mod_eq_of_lt (by omega), Nat.mul_succ,
      List.range_add, List.map_append, List.map_map, sampleBytes]
    simp only [Function.comp_def, Nat.mul_add, Nat.add_assoc]

theorem windowStart_lt (sts32 pre : BitVec 32) : (windowStart sts32 pre).toNat < 2 ^ 23 := by
  unfold windowStart
  rw [BitVec.toNat_and]
  exact Nat.lt_of_le_of_lt Nat.and_le_right (by decide)

section Splitting

variable (first : start.toNat < 2 ^ 23) (most : tot.toNat ≤ 2 ^ 23)
include first most

theorem toNat_end : (start + tot).toNat = start.toNat + tot.toNat := by
  rw [BitVec.toNat_add]
  omega

theorem sends_whole (below : start.toNat + tot.toNat < 2 ^ 23) :
    sends start tot = [⟨start * 4, tot * 4⟩] := by
  have fits : start + tot ≤ 0x007FFFFF := by
    rw [BitVec.le_def, toNat_end first most]
    exact Nat.le_of_lt_succ below
  exact if_pos fits

theorem sends_split (beyond : 2 ^ 23 ≤ start.toNat + tot.toNat) :
    sends start tot =
      [⟨start * 4, (0x007FFFFF - start) * 4⟩, ⟨0, (start + tot - 0x007FFFFF) * 4⟩] := by
  have passes : ¬ start + tot ≤ 0x007FFFFF := by
    rw [BitVec.le_def, toNat_end first most]
    exact Nat.not_le_of_lt beyond
  exact if_neg passes

theorem unrolls_whole (below : start.toNat + tot.toNat < 2 ^ 23) :
    Unrolls (sends start tot) start.toNat tot.toNat := by
  have offset : (start * 4).toNat = 4 * start.toNat := by bv_omega
  have length : (tot * 4).toNat = 4 * tot.toNat := by bv_omega
  unfold Unrolls
  rw [sends_whole first most below]
  refine ⟨fun ring => ?_, fun s member => ?_⟩
  · rw [List.flatMap_singleton, Send.bytes, offset, length, window_straight ring (by omega)]
  · rw [List.mem_singleton.mp member, offset, length]
    omega

/-- In two pieces the last sample of the ring is left out: the first comes in its place. -/
theorem not_unrolls_split (some : 1 ≤ tot.toNat) (beyond : 2 ^ 23 ≤ start.toNat + tot.toNat) :
    ¬ Unrolls (sends start tot) start.toNat tot.toNat := by
  rintro ⟨same, -⟩
  have shown := same fun k => if k = 0 then 1 else 0
  have offset : (start * 4).toNat = 4 * start.toNat := by bv_omega
  have length : ((0x007FFFFF - start) * 4).toNat = 4 * (2 ^ 23 - 1 - start.toNat) := by bv_omega
  have more : 0 < ((start + tot - 0x007FFFFF) * 4).toNat := by bv_omega
  have parts : tot.toNat = 2 ^ 23 - 1 - start.toNat + (1 + (tot.toNat - (2 ^ 23 - start.toNat))) := by
    omega
  have last : start.toNat + (2 ^ 23 - 1 - start.toNat) = 2 ^ 23 - 1 := by omega
  rw [sends_split first most beyond, List.flatMap_cons, List.flatMap_singleton, Send.bytes, offset,
    length, parts, window_append, window_straight _ (by omega), last,
    List.append_cancel_left_eq, window_append, window_one] at shown
  have heads := congrArg List.head? shown
  rw [Send.bytes, List.head?_map, List.head?_range, if_neg (Nat.ne_of_gt more)] at heads
  simp [sampleBytes, List.range_succ] at heads

end Splitting

/-- Command 20 unrolls the ring exactly when the window ends before its last sample. -/
theorem command20_unrolls_iff (cfg76 cfg80 sts32 : BitVec 32) (some : 1 ≤ (cfg80 + 1).toNat)
    (most : (cfg80 + 1).toNat ≤ 2 ^ 23) :
    Unrolls (command20 cfg76 cfg80 sts32) (windowStart sts32 (cfg76 + 1)).toNat (cfg80 + 1).toNat ↔
      (windowStart sts32 (cfg76 + 1)).toNat + (cfg80 + 1).toNat < 2 ^ 23 := by
  have first := windowStart_lt sts32 (cfg76 + 1)
  refine ⟨fun unrolls => ?_, unrolls_whole first most⟩
  by_contra beyond
  exact not_unrolls_split first most some (Nat.le_of_not_lt beyond) unrolls

theorem command20_unrolls_iff_middle : Unrolls (command20 4 9 200) 95 10 :=
  (command20_unrolls_iff 4 9 200 (by decide) (by decide)).mpr (by decide)

/-- One sample before a trigger at 0, the last of the ring: the first is sent instead. -/
theorem command20_shifts :
    windowStart 0 1 = 0x007FFFFF ∧ command20 0 0 0 = [⟨0x007FFFFF * 4, 0⟩, ⟨0, 4⟩] ∧
    ¬ Unrolls (command20 0 0 0) 0x007FFFFF 1 :=
  ⟨by decide, by decide, not_unrolls_split (by decide) (by decide) (by decide) (by decide)⟩

end Switcheck.ScopeReadout
