import Mathlib.Algebra.Ring.Int.Defs
import Mathlib.Data.List.GetD
import Switcheck.Server.LowerBound

/-!
# Band codes of `sdr-transceiver-hpsdr`

`misc_write` and `nucleo_write` look a frequency up in a table of band edges. An odd index is a
frequency between the two edges of a band.
-/

namespace Switcheck

open LowerBound

namespace BandCode

/-- `code[i]`, from the index that `lower_bound` returns. -/
def bandCode (freqs : List Int) (freq : BitVec 32) : Nat :=
  let code := lowerBound (freqs.getD · 0) freqs.length freq.toInt
  if code % 2 ≠ 0 then code / 2 + 1 else 0

def miscFreqs : List Int :=
  [1700000, 2100000,
    3400000, 3900000,
    6900000, 7350000,
    9900000, 10250000,
    13900000, 14450000,
    17950000, 18250000,
    20900000, 21550000,
    24800000, 25100000,
    26900000, 30000000,
    49000000, 55000000]

def nucleoFreqs : List Int :=
  [1700000, 2100000,
    3400000, 3900000,
    5250000, 5450000,
    6900000, 7350000,
    9900000, 10250000,
    13900000, 14450000,
    17950000, 18250000,
    20900000, 21550000,
    24800000, 25100000,
    26900000, 30000000,
    49000000, 55000000]

/-- `a != b`. -/
def unequal {w : Nat} (a b : BitVec w) : BitVec w := if a ≠ b then 1 else 0

/-- The word that `misc_write` sends when it differs from the one before. -/
def miscData (freqData : Fin 3 → BitVec 32) (misc0 misc1 misc2 : BitVec 16) : BitVec 16 :=
  let code k := BitVec.ofNat 16 (bandCode miscFreqs (freqData k))
  (unequal (code 0) (code 1) <<< 8 ||| code 2 <<< 4 ||| code 1) |||
    ((misc1 &&& 0x18) <<< 8 ||| (misc0 &&& 0x18) <<< 6) ||| (misc2 &&& 0x03) <<< 13

/-- The words that `nucleo_write` sends. -/
def nucleoData (freqData : Fin 3 → BitVec 32) (nucleo0 nucleo1 nucleo2 nucleo3 : BitVec 32) :
    BitVec 32 × BitVec 32 :=
  let code k := BitVec.ofNat 32 (bandCode nucleoFreqs (freqData k))
  (nucleo3 <<< 25 ||| nucleo2 <<< 20 ||| nucleo1 <<< 17 ||| nucleo0 <<< 1 |||
      unequal (code 0) (code 1),
    code 2 <<< 4 ||| code 1)

/-- The frequency is past the lower edge of a band, and not past its upper edge. -/
def InBand (freqs : List Int) (freq : BitVec 32) (j : Nat) : Prop :=
  2 * j + 1 < freqs.length ∧ freqs.getD (2 * j) 0 < freq.toNat ∧
    freq.toNat ≤ freqs.getD (2 * j + 1) 0

instance (freqs : List Int) (freq : BitVec 32) (j : Nat) : Decidable (InBand freqs freq j) :=
  inferInstanceAs (Decidable (_ ∧ _ ∧ _))

/-- Pairs of edges, each above the one before, that an `int` holds. -/
structure Edges (freqs : List Int) : Prop where
  pairs : freqs.length % 2 = 0
  sorted : freqs.Pairwise (· < ·)
  small : ∀ f ∈ freqs, 0 ≤ f ∧ f < 2 ^ 31

variable {freqs : List Int} {freq : BitVec 32} {value : Int} {j : Nat}

theorem Edges.ascending (edges : Edges freqs) : Ascending (freqs.getD · 0) freqs.length := by
  intro i j le inside
  rcases Nat.eq_or_lt_of_le le with rfl | less
  · exact le_rfl
  · simp only [List.getD_eq_getElem _ _ inside, List.getD_eq_getElem _ _ (less.trans inside)]
    exact (List.pairwise_iff_getElem.mp edges.sorted i j _ inside less).le

theorem index_odd_iff (edges : Edges freqs) :
    lowerBound (freqs.getD · 0) freqs.length value = 2 * j + 1 ↔
      2 * j + 1 < freqs.length ∧ freqs.getD (2 * j) 0 < value ∧
        value ≤ freqs.getD (2 * j + 1) 0 := by
  have ascending := edges.ascending
  have pairs := edges.pairs
  obtain ⟨notLess, least⟩ := isLeast_lowerBound ascending value
  constructor
  · intro odd
    have inside : 2 * j + 1 < freqs.length := by
      have le := lowerBound_le ascending value
      omega
    rw [odd] at notLess
    refine ⟨inside, ?_, notLess inside⟩
    by_contra above
    have smaller := least fun _ => not_lt.mp above
    omega
  · rintro ⟨inside, past, upTo⟩
    have le := least fun _ => upTo
    by_contra other
    have before : lowerBound (freqs.getD · 0) freqs.length value ≤ 2 * j := by omega
    have reached := notLess (by omega)
    have edge := ascending _ _ before (by omega)
    exact absurd (reached.trans edge) (not_le.mpr past)

/-- A frequency from 2^31 on is negative as an `int`, and in no band. -/
theorem inBand_iff (edges : Edges freqs) : InBand freqs freq j ↔
    2 * j + 1 < freqs.length ∧ freqs.getD (2 * j) 0 < freq.toInt ∧
      freq.toInt ≤ freqs.getD (2 * j + 1) 0 := by
  refine and_congr_right fun inside => ?_
  have lower := edges.small (freqs.getD (2 * j) 0) (by
    rw [List.getD_eq_getElem _ _ (by omega)]
    exact List.getElem_mem _)
  have upper := edges.small (freqs.getD (2 * j + 1) 0) (by
    rw [List.getD_eq_getElem _ _ inside]
    exact List.getElem_mem _)
  have bound := freq.isLt
  rw [BitVec.toInt_eq_toNat_cond]
  split <;> omega

theorem bandCode_succ_iff (edges : Edges freqs) :
    bandCode freqs freq = j + 1 ↔ InBand freqs freq j := by
  rw [inBand_iff edges, ← index_odd_iff edges, bandCode]
  split <;> omega

theorem bandCode_zero_iff (edges : Edges freqs) :
    bandCode freqs freq = 0 ↔ ∀ j, ¬ InBand freqs freq j := by
  constructor
  · intro zero j inside
    rw [← bandCode_succ_iff edges, zero] at inside
    cases inside
  · intro none
    cases code : bandCode freqs freq with
    | zero => rfl
    | succ j => exact absurd ((bandCode_succ_iff edges).mp code) (none j)

theorem miscFreqs_edges : Edges miscFreqs := ⟨by decide, by decide, by decide⟩

theorem nucleoFreqs_edges : Edges nucleoFreqs := ⟨by decide, by decide, by decide⟩

/-- The code of both tables is that of the band the frequency is in, and zero outside the bands;
the search ends at the first place not less than the key, whatever the array. -/
theorem tables_lookUp :
    (∀ freqs ∈ [miscFreqs, nucleoFreqs], ∀ freq,
      (∀ j, bandCode freqs freq = j + 1 ↔ InBand freqs freq j) ∧
        (bandCode freqs freq = 0 ↔ ∀ j, ¬ InBand freqs freq j)) ∧
    ∀ (array : Nat → Int) (size : Nat) (value : Int), Ascending array size →
      halve array value (search array size value) = none ∧
        IsLeast {k | k < size → value ≤ array k} (lowerBound array size value) := by
  refine ⟨fun freqs table freq => ?_, fun array size value ascending => ?_⟩
  · have edges : Edges freqs := by
      rw [List.mem_cons, List.mem_singleton] at table
      rcases table with rfl | rfl
      · exact miscFreqs_edges
      · exact nucleoFreqs_edges
    exact ⟨fun j => bandCode_succ_iff edges, bandCode_zero_iff edges⟩
  · exact ⟨(search_spec ascending value).1, isLeast_lowerBound ascending value⟩

theorem tables_lookUp_fortyMeters : bandCode miscFreqs 7100000 = 3 :=
  ((tables_lookUp.1 miscFreqs (by decide) 7100000).1 2).mpr (by decide)

/-! ### The words sent -/

theorem bandCode_le (edges : Edges freqs) : 2 * bandCode freqs freq ≤ freqs.length := by
  cases code : bandCode freqs freq with
  | zero => exact Nat.zero_le _
  | succ j =>
    have inside := ((bandCode_succ_iff edges).mp code).1
    omega

theorem getLsbD_code (edges : Edges freqs) (few : freqs.length < 32) {k : Nat} (past : 4 ≤ k) :
    (BitVec.ofNat 16 (bandCode freqs freq)).getLsbD k = false := by
  have le : 2 * bandCode freqs freq ≤ freqs.length := bandCode_le edges
  have power : 2 ^ 4 ≤ 2 ^ k := Nat.pow_le_pow_right Nat.two_pos past
  rw [BitVec.getLsbD_ofNat, Nat.testBit_lt_two_pow (by omega), Bool.and_false]

/-- The codes of `misc_write` do not run into each other, nor into the other settings. -/
theorem miscData_codes (freqData : Fin 3 → BitVec 32) (misc0 misc1 misc2 : BitVec 16) {k : Nat}
    (low : k < 4) :
    (miscData freqData misc0 misc1 misc2).getLsbD k =
      (BitVec.ofNat 16 (bandCode miscFreqs (freqData 1))).getLsbD k ∧
    (miscData freqData misc0 misc1 misc2).getLsbD (4 + k) =
      (BitVec.ofNat 16 (bandCode miscFreqs (freqData 2))).getLsbD k := by
  have past : (BitVec.ofNat 16 (bandCode miscFreqs (freqData 1))).getLsbD (4 + k) = false :=
    getLsbD_code miscFreqs_edges (by decide) (Nat.le_add_right 4 k)
  unfold miscData
  dsimp only
  generalize unequal _ _ = differ
  generalize BitVec.ofNat 16 (bandCode miscFreqs (freqData 1)) = code1 at past ⊢
  generalize BitVec.ofNat 16 (bandCode miscFreqs (freqData 2)) = code2
  have places : k = 0 ∨ k = 1 ∨ k = 2 ∨ k = 3 := by omega
  rcases places with rfl | rfl | rfl | rfl <;> simp_all

end BandCode

end Switcheck
