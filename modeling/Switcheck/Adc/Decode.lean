import Mathlib.Algebra.Order.Ring.Abs
import Switcheck.Adc.Tags

/-!
# Encoding and decoding of a sample

The wires between a captured sample and its 15-bit field, and the loop of `adc.c` that reads the
field back.
-/

namespace Switcheck.Adc

variable {w : Nat} {s : Adc w} {i : AdcPins}

section Wires

variable (dat : BitVec w) (multBefore : BitVec 8) (bias : BitVec 16) (multAfter : BitVec 8)

def productBefore : BitVec 24 := (dat.signExtend 16).signExtend 24 * multBefore.signExtend 24

def biasCorr : BitVec 24 := productBefore dat multBefore + bias.signExtend 24

def productAfter : BitVec 32 :=
  (biasCorr dat multBefore bias).signExtend 32 * multAfter.signExtend 32

theorem scaled_eq : scaled dat multBefore bias multAfter =
    (productAfter dat multBefore bias multAfter).extractLsb' 0 16 := rfl

/-- The value of a sample in exact integers. -/
def exactValue : Int := (dat.toInt * multBefore.toInt + bias.toInt) * multAfter.toInt

/-- What `adc.c` reads in the field of one channel. -/
structure FieldExact (field : BitVec 16) : Prop where
  productBefore : (productBefore dat multBefore).toInt = dat.toInt * multBefore.toInt
  biasCorr : (biasCorr dat multBefore bias).toInt = dat.toInt * multBefore.toInt + bias.toInt
  productAfter : (productAfter dat multBefore bias multAfter).toInt =
    exactValue dat multBefore bias multAfter
  reduced : field.toInt = (exactValue dat multBefore bias multAfter).bmod (2 ^ 15)
  exact_iff : field.toInt = exactValue dat multBefore bias multAfter ↔
    -16384 ≤ exactValue dat multBefore bias multAfter ∧
      exactValue dat multBefore bias multAfter ≤ 16383

end Wires

/-- `type`, `a` and `b` of the loop. -/
structure Record where
  type : BitVec 8
  a : BitVec 16
  b : BitVec 16
deriving DecidableEq

/-- `if (a & 0x4000) a |= 0x8000;` -/
def extended (a : BitVec 16) : BitVec 16 := if a &&& 0x4000 = 0 then a else a ||| 0x8000

def decode (word : BitVec 32) : Record where
  type := ((word >>> 30) &&& 3).setWidth 8
  a := extended (((word >>> 15) &&& 0x7FFF).setWidth 16)
  b := extended ((word &&& 0x7FFF).setWidth 16)

def wordTag (s : Adc w) (i : AdcPins) : BitVec 2 :=
  if s.seriesEnds i then 0b11 else if s.levelLeft i then 0b10 else 0b00

/-! ### The wires do not overflow -/

theorem toInt_bounds {n : Nat} (x : BitVec n) {m : Nat} (narrow : n ≤ m + 1) :
    |x.toInt| ≤ 2 ^ m := by
  have grow : (2 : Int) ^ (n - 1) ≤ 2 ^ m := by
    exact_mod_cast Nat.pow_le_pow_right Nat.two_pos (show n - 1 ≤ m by omega)
  have low := x.le_toInt
  have high := x.toInt_lt
  exact abs_le.mpr ⟨by omega, by omega⟩

theorem mul_bounds {x y : Int} {a b : Nat} (left : |x| ≤ 2 ^ a) (right : |y| ≤ 2 ^ b) :
    |x * y| ≤ 2 ^ (a + b) := by
  rw [abs_mul, pow_add]
  exact mul_le_mul left right (abs_nonneg y) (pow_nonneg (by decide) a)

section Wires

variable (dat : BitVec w) (multBefore : BitVec 8) (bias : BitVec 16) (multAfter : BitVec 8)

theorem productBefore_bounds (width : w ≤ 16) : |dat.toInt * multBefore.toInt| ≤ 2 ^ 22 :=
  mul_bounds (a := 15) (b := 7) (toInt_bounds dat width) (toInt_bounds multBefore (Nat.le_refl 8))

theorem productBefore_toInt (width : w ≤ 16) :
    (productBefore dat multBefore).toInt = dat.toInt * multBefore.toInt := by
  have bounds := abs_le.mp (productBefore_bounds dat multBefore width)
  unfold productBefore
  rw [BitVec.toInt_mul, BitVec.toInt_signExtend_of_le (by decide),
    BitVec.toInt_signExtend_of_le width, BitVec.toInt_signExtend_of_le (by decide)]
  exact Int.bmod_eq_of_le_mul_two (by omega) (by omega)

theorem biasCorr_bounds (width : w ≤ 16) :
    |dat.toInt * multBefore.toInt + bias.toInt| ≤ 2 ^ 23 - 1 := by
  have product := abs_le.mp (productBefore_bounds dat multBefore width)
  have offset := abs_le.mp (toInt_bounds bias (Nat.le_refl 16))
  exact abs_le.mpr ⟨by omega, by omega⟩

theorem biasCorr_toInt (width : w ≤ 16) :
    (biasCorr dat multBefore bias).toInt = dat.toInt * multBefore.toInt + bias.toInt := by
  have bounds := abs_le.mp (biasCorr_bounds dat multBefore bias width)
  unfold biasCorr
  rw [BitVec.toInt_add, productBefore_toInt dat multBefore width,
    BitVec.toInt_signExtend_of_le (by decide)]
  exact Int.bmod_eq_of_le_mul_two (by omega) (by omega)

theorem productAfter_toInt (width : w ≤ 16) :
    (productAfter dat multBefore bias multAfter).toInt =
      exactValue dat multBefore bias multAfter := by
  have sum : |dat.toInt * multBefore.toInt + bias.toInt| ≤ 2 ^ 23 :=
    le_trans (biasCorr_bounds dat multBefore bias width) (by decide)
  have bounds := abs_le.mp (mul_bounds sum (toInt_bounds (m := 7) multAfter (Nat.le_refl 8)))
  unfold productAfter exactValue
  rw [BitVec.toInt_mul, BitVec.toInt_signExtend_of_le (by decide),
    biasCorr_toInt dat multBefore bias width, BitVec.toInt_signExtend_of_le (by decide)]
  exact Int.bmod_eq_of_le_mul_two (by omega) (by omega)

end Wires

/-! ### The fields of a word -/

theorem extended_eq (x : BitVec 15) : extended (x.setWidth 16) = x.signExtend 16 := by
  have test : x.setWidth 16 &&& 0x4000 = if x.msb then 0x4000 else 0 := by
    have bit : (x.setWidth 16).getLsbD 14 = x.msb := by
      rw [BitVec.getLsbD_setWidth, BitVec.msb_eq_getLsbD_last]
      rfl
    rw [← bit]
    exact BitVec.and_twoPow (x.setWidth 16) 14
  unfold extended
  rw [test]
  cases negative : x.msb with
  | false =>
    rw [BitVec.signExtend_eq_setWidth_of_msb_false negative]
    rfl
  | true =>
    rw [if_pos rfl, if_neg (by decide)]
    refine BitVec.eq_of_getLsbD_eq fun k low => ?_
    have top : (0x8000 : BitVec 16).getLsbD k = decide (k = 15) := by
      rw [show (0x8000 : BitVec 16) = BitVec.twoPow 16 15 from rfl, BitVec.getLsbD_twoPow]
      simp [eq_comm]
    rw [BitVec.getLsbD_or, BitVec.getLsbD_setWidth, BitVec.getLsbD_signExtend, top, negative,
      decide_eq_true low, Bool.true_and, Bool.true_and]
    split
    · have inner : k ≠ 15 := by omega
      simp [inner]
    · have last : k = 15 := by omega
      simp [last]

theorem word_toNat (tag : BitVec 2) (a b : BitVec 15) :
    (tag ++ a ++ b : BitVec 32).toNat = 2 ^ 30 * tag.toNat + 2 ^ 15 * a.toNat + b.toNat := by
  have middle := a.isLt
  have low := b.isLt
  rw [BitVec.toNat_append, BitVec.toNat_append, Nat.shiftLeft_eq, Nat.shiftLeft_eq,
    Nat.mul_comm, Nat.mul_comm tag.toNat, ← Nat.two_pow_add_eq_or_of_lt middle,
    ← Nat.two_pow_add_eq_or_of_lt low]
  omega

theorem masked (x : BitVec 32) {n m : Nat} (mask : BitVec 32) (low : mask.toNat = 2 ^ n - 1)
    (narrow : n ≤ m) : ((x &&& mask).setWidth m).toNat = x.toNat % 2 ^ n := by
  rw [BitVec.toNat_setWidth, BitVec.toNat_and, low, Nat.and_two_pow_sub_one_eq_mod]
  refine Nat.mod_eq_of_lt (Nat.lt_of_lt_of_le (Nat.mod_lt _ (Nat.two_pow_pos n)) ?_)
  exact Nat.pow_le_pow_right Nat.two_pos narrow

theorem decode_fields (tag : BitVec 2) (a b : BitVec 15) :
    decode (tag ++ a ++ b) = ⟨tag.setWidth 8, a.signExtend 16, b.signExtend 16⟩ := by
  have word := word_toNat tag a b
  have upper := tag.isLt
  have middle := a.isLt
  have low := b.isLt
  have typeField : (((tag ++ a ++ b : BitVec 32) >>> 30) &&& 3).setWidth 8 = tag.setWidth 8 := by
    apply BitVec.eq_of_toNat_eq
    rw [masked (n := 2) _ _ rfl (by decide), BitVec.toNat_ushiftRight, word,
      Nat.shiftRight_eq_div_pow, BitVec.toNat_setWidth]
    omega
  have aField : (((tag ++ a ++ b : BitVec 32) >>> 15) &&& 0x7FFF).setWidth 16 = a.setWidth 16 := by
    apply BitVec.eq_of_toNat_eq
    rw [masked (n := 15) _ _ rfl (by decide), BitVec.toNat_ushiftRight, word,
      Nat.shiftRight_eq_div_pow, BitVec.toNat_setWidth]
    omega
  have bField : ((tag ++ a ++ b : BitVec 32) &&& 0x7FFF).setWidth 16 = b.setWidth 16 := by
    apply BitVec.eq_of_toNat_eq
    rw [masked (n := 15) _ _ rfl (by decide), word, BitVec.toNat_setWidth]
    omega
  unfold decode
  rw [typeField, aField, bField, extended_eq, extended_eq]

theorem word_eq (sends : Sends ⟨s, i⟩) :
    (posedge true s i).axisDataReg = s.tagged i (s.wordTag i) := by
  obtain ⟨-, -, -, -, -, -, data⟩ := posedge_send sends.1 sends.2
  rw [data]
  unfold wordTag
  split
  · rfl
  · split <;> rfl

theorem fieldExact (width : w ≤ 16) (dat : BitVec w) (multBefore : BitVec 8) (bias : BitVec 16)
    (multAfter : BitVec 8) : FieldExact dat multBefore bias multAfter
      (((scaled dat multBefore bias multAfter).extractLsb' 0 15).signExtend 16) := by
  have reduced : (((scaled dat multBefore bias multAfter).extractLsb' 0 15).signExtend 16).toInt =
      (exactValue dat multBefore bias multAfter).bmod (2 ^ 15) := by
    have field : (scaled dat multBefore bias multAfter).extractLsb' 0 15 =
        (productAfter dat multBefore bias multAfter).signExtend 15 := by
      rw [scaled_eq, BitVec.signExtend_eq_setWidth_of_le _ (by decide)]
      ext k low
      simp
    rw [BitVec.toInt_signExtend_of_le (by decide), field,
      BitVec.toInt_signExtend_eq_toInt_bmod_of_le _ (by decide),
      productAfter_toInt dat multBefore bias multAfter width]
  refine ⟨productBefore_toInt dat multBefore width, biasCorr_toInt dat multBefore bias width,
    productAfter_toInt dat multBefore bias multAfter width, reduced, ?_⟩
  rw [reduced]
  constructor
  · intro same
    rw [← same]
    have low := Int.le_bmod (x := exactValue dat multBefore bias multAfter) (m := 2 ^ 15) (by decide)
    have high := Int.bmod_lt (x := exactValue dat multBefore bias multAfter) (m := 2 ^ 15) (by decide)
    omega
  · rintro ⟨low, high⟩
    exact Int.bmod_eq_of_le_mul_two (by omega) (by omega)

/-- The record read back from a word has the tag the word was sent with and the two samples, each
exact but for a reduction to 15 bits and none looking at the other. -/
theorem word_decoded (width : w ≤ 16) (sends : Sends ⟨s, i⟩) :
    (decode (posedge true s i).axisDataReg).type = (s.wordTag i).setWidth 8 ∧
    FieldExact s.intDatAReg i.adcMultBeforeBiasA i.biasA i.adcMultAfterBiasA
      (decode (posedge true s i).axisDataReg).a ∧
    FieldExact s.intDatBReg i.adcMultBeforeBiasB i.biasB i.adcMultAfterBiasB
      (decode (posedge true s i).axisDataReg).b := by
  rw [word_eq sends, tagged, decode_fields]
  exact ⟨rfl, fieldExact width _ _ _ _, fieldExact width _ _ _ _⟩

/-- The most negative sample, multipliers and bias on channel A. -/
def extreme : AdcPins :=
  { quiet 1 with biasA := 0x8000, adcMultBeforeBiasA := 0x80, adcMultAfterBiasA := 0x80 }

theorem word_decoded_extreme :
    FieldExact (0x2000 : BitVec 14) 0x80 0x8000 0x80
      (decode (posedge true { fresh with intDatAReg := 0x2000 } extreme).axisDataReg).a ∧
    exactValue (0x2000 : BitVec 14) 0x80 0x8000 0x80 = -130023424 ∧
    (decode (posedge true { fresh with intDatAReg := 0x2000 } extreme).axisDataReg).a.toInt = 0 :=
  ⟨(word_decoded (s := { fresh with intDatAReg := 0x2000 }) (i := extreme) (by decide)
    (by decide)).2.1, by decide, by decide +kernel⟩

end Switcheck.Adc
