import Switcheck.Sync.ByteMap
import Switcheck.Hub.AxiHub

/-!
# The register maps

The configuration register as `cfg_unpack` slices it, the status register as `sts_pack` puts it
together, and the pointers and the packed structure through which `adc.c` sees both.
-/

namespace Switcheck

open Sync

/-! ### `cfg_unpack` -/

structure CfgUnpack where
  nresetAdc : Bool
  nresetAxisWriter : Bool
  biasChA : BitVec 16
  biasChB : BitVec 16
  limiter : BitVec 8
  trgValue : BitVec 16
  rxRate : BitVec 16
  rxAddr : BitVec 32
  nresetTrg : Bool
  nresetMaxSum : Bool
  adcMultBeforeBiasA : BitVec 8
  adcMultBeforeBiasB : BitVec 8
  adcMultAfterBiasA : BitVec 8
  adcMultAfterBiasB : BitVec 8

/-- The slices, at the default `_LSB` and `_WIDTH` parameters. -/
def cfgUnpack (cfgData : BitVec 320) : CfgUnpack :=
  let rxRst : BitVec 8 := cfgData.extractLsb' 0 8
  { rxRate := cfgData.extractLsb' 16 16
    rxAddr := cfgData.extractLsb' 32 32
    trgValue := cfgData.extractLsb' 64 16
    limiter := cfgData.extractLsb' 80 8
    biasChA := cfgData.extractLsb' 96 16
    biasChB := cfgData.extractLsb' 112 16
    adcMultBeforeBiasA := cfgData.extractLsb' 128 8
    adcMultBeforeBiasB := cfgData.extractLsb' 136 8
    adcMultAfterBiasA := cfgData.extractLsb' 144 8
    adcMultAfterBiasB := cfgData.extractLsb' 152 8
    nresetAdc := rxRst.getLsbD 0
    nresetAxisWriter := rxRst.getLsbD 1
    nresetTrg := rxRst.getLsbD 2
    nresetMaxSum := rxRst.getLsbD 3 }

/-- The pointers of `adc.c` into `cfg`. -/
inductive CfgPtr where
  | rxRst
  | rxRate
  | rxAddr
  | trgValue
  | limiter
  | biasChA
  | biasChB
  | adcMultBeforeBiasA
  | adcMultBeforeBiasB
  | adcMultAfterBiasA
  | adcMultAfterBiasB
  deriving DecidableEq

namespace CfgPtr

def offset : CfgPtr → Nat
  | rxRst => 0
  | rxRate => 2
  | rxAddr => 4
  | trgValue => 8
  | limiter => 10
  | biasChA => 12
  | biasChB => 14
  | adcMultBeforeBiasA => 16
  | adcMultBeforeBiasB => 17
  | adcMultAfterBiasA => 18
  | adcMultAfterBiasB => 19

def size : CfgPtr → Nat
  | rxAddr => 4
  | rxRate | trgValue | biasChA | biasChB => 2
  | rxRst | limiter | adcMultBeforeBiasA | adcMultBeforeBiasB | adcMultAfterBiasA
  | adcMultAfterBiasB => 1

theorem whole (f : CfgPtr) : f.offset % 4 + f.size ≤ 4 := by cases f <;> decide

theorem inside (f : CfgPtr) : f.offset + f.size ≤ 20 := by cases f <;> decide

theorem size_pos (f : CfgPtr) : 0 < f.size := by cases f <;> decide

theorem apart {f g : CfgPtr} (other : f ≠ g) :
    f.offset + f.size ≤ g.offset ∨ g.offset + g.size ≤ f.offset := by
  cases f <;> cases g <;> first | decide | exact absurd rfl other

end CfgPtr

/-- What `adc.c` takes the configuration to be: a variable behind each pointer. -/
abbrev CfgVars := (f : CfgPtr) → BitVec (8 * f.size)

/-- The outputs of `cfg_unpack` are the variables of the same name. -/
structure CfgAgrees (vars : CfgVars) (o : CfgUnpack) : Prop where
  nresetAdc : o.nresetAdc = (vars .rxRst).getLsbD 0
  nresetAxisWriter : o.nresetAxisWriter = (vars .rxRst).getLsbD 1
  nresetTrg : o.nresetTrg = (vars .rxRst).getLsbD 2
  nresetMaxSum : o.nresetMaxSum = (vars .rxRst).getLsbD 3
  rxRate : o.rxRate = vars .rxRate
  rxAddr : o.rxAddr = vars .rxAddr
  trgValue : o.trgValue = vars .trgValue
  limiter : o.limiter = vars .limiter
  biasChA : o.biasChA = vars .biasChA
  biasChB : o.biasChB = vars .biasChB
  adcMultBeforeBiasA : o.adcMultBeforeBiasA = vars .adcMultBeforeBiasA
  adcMultBeforeBiasB : o.adcMultBeforeBiasB = vars .adcMultBeforeBiasB
  adcMultAfterBiasA : o.adcMultAfterBiasA = vars .adcMultAfterBiasA
  adcMultAfterBiasB : o.adcMultAfterBiasB = vars .adcMultAfterBiasB

theorem cfgUnpack_agrees {words : Nat → BitVec 32} {vars : CfgVars}
    (same : ∀ f : CfgPtr, load words f.offset f.size = vars f) :
    CfgAgrees vars (cfgUnpack (bus 320 words)) := by
  have slice (f : CfgPtr) :
      (bus 320 words).extractLsb' (8 * f.offset) (8 * f.size) = vars f := by
    have := f.inside
    rw [bus_slice (by omega), same]
  refine ⟨?_, ?_, ?_, ?_, slice .rxRate, slice .rxAddr, slice .trgValue, slice .limiter,
    slice .biasChA, slice .biasChB, slice .adcMultBeforeBiasA, slice .adcMultBeforeBiasB,
    slice .adcMultAfterBiasA, slice .adcMultAfterBiasB⟩
  all_goals rw [← slice .rxRst]; rfl

/-! ### `sts_pack` -/

structure StsInputs where
  rxCntr : BitVec 32
  curAdcA : BitVec 16
  curAdcB : BitVec 16
  curAdc : BitVec 16
  samplesCount : BitVec 64
  adcAbsMax : BitVec 16
  lastDetrigged : BitVec 64
  firstTrgged : BitVec 64
  adcSent : BitVec 32
  triggerActivated : BitVec 16
  triggersCount : BitVec 16

/-- `sts_bus`, at the default field widths and `TOTAL_WIDTH` 640. -/
def stsPack (x : StsInputs) : BitVec 640 :=
  (0 : BitVec 288) ++ x.curAdcB ++ x.curAdcA ++ x.samplesCount ++ x.triggersCount ++
    x.triggerActivated ++ x.adcSent ++ x.firstTrgged ++ x.lastDetrigged ++ x.curAdc ++
    x.adcAbsMax ++ x.rxCntr

/-- The fields of `sts_pack_t`. -/
inductive StsField where
  | rxCntr
  | adcAbsMax
  | curAdc
  | lastDetrigged
  | firstTrgged
  | adcSent
  | triggerActivated
  | triggersCount
  | samplesCount
  | curAdcA
  | curAdcB
  deriving DecidableEq

namespace StsField

def size : StsField → Nat
  | lastDetrigged | firstTrgged | samplesCount => 8
  | rxCntr | adcSent => 4
  | adcAbsMax | curAdc | triggerActivated | triggersCount | curAdcA | curAdcB => 2

/-- `sts_pack_t` in the order of its declaration. -/
def declared : List StsField :=
  [rxCntr, adcAbsMax, curAdc, lastDetrigged, firstTrgged, adcSent, triggerActivated,
    triggersCount, samplesCount, curAdcA, curAdcB]

/-- Under `#pragma pack(1)` a field follows the one before it. -/
def structOffset (f : StsField) : Nat := ((declared.takeWhile (· ≠ f)).map size).sum

/-- The pointers of `adc.c` into `sts`. -/
def ptrOffset : StsField → Option Nat
  | rxCntr => some 0
  | adcAbsMax => some 4
  | curAdc => some 6
  | lastDetrigged => some 8
  | firstTrgged => some 16
  | samplesCount => some 32
  | _ => none

def input (x : StsInputs) : (f : StsField) → BitVec (8 * f.size)
  | rxCntr => x.rxCntr
  | adcAbsMax => x.adcAbsMax
  | curAdc => x.curAdc
  | lastDetrigged => x.lastDetrigged
  | firstTrgged => x.firstTrgged
  | adcSent => x.adcSent
  | triggerActivated => x.triggerActivated
  | triggersCount => x.triggersCount
  | samplesCount => x.samplesCount
  | curAdcA => x.curAdcA
  | curAdcB => x.curAdcB

theorem extract_stsPack (x : StsInputs) (f : StsField) :
    (stsPack x).extractLsb' (8 * f.structOffset) (8 * f.size) = f.input x := by
  -- `sts_pack` lists the fields from the top: pass those below the field, which is then lowest
  cases f
  all_goals
    repeat refine (BitVec.extractLsb'_append_eq_of_le (by decide)).trans ?_
    exact BitVec.extractLsb'_append_eq_right

theorem ptrOffset_eq {f : StsField} {o : Nat} (pointer : f.ptrOffset = some o) :
    o = f.structOffset := by
  cases f <;> cases pointer <;> decide

end StsField

end Switcheck
