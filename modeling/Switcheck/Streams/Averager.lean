import Mathlib.Algebra.GroupWithZero.Nat
import Switcheck.Modules.Buffers
import Switcheck.Modules.Verilog
import Switcheck.Sync.Circuit
import Switcheck.Sync.Fifo

/-!
# `axis_averager`

With the FIFO at its ports, which turns over the sums of a trace: every sample takes a sum from it
and puts one back. While the first trace of a group comes in, the sums of the last group go out.
-/

namespace Switcheck

open Sync Circuit

structure AveragerConfig (c : Nat) where
  /-- `AXIS_TDATA_SIGNED`. -/
  signed : Bool
  preData : BitVec c
  totData : BitVec c
  depth : Nat

structure AxisAverager (c w : Nat) where
  intCntrReg : BitVec c
  intRdenReg : Bool
  intTvalidReg : Bool
  fifo : List (BitVec w)

structure AveragerPins (w : Nat) where
  sAxisTdata : BitVec w
  sAxisTvalid : Bool

namespace AxisAverager

variable {c w : Nat}

def packing (w : Nat) : Packing (BitVec w) (BitVec w) (BitVec w) := Packing.single 0

def fifoReadData (s : AxisAverager c w) : BitVec w := (packing w).dout s.fifo

def fifoProgFull (cfg : AveragerConfig c) (s : AxisAverager c w) : Bool :=
  decide (cfg.preData.toNat + 1 ≤ (packing w).count s.fifo)

def intDataWire (s : AxisAverager c w) : BitVec w := if s.intTvalidReg then 0 else s.fifoReadData

def sumDataWire (cfg : AveragerConfig c) (s : AxisAverager c w) (i : AveragerPins w) : BitVec w :=
  if cfg.signed then BitVec.ofInt w (s.intDataWire.toInt + i.sAxisTdata.toInt)
  else s.intDataWire + i.sAxisTdata

def mAxisTvalid (cfg : AveragerConfig c) (s : AxisAverager c w) (i : AveragerPins w) : Bool :=
  s.fifoProgFull cfg && s.intTvalidReg && i.sAxisTvalid

def fifoReadRden (s : AxisAverager c w) (i : AveragerPins w) : Bool := s.intRdenReg && i.sAxisTvalid

/-- The reset of the core is that of the FIFO. -/
def posedge (aresetn : Bool) (cfg : AveragerConfig c) (s : AxisAverager c w) (i : AveragerPins w) :
    AxisAverager c w where
  intCntrReg :=
    if !aresetn then 0
    else if i.sAxisTvalid then if s.intCntrReg = cfg.totData then 0 else s.intCntrReg + 1
    else s.intCntrReg
  intRdenReg :=
    if !aresetn then false
    else if i.sAxisTvalid && s.intCntrReg == cfg.preData then true
    else s.intRdenReg
  intTvalidReg :=
    if !aresetn then true
    else if i.sAxisTvalid && s.intCntrReg == cfg.totData then true
    else if i.sAxisTvalid && s.intCntrReg == cfg.preData then false
    else s.intTvalidReg
  fifo :=
    if !aresetn then []
    else (packing w).next cfg.depth s.fifo i.sAxisTvalid (s.sumDataWire cfg i) (s.fifoReadRden i)

def circuit (w : Nat) (cfg : AveragerConfig c) : Circuit (AxisAverager c w) (AveragerPins w) where
  Reset s := ∃ s₀ i, s = posedge false cfg s₀ i
  tick := posedge true cfg

abbrev Tick (c w : Nat) := Clock (AxisAverager c w) (AveragerPins w)

/-- `s_axis_tready` is high. -/
def accepted (c : Tick c w) : List (BitVec w) := beat c.pins.sAxisTvalid c.pins.sAxisTdata

def emitted (cfg : AveragerConfig c) (c : Tick c w) : List (BitVec w) :=
  beat (c.regs.mAxisTvalid cfg c.pins) c.regs.fifoReadData

def written (cfg : AveragerConfig c) (c : Tick c w) : List (BitVec w) :=
  beat c.pins.sAxisTvalid (c.regs.sumDataWire cfg c.pins)

abbrev samples (past : List (Tick c w)) : List (BitVec w) := past.flatMap accepted

abbrev sums (cfg : AveragerConfig c) (past : List (Tick c w)) : List (BitVec w) :=
  past.flatMap (written cfg)

/-- The samples at `m`, `m + p`, `m + 2 * p`, ... added up, modulo `2 ^ w`. -/
def strided (p : Nat) (xs : List (BitVec w)) (m count : Nat) : BitVec w :=
  BitVec.ofNat w ((List.range count).map fun r => (xs.getD (m + r * p) 0).toNat).sum

theorem strided_succ (p : Nat) (xs : List (BitVec w)) (m count : Nat) :
    strided p xs m (count + 1) = strided p xs m count + xs.getD (m + count * p) 0 := by
  rw [strided, List.range_succ, List.map_append, List.sum_append, BitVec.ofNat_add]
  simp [strided]

theorem getD_snoc {β : Type} {xs : List β} {m : Nat} (below : m < xs.length) (x y : β) :
    (xs ++ [x]).getD m y = xs.getD m y := by
  rw [List.getD_eq_getElem?_getD, List.getD_eq_getElem?_getD, List.getElem?_append_left below]

variable {cfg : AveragerConfig c} {past : List (Tick c w)} {s : AxisAverager c w}
  {i : AveragerPins w}

/-- Each sum is the sample alone in the first trace of a group, and else the sample on top of the
sum one trace earlier. -/
def Recurs (p t : Nat) (xs sums : List (BitVec w)) : Prop :=
  sums.length = xs.length ∧ ∀ m < xs.length,
    sums.getD m 0 = (if m % t < p then 0 else sums.getD (m - p) 0) + xs.getD m 0

theorem Recurs.snoc {p t : Nat} {xs sums : List (BitVec w)} (recurs : Recurs p t xs sums)
    (pos : 0 < p) {x sum : BitVec w} (next : sum =
      (if xs.length % t < p then 0 else sums.getD (xs.length - p) 0) + x) :
    Recurs p t (xs ++ [x]) (sums ++ [sum]) := by
  obtain ⟨lengths, each⟩ := recurs
  have earlier (m : Nat) (le : m ≤ xs.length) :
      (if m % t < p then 0 else (sums ++ [sum]).getD (m - p) 0) =
        if m % t < p then 0 else sums.getD (m - p) 0 := by
    refine ite_congr rfl (fun _ => rfl) fun later => ?_
    have some : p ≤ m := Nat.le_trans (Nat.le_of_not_lt later) (Nat.mod_le m t)
    exact getD_snoc (by omega) sum 0
  refine ⟨by simp [lengths], fun m below => ?_⟩
  rw [List.length_append, List.length_singleton, Nat.lt_succ_iff] at below
  rw [earlier m below]
  rcases Nat.lt_or_eq_of_le below with before | last
  · rw [getD_snoc (lengths ▸ before), getD_snoc before]
    exact each m before
  · subst last
    have new (ys : List (BitVec w)) (y : BitVec w) : (ys ++ [y]).getD ys.length 0 = y := by simp
    rw [new xs x, ← lengths, new sums sum, lengths]
    exact next

/-- A sum is made of the samples of the traces so far. -/
theorem Recurs.strided {p r : Nat} {xs sums : List (BitVec w)} (recurs : Recurs p (r * p) xs sums)
    {base k q : Nat} (group : r * p ∣ base) (first : k < p) (trace : q < r)
    (below : base + k + q * p < xs.length) :
    sums.getD (base + k + q * p) 0 = AxisAverager.strided p xs (base + k) (q + 1) := by
  have position {q : Nat} (trace : q < r) : (base + k + q * p) % (r * p) = k + q * p := by
    have within : (q + 1) * p ≤ r * p := Nat.mul_le_mul_right p trace
    rw [Nat.succ_mul] at within
    rw [Nat.add_assoc, Nat.add_mod, Nat.mod_eq_zero_of_dvd group, Nat.zero_add, Nat.mod_mod]
    exact Nat.mod_eq_of_lt (by omega)
  induction q with
  | zero =>
    rw [recurs.2 _ below, position trace, if_pos (by omega), strided_succ]
    simp [AxisAverager.strided]
  | succ q ih =>
    have step : base + k + (q + 1) * p = base + k + q * p + p := by
      rw [Nat.succ_mul, ← Nat.add_assoc]
    have later : ¬ k + (q + 1) * p < p := by
      rw [Nat.succ_mul]
      omega
    rw [recurs.2 _ below, position trace, if_neg later, strided_succ]
    congr 1
    rw [step, Nat.add_sub_cancel]
    exact ih (by omega) (by omega)

/-! ### The circulating sums -/

/-- The registers after `n` samples, of the group of `t` they belong to. -/
structure Circulates (cfg : AveragerConfig c) (past : List (Tick c w)) (s : AxisAverager c w) :
    Prop where
  cntr : s.intCntrReg.toNat = (samples past).length % (cfg.totData.toNat + 1)
  rden : s.intRdenReg = decide (cfg.preData.toNat + 1 ≤ (samples past).length)
  tvalid : s.intTvalidReg = decide
    ((samples past).length % (cfg.totData.toNat + 1) < cfg.preData.toNat + 1)
  recurs : Recurs (cfg.preData.toNat + 1) (cfg.totData.toNat + 1) (samples past)
    (sums cfg past)
  fifo : s.fifo = (sums cfg past).drop
    ((samples past).length - (cfg.preData.toNat + 1))

theorem Circulates.length (circulates : Circulates cfg past s) :
    s.fifo.length = min (samples past).length (cfg.preData.toNat + 1) := by
  rw [circulates.fifo, List.length_drop, circulates.recurs.1]
  omega

theorem sumDataWire_eq (cfg : AveragerConfig c) (s : AxisAverager c w) (i : AveragerPins w) :
    s.sumDataWire cfg i = s.intDataWire + i.sAxisTdata := by
  unfold sumDataWire
  cases cfg.signed with
  | false => rfl
  | true => rw [if_pos rfl, BitVec.ofInt_add, BitVec.ofInt_toInt, BitVec.ofInt_toInt]

theorem Circulates.dout (circulates : Circulates cfg past s)
    (turns : cfg.preData.toNat + 1 ≤ (samples past).length) :
    s.fifoReadData = (sums cfg past).getD
      ((samples past).length - (cfg.preData.toNat + 1)) 0 := by
  have lengths := circulates.recurs.1
  have below : (samples past).length - (cfg.preData.toNat + 1) <
      (sums cfg past).length := by omega
  have head : s.fifo.head? = some ((sums cfg past).getD
      ((samples past).length - (cfg.preData.toNat + 1)) 0) := by
    rw [circulates.fifo, List.head?_drop, List.getD_eq_getElem?_getD,
      List.getElem?_eq_getElem below]
    rfl
  exact Packing.single_dout head

theorem circulates_idle (circulates : Circulates cfg past s) (idle : i.sAxisTvalid = false) :
    Circulates cfg (past ++ [⟨s, i⟩]) (posedge true cfg s i) := by
  have same : samples (past ++ [⟨s, i⟩]) = samples past := by
    simp [accepted, idle]
  have ys : sums cfg (past ++ [⟨s, i⟩]) = sums cfg past := by
    simp [written, idle]
  obtain ⟨cntr, rden, tvalid, recurs, fifo⟩ := circulates
  refine ⟨?_, ?_, ?_, ?_, ?_⟩
  · rw [same, ← cntr]
    simp [posedge, idle]
  · rw [same, ← rden]
    simp [posedge, idle]
  · rw [same, ← tvalid]
    simp [posedge, idle]
  · rw [same, ys]
    exact recurs
  · rw [same, ys, ← fifo]
    simp only [posedge, idle, fifoReadRden, Bool.and_false, Bool.not_true, Bool.false_eq_true,
      if_false]
    exact Packing.single_next_idle _

theorem circulates_valid (circulates : Circulates cfg past s) (valid : i.sAxisTvalid = true)
    (within : cfg.preData.toNat ≤ cfg.totData.toNat) (room : cfg.preData.toNat + 2 ≤ cfg.depth) :
    Circulates cfg (past ++ [⟨s, i⟩]) (posedge true cfg s i) := by
  have xs : samples (past ++ [⟨s, i⟩]) = samples past ++ [i.sAxisTdata] := by
    simp [accepted, valid]
  have ys : sums cfg (past ++ [⟨s, i⟩]) =
      sums cfg past ++ [s.sumDataWire cfg i] := by
    simp [written, valid]
  have count : (samples (past ++ [⟨s, i⟩])).length = (samples past).length + 1 := by
    rw [xs, List.length_append, List.length_singleton]
  have length := circulates.length
  have dout := circulates.dout
  obtain ⟨cntr, rden, tvalid, recurs, fifo⟩ := circulates
  have turn := succ_mod_succ (samples past).length cfg.totData.toNat
  have bound : (samples past).length % (cfg.totData.toNat + 1) < cfg.totData.toNat + 1 :=
    Nat.mod_lt _ (Nat.succ_pos _)
  have least := Nat.mod_le (samples past).length (cfg.totData.toNat + 1)
  have pre : s.intCntrReg = cfg.preData ↔
      (samples past).length % (cfg.totData.toNat + 1) = cfg.preData.toNat := by
    rw [← cntr, BitVec.toNat_inj]
  have tot : s.intCntrReg = cfg.totData ↔
      (samples past).length % (cfg.totData.toNat + 1) = cfg.totData.toNat := by
    rw [← cntr, BitVec.toNat_inj]
  have next : s.sumDataWire cfg i =
      (if (samples past).length % (cfg.totData.toNat + 1) < cfg.preData.toNat + 1 then 0
        else (sums cfg past).getD ((samples past).length - (cfg.preData.toNat + 1)) 0) +
      i.sAxisTdata := by
    rw [sumDataWire_eq, intDataWire, tvalid]
    congr 1
    simp only [decide_eq_true_eq]
    exact ite_congr rfl (fun _ => rfl) fun later => dout (by omega)
  refine ⟨?_, ?_, ?_, ?_, ?_⟩
  · have reg : (posedge true cfg s i).intCntrReg =
        if s.intCntrReg < cfg.totData then s.intCntrReg + 1 else 0 := by
      have last : s.intCntrReg = cfg.totData ↔ ¬ s.intCntrReg < cfg.totData := by
        rw [tot, BitVec.lt_def, cntr]
        omega
      by_cases below : s.intCntrReg < cfg.totData <;> simp [posedge, valid, last, below]
    rw [reg, count]
    exact toNat_ringNext cntr
  · rw [count]
    by_cases first : s.intCntrReg = cfg.preData
    · have reached := pre.mp first
      have enough : cfg.preData.toNat + 1 ≤ (samples past).length + 1 := by omega
      rw [decide_eq_true enough]
      simp [posedge, valid, first]
    · have reg : (posedge true cfg s i).intRdenReg = s.intRdenReg := by
        simp [posedge, valid, first]
      rw [reg, rden]
      refine decide_eq_decide.mpr ⟨Nat.le_succ_of_le, fun reached => ?_⟩
      by_contra short
      refine first (pre.mpr ?_)
      rw [Nat.mod_eq_of_lt (by omega)]
      omega
  · rw [count, turn]
    by_cases last : s.intCntrReg = cfg.totData
    · have end_of := tot.mp last
      have starts : (0 : Nat) < cfg.preData.toNat + 1 := Nat.succ_pos _
      rw [if_neg (by omega), decide_eq_true starts]
      simp [posedge, valid, last]
    · have more : ¬ (samples past).length % (cfg.totData.toNat + 1) = cfg.totData.toNat :=
        fun eq => last (tot.mpr eq)
      rw [if_pos (by omega)]
      by_cases first : s.intCntrReg = cfg.preData
      · have reached := pre.mp first
        have apart : ¬ cfg.preData = cfg.totData := fun same => last (first.trans same)
        rw [decide_eq_false (by omega)]
        simp [posedge, valid, first, apart]
      · have reg : (posedge true cfg s i).intTvalidReg = s.intTvalidReg := by
          simp [posedge, valid, last, first]
        have other : ¬ (samples past).length % (cfg.totData.toNat + 1) = cfg.preData.toNat :=
          fun eq => first (pre.mpr eq)
        rw [reg, tvalid]
        refine decide_eq_decide.mpr ?_
        omega
  · rw [xs, ys]
    exact recurs.snoc (Nat.succ_pos _) next
  · have pushed : (posedge true cfg s i).fifo =
        s.fifo.drop s.intRdenReg.toNat ++ [s.sumDataWire cfg i] := by
      have low : s.fifo.length < cfg.depth := by omega
      simp only [posedge, valid, fifoReadRden, Bool.and_true, Bool.not_true, Bool.false_eq_true,
        if_false]
      exact Packing.single_next low _ _
    have lengths := recurs.1
    rw [count, ys, pushed, List.drop_append_of_le_length (by omega), fifo, List.drop_drop, rden]
    congr 2
    by_cases turns : cfg.preData.toNat + 1 ≤ (samples past).length
    · rw [decide_eq_true turns]
      show _ + 1 = _
      omega
    · rw [decide_eq_false turns]
      show _ + 0 = _
      omega

theorem run_circulates (within : cfg.preData.toNat ≤ cfg.totData.toNat)
    (room : cfg.preData.toNat + 2 ≤ cfg.depth) (run : (circuit w cfg).Run past s) :
    Circulates cfg past s := by
  induction run with
  | reset reset =>
    obtain ⟨s₀, i, rfl⟩ := reset
    refine ⟨by simp [posedge], by simp [posedge], by simp [posedge], ⟨rfl, ?_⟩, by simp [posedge]⟩
    rintro m ⟨⟩
  | @tick past s _ i ih =>
    cases valid : i.sAxisTvalid with
    | false => exact circulates_idle ih valid
    | true => exact circulates_valid ih valid within room

/-! ### What goes out -/

/-- The sum for sample `n` of the group before its own. -/
def summed (p r : Nat) (xs : List (BitVec w)) (n : Nat) : BitVec w :=
  strided p xs ((n / (r * p) - 1) * (r * p) + n % (r * p)) r

/-- In the first trace of a group that is not the first. -/
def repeats (p r n : Nat) : Bool := decide (r * p ≤ n ∧ n % (r * p) < p)

/-- The sum one trace earlier is that of the whole group. -/
theorem Recurs.summed {p r : Nat} {xs sums : List (BitVec w)} (recurs : Recurs p (r * p) xs sums)
    (pos : 0 < p) (later : r * p ≤ xs.length) (some : 0 < r) (first : xs.length % (r * p) < p) :
    sums.getD (xs.length - p) 0 = AxisAverager.summed p r xs xs.length := by
  obtain ⟨q, rfl⟩ : ∃ q, r = q + 1 := ⟨r - 1, by omega⟩
  obtain ⟨g, group⟩ : ∃ g, xs.length / ((q + 1) * p) = g + 1 := by
    have one := Nat.div_pos later (Nat.mul_pos some pos)
    exact ⟨xs.length / ((q + 1) * p) - 1, by omega⟩
  have place : g * ((q + 1) * p) + xs.length % ((q + 1) * p) + q * p = xs.length - p := by
    have whole := Nat.mod_add_div xs.length ((q + 1) * p)
    rw [group, Nat.mul_succ, Nat.mul_comm ((q + 1) * p) g] at whole
    have trace : (q + 1) * p = q * p + p := Nat.succ_mul q p
    omega
  have below : g * ((q + 1) * p) + xs.length % ((q + 1) * p) + q * p < xs.length := by
    have long := Nat.le_trans (Nat.le_mul_of_pos_left p some) later
    omega
  rw [← place, recurs.strided (Nat.dvd_mul_left _ g) first (Nat.lt_succ_self q) below,
    AxisAverager.summed, group, Nat.add_sub_cancel]

theorem emitted_eq {r : Nat} (circulates : Circulates cfg past s)
    (groups : cfg.totData.toNat + 1 = r * (cfg.preData.toNat + 1)) :
    emitted cfg ⟨s, i⟩ =
      beat (i.sAxisTvalid && repeats (cfg.preData.toNat + 1) r (samples past).length)
        (summed (cfg.preData.toNat + 1) r (samples past) (samples past).length) := by
  have within : cfg.preData.toNat + 1 ≤ r * (cfg.preData.toNat + 1) := by
    cases r with
    | zero => omega
    | succ r => exact Nat.le_mul_of_pos_left _ (Nat.succ_pos r)
  have full : s.fifoProgFull cfg = decide (cfg.preData.toNat + 1 ≤ (samples past).length) := by
    have length := circulates.length
    have count : (packing w).count s.fifo = s.fifo.length := Nat.div_one _
    rw [fifoProgFull, count, length]
    exact decide_eq_decide.mpr (by omega)
  have fires : s.mAxisTvalid cfg i =
      (i.sAxisTvalid && repeats (cfg.preData.toNat + 1) r (samples past).length) := by
    have same : (cfg.preData.toNat + 1 ≤ (samples past).length ∧
        (samples past).length % (cfg.totData.toNat + 1) < cfg.preData.toNat + 1) ↔
        (r * (cfg.preData.toNat + 1) ≤ (samples past).length ∧
          (samples past).length % (r * (cfg.preData.toNat + 1)) < cfg.preData.toNat + 1) := by
      rw [groups]
      constructor
      · rintro ⟨turns, first⟩
        refine ⟨?_, first⟩
        by_contra short
        rw [Nat.mod_eq_of_lt (Nat.lt_of_not_le short)] at first
        omega
      · rintro ⟨later, first⟩
        exact ⟨Nat.le_trans within later, first⟩
    rw [mAxisTvalid, full, circulates.tvalid, ← Bool.decide_and, decide_eq_decide.mpr same,
      Bool.and_comm]
    rfl
  rw [emitted, fires]
  cases now : i.sAxisTvalid && repeats (cfg.preData.toNat + 1) r (samples past).length with
  | false => rfl
  | true =>
    have here : repeats (cfg.preData.toNat + 1) r (samples past).length = true := by
      rw [Bool.and_eq_true] at now
      exact now.2
    obtain ⟨later, first⟩ := of_decide_eq_true here
    have recurs := circulates.recurs
    rw [groups] at recurs
    have some : 0 < r := by
      by_contra none
      rw [Nat.eq_zero_of_not_pos none, Nat.zero_mul] at groups
      cases groups
    rw [circulates.dout (Nat.le_trans within later),
      recurs.summed (Nat.succ_pos _) later some first]

/-- A sample that comes later is not part of a sum that has gone out. -/
theorem summed_snoc {p r n : Nat} {xs : List (BitVec w)} (x : BitVec w) (there : n ≤ xs.length)
    (turn : repeats p r n = true) : summed p r (xs ++ [x]) n = summed p r xs n := by
  obtain ⟨later, first⟩ := of_decide_eq_true turn
  have whole := Nat.mod_add_div n (r * p)
  unfold summed strided
  congr 2
  refine List.map_congr_left fun q small => ?_
  have within : (q + 1) * p ≤ r * p := Nat.mul_le_mul_right p (List.mem_range.mp small)
  rw [Nat.succ_mul] at within
  have one : 1 ≤ n / (r * p) := Nat.div_pos later (by omega)
  have group : (n / (r * p) - 1) * (r * p) + r * p = r * p * (n / (r * p)) := by
    rw [← Nat.succ_mul, Nat.mul_comm]
    congr 1
    omega
  rw [getD_snoc (by omega)]

/-- Once the first trace is in, the FIFO holds one trace of sums. Nothing goes out with the first
group of samples, and with the first trace of each later group the sums of the group before, each
with the sample of its number. -/
theorem run_averages {r : Nat} (groups : cfg.totData.toNat + 1 = r * (cfg.preData.toNat + 1))
    (room : cfg.preData.toNat + 2 ≤ cfg.depth) (run : (circuit w cfg).Run past s) :
    s.fifo.length = min (samples past).length (cfg.preData.toNat + 1) ∧
    (∀ i, emitted cfg ⟨s, i⟩ =
      beat (i.sAxisTvalid && repeats (cfg.preData.toNat + 1) r (samples past).length)
        (summed (cfg.preData.toNat + 1) r (samples past) (samples past).length)) ∧
    past.flatMap (emitted cfg) =
      ((List.range (samples past).length).filter (repeats (cfg.preData.toNat + 1) r)).map
        (summed (cfg.preData.toNat + 1) r (samples past)) := by
  have within : cfg.preData.toNat ≤ cfg.totData.toNat := by
    cases r with
    | zero => omega
    | succ r =>
      have le : cfg.preData.toNat + 1 ≤ (r + 1) * (cfg.preData.toNat + 1) :=
        Nat.le_mul_of_pos_left _ (Nat.succ_pos r)
      omega
  have circulates := run_circulates within room run
  refine ⟨circulates.length, fun i => emitted_eq circulates groups, ?_⟩
  induction run with
  | reset => rfl
  | @tick past s run i ih =>
    have before := run_circulates within room run
    rw [flatMap_snoc, ih before, emitted_eq before groups]
    cases valid : i.sAxisTvalid with
    | false =>
      have same : samples (past ++ [⟨s, i⟩]) = samples past := by simp [accepted, valid]
      rw [same, Bool.false_and, beat_false, List.append_nil]
    | true =>
      have xs : samples (past ++ [⟨s, i⟩]) = samples past ++ [i.sAxisTdata] := by
        simp [accepted, valid]
      have earlier : ((List.range (samples past).length).filter
            (repeats (cfg.preData.toNat + 1) r)).map
            (summed (cfg.preData.toNat + 1) r (samples past ++ [i.sAxisTdata])) =
          ((List.range (samples past).length).filter (repeats (cfg.preData.toNat + 1) r)).map
            (summed (cfg.preData.toNat + 1) r (samples past)) := by
        refine List.map_congr_left fun m member => ?_
        obtain ⟨below, turn⟩ := List.mem_filter.mp member
        exact summed_snoc _ (Nat.le_of_lt (List.mem_range.mp below)) turn
      rw [xs, List.length_append, List.length_singleton, List.range_succ, List.filter_append,
        List.map_append, earlier, Bool.true_and]
      congr 1
      rw [List.filter_singleton]
      cases turn : repeats (cfg.preData.toNat + 1) r (samples past).length with
      | false => rfl
      | true =>
        rw [cond_true, List.map_singleton, summed_snoc i.sAxisTdata (Nat.le_refl _) turn, beat_true]

/-- Traces of two samples, two in a group. -/
def twoByTwo (signed : Bool) : AveragerConfig 4 := ⟨signed, 1, 3, 3⟩

def sampled (n : Nat) : AveragerPins 8 := ⟨BitVec.ofNat 8 n, true⟩

def idle : AveragerPins 8 := ⟨0, false⟩

def fresh (signed : Bool) : AxisAverager 4 8 :=
  posedge false (twoByTwo signed) ⟨0, false, false, []⟩ idle

theorem fresh_reset (signed : Bool) : (circuit 8 (twoByTwo signed)).Reset (fresh signed) :=
  ⟨_, _, rfl⟩

def threeGroups : List (AveragerPins 8) :=
  (List.range 12).flatMap fun n => [idle, sampled (100 * n)]

/-- 0 + 200, 100 + 300, 400 + 600 and 500 + 700 modulo 256. -/
theorem run_averages_threeGroups :
    ((circuit 8 (twoByTwo true)).trace (fresh true) threeGroups).flatMap (emitted (twoByTwo true)) =
      [200, 144, 232, 176] := by
  rw [(run_averages (r := 2) (by decide) (by decide)
    (run_trace (fresh_reset true) threeGroups)).2.2]
  decide +kernel

end AxisAverager

end Switcheck
