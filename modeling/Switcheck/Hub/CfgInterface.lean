import Switcheck.Modules.Buffers
import Switcheck.Modules.Verilog
import Switcheck.Sync.ByteMap
import Switcheck.Sync.Circuit

/-!
# `axis_cfg_interface`

A stream of words loads the 160 bits of `cfg` in groups of five. The port is ready while
`word_counter` is not four, the place of the fifth word, so that no group is ever complete.
-/

namespace Switcheck

open Sync Circuit

structure AxisCfgInterface where
  mAxisTdata : BitVec 32
  mAxisTvalid : Bool
  cfg : BitVec 160
  cfgReg : BitVec 160
  wordCounter : BitVec 3

structure CfgInterfacePins where
  sAxisTdata : BitVec 32
  sAxisTvalid : Bool
  mAxisTready : Bool
  cfgOut : BitVec 32

namespace AxisCfgInterface

def sAxisTready (s : AxisCfgInterface) : Bool := s.wordCounter != 4

/-- The case on `word_counter`; its values over four have no branch. -/
def storeWord (cfgReg : BitVec 160) (wordCounter : BitVec 3) (data : BitVec 32) : BitVec 160 :=
  if wordCounter ≤ 4 then
    bus 160 fun j => if j = wordCounter.toNat then data else busWord cfgReg j
  else cfgReg

def posedge (aresetn : Bool) (s : AxisCfgInterface) (i : CfgInterfacePins) :
    AxisCfgInterface where
  cfgReg :=
    if !aresetn then 0
    else if i.sAxisTvalid && s.sAxisTready then storeWord s.cfgReg s.wordCounter i.sAxisTdata
    else s.cfgReg
  wordCounter :=
    if !aresetn then 0
    else if i.sAxisTvalid && s.sAxisTready then
      if s.wordCounter = 4 then 0 else s.wordCounter + 1
    else s.wordCounter
  mAxisTdata := if !aresetn then 0 else if i.mAxisTready then i.cfgOut else s.mAxisTdata
  mAxisTvalid := if !aresetn then false else i.mAxisTready
  cfg := if !aresetn then 0 else s.cfgReg

def circuit : Circuit AxisCfgInterface CfgInterfacePins where
  Reset s := ∃ s₀ i, s = posedge false s₀ i
  tick := posedge true

abbrev Tick := Clock AxisCfgInterface CfgInterfacePins

def accepted (c : Tick) : List (BitVec 32) :=
  beat (c.pins.sAxisTvalid && c.regs.sAxisTready) c.pins.sAxisTdata

variable {past : List Tick} {s : AxisCfgInterface} {words : List (BitVec 32)} {j : Nat}

/-! ### Groups of five -/

/-- The slices that words accepted one after another have been stored to. -/
def loaded (words : List (BitVec 32)) : Nat → BitVec 32 :=
  words.zipIdx.foldl (fun file word => Function.update file (word.2 % 5) word.1) fun _ => 0

theorem loaded_snoc (words : List (BitVec 32)) (word : BitVec 32) :
    loaded (words ++ [word]) = Function.update (loaded words) (words.length % 5) word := by
  rw [loaded, List.zipIdx_append, List.foldl_append]
  simp [loaded]

/-- A slice holds the last word of its place in the groups. -/
theorem loaded_eq (inside : j < 5) :
    loaded words j =
      if j < words.length then words.getD (words.length - 1 - (words.length - 1 - j) % 5) 0
      else 0 := by
  induction words using List.reverseRecOn with
  | nil => rfl
  | append_singleton words word ih =>
    rw [loaded_snoc, Function.update_apply, ih]
    simp only [List.length_append, List.length_singleton, Nat.add_sub_cancel]
    split
    · rename_i place
      have last : words.length - (words.length - j) % 5 = words.length := by omega
      rw [if_pos (by omega), last]
      simp [List.getD_eq_getElem?_getD]
    · rename_i other
      by_cases before : j < words.length
      · have same : words.length - (words.length - j) % 5 =
            words.length - 1 - (words.length - 1 - j) % 5 := by omega
        rw [if_pos before, if_pos (by omega), same]
        simp only [List.getD_eq_getElem?_getD]
        rw [List.getElem?_append_left (by omega)]
      · rw [if_neg before, if_neg (by omega)]

/-- After whole groups the slices hold the last group. -/
theorem loaded_group {n : Nat} (whole : words.length = 5 * (n + 1)) (inside : j < 5) :
    loaded words j = words.getD (5 * n + j) 0 := by
  have place : words.length - 1 - (words.length - 1 - j) % 5 = 5 * n + j := by omega
  rw [loaded_eq inside, if_pos (by omega), place]

theorem busWord_bus {n : Nat} (file : Nat → BitVec 32) (inside : 32 * (j + 1) ≤ n) :
    busWord (bus n file) j = file j := by
  refine BitVec.eq_of_getLsbD_eq fun k low => ?_
  rw [busWord, BitVec.getLsbD_extractLsb', decide_eq_true low, Bool.true_and, bus,
    gather_getLsbD _ (by omega), bitOf, show (32 * j + k) / 32 = j by omega,
    show (32 * j + k) % 32 = k by omega]

theorem busWord_storeWord (cfgReg : BitVec 160) {counter : BitVec 3} (data : BitVec 32)
    (small : counter ≤ 4) (inside : j < 5) :
    busWord (storeWord cfgReg counter data) j =
      Function.update (busWord cfgReg) counter.toNat data j := by
  rw [storeWord, if_pos small, busWord_bus _ (by omega), Function.update_apply]

/-! ### Runs -/

def offers (past : List Tick) : Nat := past.countP fun c => c.pins.sAxisTvalid

/-- The counter has stopped at four, where no further word is accepted. -/
structure Counted (past : List Tick) (s : AxisCfgInterface) : Prop where
  counter : s.wordCounter.toNat = min 4 (offers past)
  accepted : (past.flatMap accepted).length = min 4 (offers past)
  cfgReg : ∀ j < 5, busWord s.cfgReg j = loaded (past.flatMap AxisCfgInterface.accepted) j
  cfg : ∀ j < 5, busWord s.cfg j = loaded (past.dropLast.flatMap AxisCfgInterface.accepted) j

/-- Words go to the slices in turn, which `cfg` shows a clock later, group after group; and
however the pins go on, the port is ready in some clock from here. -/
structure Loads (past : List Tick) (s : AxisCfgInterface) : Prop where
  slices : ∀ j < 5, busWord s.cfgReg j = loaded (past.flatMap accepted) j
  cfg : ∀ j < 5, busWord s.cfg j = loaded (past.dropLast.flatMap accepted) j
  groups : ∀ n, (past.dropLast.flatMap accepted).length = 5 * (n + 1) →
    ∀ j < 5, busWord s.cfg j = (past.dropLast.flatMap accepted).getD (5 * n + j) 0
  serves : ∀ pins : Nat → CfgInterfacePins,
    ∃ n, (circuit.after s ((List.range n).map pins)).sAxisTready = true

theorem Counted.ready (counted : Counted past s) :
    s.sAxisTready = true ↔ offers past < 4 := by
  rw [sAxisTready, bne_iff_ne, ne_eq, ← BitVec.toNat_inj, counted.counter]
  show ¬ min 4 (offers past) = 4 ↔ _
  omega

theorem posedge_idle {i : CfgInterfacePins} (idle : (i.sAxisTvalid && s.sAxisTready) = false) :
    (posedge true s i).cfgReg = s.cfgReg ∧ (posedge true s i).wordCounter = s.wordCounter := by
  simp [posedge, idle]

theorem posedge_accepts {i : CfgInterfacePins} (fires : (i.sAxisTvalid && s.sAxisTready) = true) :
    (posedge true s i).cfgReg = storeWord s.cfgReg s.wordCounter i.sAxisTdata ∧
      (posedge true s i).wordCounter = s.wordCounter + 1 := by
  have place : s.wordCounter ≠ 4 := bne_iff_ne.mp (Bool.and_eq_true_iff.mp fires).2
  constructor
  · simp [posedge, fires]
  · rw [posedge, fires, if_neg place]
    rfl

theorem offers_snoc (past : List Tick) (c : Tick) :
    offers (past ++ [c]) = offers past + c.pins.sAxisTvalid.toNat := countP_snoc _ _ _

theorem counted_step (counted : Counted past s) (i : CfgInterfacePins) :
    Counted (past ++ [⟨s, i⟩]) (posedge true s i) := by
  have ready := counted.ready
  have shown : ∀ j < 5, busWord (posedge true s i).cfg j =
      loaded ((past ++ [(⟨s, i⟩ : Tick)]).dropLast.flatMap accepted) j := by
    rw [List.dropLast_concat]
    exact counted.cfgReg
  cases fires : i.sAxisTvalid && s.sAxisTready with
  | false =>
    obtain ⟨cfgReg, wordCounter⟩ := posedge_idle fires
    have nothing : accepted ⟨s, i⟩ = [] := beat_eq_nil.mpr fires
    have offered : min 4 (offers (past ++ [⟨s, i⟩])) = min 4 (offers past) := by
      rw [offers_snoc]
      cases valid : i.sAxisTvalid with
      | false => rfl
      | true =>
        have stopped : ¬ offers past < 4 := by
          rw [← ready]
          simpa [valid] using fires
        rw [Bool.toNat_true]
        omega
    refine ⟨?_, ?_, ?_, shown⟩
    · rw [wordCounter, offered, counted.counter]
    · rw [flatMap_snoc, nothing, List.append_nil, offered, counted.accepted]
    · rw [cfgReg, flatMap_snoc, nothing, List.append_nil]
      exact counted.cfgReg
  | true =>
    obtain ⟨cfgReg, wordCounter⟩ := posedge_accepts fires
    obtain ⟨valid, open'⟩ := Bool.and_eq_true_iff.mp fires
    have few := ready.mp open'
    have counter : s.wordCounter.toNat = offers past := by
      rw [counted.counter]
      omega
    have length : (past.flatMap accepted).length = offers past := by
      rw [counted.accepted]
      omega
    have one : accepted ⟨s, i⟩ = [i.sAxisTdata] := beat_eq_singleton.mpr ⟨fires, rfl⟩
    have offered : offers (past ++ [⟨s, i⟩]) = offers past + 1 := by
      rw [offers_snoc, valid, Bool.toNat_true]
    refine ⟨?_, ?_, fun j inside => ?_, shown⟩
    · rw [wordCounter, toNat_add_one (by omega), counter, offered]
      omega
    · rw [flatMap_snoc, one, List.length_append, length, offered, List.length_singleton]
      omega
    · have small : s.wordCounter ≤ 4 := BitVec.le_def.mpr (by rw [counter]; exact few.le)
      rw [cfgReg, busWord_storeWord _ _ small inside, flatMap_snoc, one, loaded_snoc, length,
        counter, Nat.mod_eq_of_lt (by omega), Function.update_apply, Function.update_apply,
        counted.cfgReg j inside]

theorem counted_of_run (run : circuit.Run past s) : Counted past s := by
  induction run with
  | reset start =>
    obtain ⟨s₀, i, rfl⟩ := start
    have zero (j : Nat) : busWord (0 : BitVec 160) j = 0 := BitVec.extractLsb'_zero
    exact ⟨rfl, rfl, fun j _ => zero j, fun j _ => zero j⟩
  | tick run i ih => exact counted_step ih i

/-- Once the counter stands at four it stays there. -/
theorem after_stopped (stopped : s.sAxisTready = false) (pins : List CfgInterfacePins) :
    (circuit.after s pins).sAxisTready = false := by
  induction pins using List.reverseRecOn with
  | nil => exact stopped
  | append_singleton pins i ih =>
    rw [after_snoc]
    have idle : (i.sAxisTvalid && (circuit.after s pins).sAxisTready) = false := by
      rw [ih, Bool.and_false]
    have same := (posedge_idle idle).2
    unfold sAxisTready at ih ⊢
    exact same.symm ▸ ih

/-- The core loads groups of five exactly as long as fewer than four words have been offered. -/
theorem run_loads_iff (run : circuit.Run past s) : Loads past s ↔ offers past < 4 := by
  have counted := counted_of_run run
  constructor
  · intro loads
    by_contra many
    have stopped : s.sAxisTready = false :=
      Bool.eq_false_iff.mpr fun ready => many (counted.ready.mp ready)
    obtain ⟨n, ready⟩ := loads.serves fun _ => ⟨0, false, false, 0⟩
    rw [after_stopped stopped] at ready
    cases ready
  · intro few
    refine ⟨counted.cfgReg, counted.cfg, fun n whole j inside => ?_, fun _ => ?_⟩
    · rw [counted.cfg j inside, loaded_group whole inside]
    · exact ⟨0, counted.ready.mpr few⟩

def fresh : AxisCfgInterface := ⟨0, false, 0, 0, 0⟩

theorem fresh_reset : circuit.Reset fresh := ⟨fresh, ⟨0, false, false, 0⟩, rfl⟩

def offered (n : Nat) : List CfgInterfacePins :=
  (List.range n).map fun k => ⟨BitVec.ofNat 32 k, true, false, 0⟩

theorem run_loads_iff_threeWords : Loads (circuit.trace fresh (offered 3))
    (circuit.after fresh (offered 3)) :=
  (run_loads_iff (run_trace fresh_reset (offered 3))).mpr (by decide)

/-- The fifth word of the first group is refused for ever. -/
theorem fourWords_stop : ¬ ∀ (past : List Tick) (s : AxisCfgInterface),
    circuit.Run past s → Loads past s := by
  intro claim
  obtain ⟨n, ready⟩ := (claim _ _ (run_trace fresh_reset (offered 4))).serves
    fun _ => ⟨0, true, false, 0⟩
  rw [after_stopped (by decide)] at ready
  cases ready

end AxisCfgInterface

end Switcheck
