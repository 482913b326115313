import Switcheck.Sync.Handshake
import Switcheck.Modules.Verilog

/-!
# `axis_alex`

A word is loaded while it is offered and accepted one clock later, when the counter starts. The
counter runs through seventeen periods of 128 clocks: a clock pulse in each of the first sixteen,
the load pulse in the last.
-/

namespace Switcheck

open Sync Circuit

structure AxisAlex where
  intDataReg : BitVec 16
  intCntrReg : BitVec 12
  intLoadReg : BitVec 2
  intEnblReg : Bool
  intTreadyReg : Bool
  deriving DecidableEq

structure AlexPins where
  sAxisTdata : BitVec 32
  sAxisTvalid : Bool

/-- `alex_data`, from bit 0 on. -/
structure AlexData where
  data : Bool
  clock : Bool
  load0 : Bool
  load1 : Bool
  deriving DecidableEq

namespace AxisAlex

def loads (s : AxisAlex) (i : AlexPins) : Bool := i.sAxisTvalid && !s.intEnblReg

/-- `&int_cntr_reg[6:0]`. -/
def shifts (s : AxisAlex) : Bool := s.intCntrReg.extractLsb' 0 7 == BitVec.allOnes 7

def ends (s : AxisAlex) : Bool := s.intCntrReg.getLsbD 7 && s.intCntrReg.getLsbD 11

def posedge (aresetn : Bool) (s : AxisAlex) (i : AlexPins) : AxisAlex where
  intDataReg :=
    if !aresetn then 0
    else if s.shifts then s.intDataReg.extractLsb' 0 15 ++ 0#1
    else if s.loads i then i.sAxisTdata.extractLsb' 0 16
    else s.intDataReg
  intCntrReg :=
    if !aresetn then 0
    else if s.ends then 0
    else if s.intEnblReg then s.intCntrReg + 1
    else s.intCntrReg
  intLoadReg :=
    if !aresetn then 0
    else if s.ends then 0
    else if s.loads i then i.sAxisTdata.extractLsb' 16 2
    else s.intLoadReg
  intEnblReg :=
    if !aresetn then false
    else if s.ends then false
    else if s.loads i then true
    else s.intEnblReg
  intTreadyReg :=
    if !aresetn then false
    else if s.intTreadyReg then false
    else if s.loads i then true
    else s.intTreadyReg

def alexData (s : AxisAlex) : AlexData where
  data := s.intDataReg.getLsbD 15
  clock := s.intCntrReg.getLsbD 6 && !s.intCntrReg.getLsbD 11
  load0 := s.intLoadReg.getLsbD 0 && s.intCntrReg.getLsbD 6 && s.intCntrReg.getLsbD 11
  load1 := s.intLoadReg.getLsbD 1 && s.intCntrReg.getLsbD 6 && s.intCntrReg.getLsbD 11

def circuit : Circuit AxisAlex AlexPins where
  Reset s := ∃ s₀ i, s = posedge false s₀ i
  tick := posedge true

abbrev Tick := Clock AxisAlex AlexPins

def input : Handshake AxisAlex AlexPins (BitVec 32) where
  valid c := c.pins.sAxisTvalid
  ready c := c.regs.intTreadyReg
  data c := c.pins.sAxisTdata

def shown (c : Tick) : AlexData := c.regs.alexData

/-! ### What is to be shown -/

/-- One bit: half a period with the clock low, half a period with the clock high. -/
def bitPulse (bit : Bool) : List AlexData :=
  List.replicate 64 ⟨bit, false, false, false⟩ ++ List.replicate 64 ⟨bit, true, false, false⟩

/-- The load pulse on the lines that bits 16 and 17 of the word select. -/
def loadPulse (word : BitVec 32) : List AlexData :=
  List.replicate 64 ⟨false, false, false, false⟩ ++
    List.replicate 64 ⟨false, false, word.getLsbD 16, word.getLsbD 17⟩

/-- Bits 15 to 0, each with a clock pulse, then the load pulse. -/
def serial (word : BitVec 32) : List AlexData :=
  ((List.range 16).flatMap fun k => bitPulse (word.getLsbD (15 - k))) ++ loadPulse word ++
    [⟨false, false, false, false⟩]

/-- What starts in a clock: the word that is accepted, or an idle clock. -/
def starts (c : Tick) : List (Option (BitVec 32)) :=
  if c.pins.sAxisTvalid && c.regs.intTreadyReg then [some c.pins.sAxisTdata]
  else if c.regs.intEnblReg then []
  else [none]

def plays : Option (BitVec 32) → List AlexData
  | some word => serial word
  | none => [⟨false, false, false, false⟩]

/-- The accepted words one after the other, with the idle clocks between them; the whole of a word
that is not over is included. -/
def schedule (past : List Tick) : List AlexData := (past.flatMap starts).flatMap plays

/-! ### The pins of a word, clock by clock -/

/-- The pins when the counter stands at `n`. -/
def wave (word : BitVec 32) (n : Nat) : AlexData where
  data := (word.extractLsb' 0 16 <<< (n / 128)).getLsbD 15
  clock := decide (64 ≤ n % 128) && decide (n < 2048)
  load0 := word.getLsbD 16 && decide (64 ≤ n % 128) && decide (2048 ≤ n)
  load1 := word.getLsbD 17 && decide (64 ≤ n % 128) && decide (2048 ≤ n)

theorem map_range_half {β : Type} {f : Nat → β} {x y : β} (m : Nat) (low : ∀ r < m, f r = x)
    (high : ∀ r < m, f (m + r) = y) :
    (List.range (m + m)).map f = List.replicate m x ++ List.replicate m y := by
  rw [List.range_add, List.map_append, List.map_map]
  congr 1
  · exact List.eq_replicate_iff.mpr ⟨by simp, fun b member => by
      obtain ⟨r, inside, rfl⟩ := List.mem_map.mp member
      exact low r (List.mem_range.mp inside)⟩
  · exact List.eq_replicate_iff.mpr ⟨by simp, fun b member => by
      obtain ⟨r, inside, rfl⟩ := List.mem_map.mp member
      exact high r (List.mem_range.mp inside)⟩

theorem wave_bit (word : BitVec 32) {k : Nat} (below : k < 16) :
    ((List.range 128).map fun r => wave word (128 * k + r)) = bitPulse (word.getLsbD (15 - k)) := by
  have bit (r : Nat) (inside : r < 128) :
      (word.extractLsb' 0 16 <<< ((128 * k + r) / 128)).getLsbD 15 = word.getLsbD (15 - k) := by
    have turn : (128 * k + r) / 128 = k := by omega
    have few : ¬ 15 < k := by omega
    simp [turn, few]
  refine map_range_half 64 (fun r low => ?_) (fun r high => ?_)
  · have turn : (128 * k + r) % 128 = r := by omega
    have early : 128 * k + r < 2048 := by omega
    rw [wave, bit r (by omega), turn]
    simp [early]
    omega
  · have turn : (128 * k + (64 + r)) % 128 = 64 + r := by omega
    have early : 128 * k + (64 + r) < 2048 := by omega
    rw [wave, bit (64 + r) (by omega), turn]
    simp [early]

theorem wave_load (word : BitVec 32) :
    ((List.range 128).map fun r => wave word (2048 + r)) = loadPulse word := by
  have none (r : Nat) (inside : r < 128) :
      (word.extractLsb' 0 16 <<< ((2048 + r) / 128)).getLsbD 15 = false := by
    have turn : (2048 + r) / 128 = 16 := by omega
    simp [turn]
  refine map_range_half 64 (fun r low => ?_) (fun r high => ?_)
  · have turn : (2048 + r) % 128 = r := by omega
    rw [wave, none r (by omega), turn]
    have early : ¬ 64 ≤ r := by omega
    simp [early]
  · have turn : (2048 + (64 + r)) % 128 = 64 + r := by omega
    rw [wave, none (64 + r) (by omega), turn]
    simp

theorem serial_eq (word : BitVec 32) : serial word = (List.range 2177).map (wave word) := by
  have bits : ((List.range 16).flatMap fun k => bitPulse (word.getLsbD (15 - k))) =
      (List.range (128 * 16)).map (wave word) := by
    rw [map_range_mul]
    exact List.flatMap_congr fun k below => (wave_bit word (List.mem_range.mp below)).symm
  have last : wave word 2176 = ⟨false, false, false, false⟩ := by
    simp [wave]
  have parts (m n : Nat) : (List.range (m + n + 1)).map (wave word) =
      (List.range m).map (wave word) ++ ((List.range n).map fun r => wave word (m + r)) ++
        [wave word (m + n)] := by
    rw [List.range_succ, List.map_append, List.range_add, List.map_append, List.map_map]
    rfl
  rw [serial, bits, ← wave_load, ← last]
  exact (parts (128 * 16) 128).symm

theorem serial_length (word : BitVec 32) : (serial word).length = 2177 := by
  rw [serial_eq, List.length_map, List.length_range]

theorem drop_serial (word : BitVec 32) {n : Nat} (below : n < 2177) :
    (serial word).drop n = wave word n :: (serial word).drop (n + 1) := by
  rw [List.drop_eq_getElem_cons (by rwa [serial_length])]
  simp [serial_eq]

theorem serial_cons (word : BitVec 32) : serial word = wave word 0 :: (serial word).drop 1 :=
  drop_serial word (n := 0) (by decide)

/-! ### The states of the core -/

/-- The registers while a word is sent and the counter stands at `n`. -/
def sending (word : BitVec 32) (n : Nat) : AxisAlex where
  intDataReg := word.extractLsb' 0 16 <<< (n / 128)
  intCntrReg := BitVec.ofNat 12 n
  intLoadReg := word.extractLsb' 16 2
  intEnblReg := true
  intTreadyReg := decide (n = 0)

def idle : AxisAlex := ⟨0, 0, 0, false, false⟩

theorem cntr_getLsbD (n : Nat) {k : Nat} (low : k < 12) :
    (BitVec.ofNat 12 n).getLsbD k = decide (n / 2 ^ k % 2 = 1) := by
  rw [BitVec.getLsbD_ofNat, Nat.testBit_eq_decide_div_mod_eq, decide_eq_true low, Bool.true_and]

theorem alexData_sending (word : BitVec 32) {n : Nat} (below : n < 2177) :
    (sending word n).alexData = wave word n := by
  have half : decide (n / 2 ^ 6 % 2 = 1) = decide (64 ≤ n % 128) := by
    rw [decide_eq_decide]
    omega
  have late : decide (n / 2 ^ 11 % 2 = 1) = decide (2048 ≤ n) := by
    rw [decide_eq_decide]
    omega
  have early : (!decide (2048 ≤ n)) = decide (n < 2048) := by
    rw [← decide_not, decide_eq_decide]
    omega
  simp only [alexData, sending, wave, cntr_getLsbD n (k := 6) (by decide),
    cntr_getLsbD n (k := 11) (by decide), half, late, early]
  simp

theorem shifts_sending (word : BitVec 32) (n : Nat) :
    (sending word n).shifts = decide (n % 128 = 127) := by
  rw [shifts, Bool.eq_iff_iff, beq_iff_eq, decide_eq_true_iff, ← BitVec.toNat_inj]
  simp only [sending, BitVec.extractLsb'_toNat, BitVec.toNat_ofNat, BitVec.toNat_allOnes]
  omega

theorem ends_sending (word : BitVec 32) {n : Nat} (below : n < 2177) :
    (sending word n).ends = decide (n = 2176) := by
  rw [ends, sending, cntr_getLsbD n (by decide), cntr_getLsbD n (by decide), ← Bool.decide_and,
    decide_eq_decide]
  omega

theorem shiftLeft_one (x : BitVec 16) : x.extractLsb' 0 15 ++ 0#1 = x <<< 1 := by
  have bound := x.isLt
  apply BitVec.eq_of_toNat_eq
  rw [BitVec.toNat_append, BitVec.extractLsb'_toNat, BitVec.toNat_shiftLeft]
  simp only [Nat.shiftRight_zero, BitVec.toNat_ofNat, Nat.zero_mod, Nat.or_zero, Nat.shiftLeft_eq]
  omega

theorem posedge_sending (word : BitVec 32) {n : Nat} (below : n < 2176) (i : AlexPins) :
    posedge true (sending word n) i = sending word (n + 1) := by
  have onward : (sending word n).ends = false := by
    rw [ends_sending word (by omega)]
    exact decide_eq_false (by omega)
  have full : (sending word n).intEnblReg = true := rfl
  have later : decide (n + 1 = 0) = false := rfl
  have cntr : BitVec.ofNat 12 n + 1#12 = BitVec.ofNat 12 (n + 1) := (BitVec.ofNat_add n 1).symm
  simp only [posedge, onward, loads, full, shifts_sending]
  by_cases turn : n % 128 = 127
  · have next : (n + 1) / 128 = n / 128 + 1 := by omega
    simp [sending, turn, shiftLeft_one, next, BitVec.shiftLeft_add, cntr]
  · have same : (n + 1) / 128 = n / 128 := by omega
    simp [sending, turn, same, cntr]

theorem posedge_last (word : BitVec 32) (i : AlexPins) :
    posedge true (sending word 2176) i = idle := by
  have last : (sending word 2176).ends = true := by
    rw [ends_sending word (by decide)]
    rfl
  have still : (sending word 2176).shifts = false := by
    rw [shifts_sending]
    rfl
  have empty : word.extractLsb' 0 16 <<< 17 = 0#16 := BitVec.shiftLeft_eq_zero (by decide)
  simp only [posedge, last, still, loads]
  simp [idle, sending, empty]

theorem posedge_idle (i : AlexPins) :
    posedge true idle i = if i.sAxisTvalid then sending i.sAxisTdata 0 else idle := by
  cases valid : i.sAxisTvalid <;> simp [posedge, idle, loads, valid, shifts, ends, sending]

/-! ### Runs -/

/-- The core is idle, has loaded a word that is accepted in this clock, or is sending one. -/
inductive Phase (past : List Tick) : AxisAlex → Prop where
  | idle : past.map shown = schedule past → Phase past idle
  | loaded (word : BitVec 32) : past.map shown = schedule past → input.waiting past = [word] →
      Phase past (sending word 0)
  | sends (word : BitVec 32) (n : Nat) : 0 < n → n < 2177 →
      past.map shown ++ (serial word).drop n = schedule past → Phase past (sending word n)

variable {past : List Tick} {s : AxisAlex} {i : AlexPins}

theorem schedule_snoc (past : List Tick) (c : Tick) :
    schedule (past ++ [c]) = schedule past ++ (starts c).flatMap plays := by
  simp [schedule]

theorem shown_snoc (past : List Tick) (c : Tick) :
    (past ++ [c]).map shown = past.map shown ++ [shown c] := List.map_append

theorem phase_idle (all : past.map shown = schedule past) (i : AlexPins) :
    Phase (past ++ [⟨idle, i⟩]) (posedge true idle i) := by
  have all' : (past ++ [Clock.mk idle i]).map shown = schedule (past ++ [Clock.mk idle i]) := by
    rw [shown_snoc, schedule_snoc, all]
    simp [starts, idle, plays, shown, alexData]
  rw [posedge_idle]
  cases valid : i.sAxisTvalid with
  | false => exact .idle all'
  | true =>
    refine .loaded _ all' ?_
    simp [Handshake.waits, input, valid, idle]

theorem phase_loaded {word : BitVec 32} (all : past.map shown = schedule past)
    (valid : i.sAxisTvalid = true) (same : i.sAxisTdata = word) :
    Phase (past ++ [⟨sending word 0, i⟩]) (posedge true (sending word 0) i) := by
  have takes : starts ⟨sending word 0, i⟩ = [some word] := by
    simp [starts, sending, valid, same]
  have now : shown ⟨sending word 0, i⟩ = wave word 0 := alexData_sending word (by decide)
  rw [posedge_sending word (by decide)]
  refine .sends word 1 (by decide) (by decide) ?_
  rw [shown_snoc, schedule_snoc, takes, now, all, List.flatMap_singleton, plays, serial_cons]
  simp

theorem phase_sends {word : BitVec 32} {n : Nat} (begun : 0 < n) (below : n < 2177)
    (rest : past.map shown ++ (serial word).drop n = schedule past) (i : AlexPins) :
    Phase (past ++ [⟨sending word n, i⟩]) (posedge true (sending word n) i) := by
  have none : starts ⟨sending word n, i⟩ = [] := by
    have unready : (sending word n).intTreadyReg = false := decide_eq_false (by omega)
    have busy : (sending word n).intEnblReg = true := rfl
    simp [starts, unready, busy]
  have now : shown ⟨sending word n, i⟩ = wave word n := alexData_sending word below
  have rest' : (past ++ [Clock.mk (sending word n) i]).map shown ++ (serial word).drop (n + 1) =
      schedule (past ++ [Clock.mk (sending word n) i]) := by
    rw [shown_snoc, schedule_snoc, none, now, ← rest, drop_serial word below]
    simp
  by_cases last : n = 2176
  · subst last
    have ended : (serial word).drop 2177 = [] := by
      rw [← serial_length word]
      exact List.drop_length
    rw [ended, List.append_nil] at rest'
    rw [posedge_last]
    exact .idle rest'
  · rw [posedge_sending word (by omega)]
    exact .sends word (n + 1) (by omega) (by omega) rest'

theorem run_phase (run : circuit.Run past s) (held : Held input.Holds past) : Phase past s := by
  refine run.invariant (P := Phase) ?_ ?_ held
  · rintro s ⟨s₀, i, rfl⟩
    exact .idle rfl
  · intro past s i _ phase holds
    cases phase with
    | idle all => exact phase_idle all i
    | loaded word all waits =>
      obtain ⟨valid, same⟩ := holds word (by simp [waits])
      exact phase_loaded all valid same
    | sends word n begun below rest => exact phase_sends begun below rest i

theorem starts_accepted (c : Tick) : (starts c).reduceOption = input.passes c := by
  unfold starts Handshake.passes input
  split
  · rfl
  · split <;> rfl

/-! ### How long an offer waits -/

/-- In how many clocks from now on a word that is offered is accepted. -/
inductive Delay : AxisAlex → Nat → Prop where
  | idle : Delay idle 2
  | loaded (word : BitVec 32) : Delay (sending word 0) 1
  | sends (word : BitVec 32) (n : Nat) : 0 < n → n < 2177 → Delay (sending word n) (2179 - n)

theorem Phase.delay (phase : Phase past s) : ∃ n ≤ 2178, Delay s n := by
  cases phase with
  | idle => exact ⟨2, by decide, .idle⟩
  | loaded word => exact ⟨1, by decide, .loaded word⟩
  | sends word n begun below => exact ⟨2179 - n, by omega, .sends word n begun below⟩

theorem Delay.pos {n : Nat} (delay : Delay s n) : 0 < n := by
  cases delay with
  | idle => exact Nat.two_pos
  | loaded word => exact Nat.one_pos
  | sends word n begun below => omega

/-- A word that is offered is accepted in the last of the clocks, and one that is not is offered
again in the next. -/
theorem delay_step {n : Nat} (delay : Delay s (n + 1)) (valid : i.sAxisTvalid = true) :
    (n = 0 ∧ input.passes ⟨s, i⟩ = [i.sAxisTdata]) ∨
      (input.passes ⟨s, i⟩ = [] ∧ input.waits ⟨s, i⟩ = [i.sAxisTdata] ∧
        Delay (posedge true s i) n) := by
  generalize clocks : n + 1 = m at delay
  cases delay with
  | idle =>
    obtain rfl : n = 1 := by omega
    refine .inr ⟨by simp [Handshake.passes, input, idle],
      by simp [Handshake.waits, input, valid, idle], ?_⟩
    rw [posedge_idle, if_pos valid]
    exact .loaded _
  | loaded word =>
    exact .inl ⟨by omega, by simp [Handshake.passes, input, valid, sending]⟩
  | sends word k begun below =>
    have unready : (sending word k).intTreadyReg = false := decide_eq_false (by omega)
    refine .inr ⟨by simp [Handshake.passes, input, unready],
      by simp [Handshake.waits, input, valid, unready], ?_⟩
    by_cases last : k = 2176
    · subst last
      rw [posedge_last, show n = 2 by omega]
      exact .idle
    · rw [posedge_sending word (by omega), show n = 2179 - (k + 1) by omega]
      exact .sends word (k + 1) (by omega) (by omega)

theorem accepts_within {n : Nat} (delay : Delay s n) {rest : List AlexPins}
    (valid : i.sAxisTvalid = true) (held : HeldFrom input.Holds past (circuit.trace s (i :: rest)))
    (enough : n ≤ (i :: rest).length) :
    ((circuit.trace s (i :: rest)).flatMap input.passes).head? = some i.sAxisTdata := by
  induction n generalizing past s i rest with
  | zero => exact absurd delay.pos (Nat.lt_irrefl 0)
  | succ n ih =>
    rw [trace, List.flatMap_cons]
    rcases delay_step delay valid with ⟨-, passes⟩ | ⟨none, waits, onward⟩
    · rw [passes]
      rfl
    · rw [none, List.nil_append]
      cases rest with
      | nil =>
        obtain rfl : n = 0 := by simpa using enough
        exact absurd onward.pos (Nat.lt_irrefl 0)
      | cons j rest =>
        have later := held.2
        obtain ⟨valid', same⟩ := later.1 i.sAxisTdata (by simp [waits])
        rw [← show j.sAxisTdata = i.sAxisTdata from same]
        exact ih onward valid' later (by simpa using enough)

/-- From an upstream that keeps its offers each word is accepted once, within 2178 clocks, and the
pins show the accepted words one after the other: sixteen clock pulses with the bits from the most
significant one on, then the load pulse. Between the words there is no pulse. -/
theorem run_serialises (run : circuit.Run past s) (held : Held input.Holds past) :
    past.map shown = (schedule past).take past.length ∧
    (past.flatMap starts).reduceOption = past.flatMap input.passes ∧
    past.flatMap input.passes ++ input.waiting past = input.offered past ∧
    ∀ i rest, i.sAxisTvalid = true → 2178 ≤ (i :: rest).length →
      Held input.Holds (past ++ circuit.trace s (i :: rest)) →
      ((circuit.trace s (i :: rest)).flatMap input.passes).head? = some i.sAxisTdata := by
  refine ⟨?_, reduceOption_flatMap starts_accepted past, input.passes_of_holds held, ?_⟩
  rotate_left
  · intro i rest valid long kept
    obtain ⟨n, few, delay⟩ := (run_phase run held).delay
    exact accepts_within delay valid ((held_append _ _ _).mp kept).2 (by omega)
  suffices shows : past.map shown <+: schedule past by
    have all := List.prefix_iff_eq_take.mp shows
    rwa [List.length_map] at all
  cases run_phase run held with
  | idle all | loaded _ all _ => exact all ▸ List.prefix_rfl
  | sends _ _ _ _ rest => exact rest ▸ List.prefix_append _ _

/-- A word that is offered in the second clock and accepted in the third. -/
def oneWord : List AlexPins := [⟨0, false⟩, ⟨0x18000, true⟩, ⟨0x18000, true⟩, ⟨0, false⟩]

/-- A second word, offered while the first one is sent. -/
def secondWord : AlexPins := ⟨0x2abcd, true⟩

theorem run_serialises_oneWord :
    (circuit.trace idle oneWord).map shown =
      (plays none ++ plays none ++ plays (some 0x18000)).take 4 ∧
    ((circuit.trace (circuit.after idle oneWord) (List.replicate 2178 secondWord)).flatMap
      input.passes).head? = some 0x2abcd := by
  have starts' : (circuit.trace idle oneWord).flatMap starts = [none, none, some 0x18000] := by
    decide
  have start : circuit.Reset idle := ⟨idle, ⟨0, false⟩, rfl⟩
  have held : Held input.Holds (circuit.trace idle oneWord) := by decide
  obtain ⟨shows, -, -, within⟩ := run_serialises (run_trace start oneWord) held
  have four : oneWord.length = 4 := rfl
  rw [schedule, starts', trace_length, four] at shows
  have long : (secondWord :: List.replicate 2177 secondWord).length = 2177 + 1 := by
    rw [List.length_cons, List.length_replicate]
  refine ⟨by simpa using shows, within secondWord (List.replicate 2177 secondWord) rfl ?_ ?_⟩
  · omega
  · refine (held_append _ _ _).mpr ⟨held, @Handshake.heldFrom_of_forall _ _ _ input 0x2abcd _ _ ?_ ?_⟩
    · have none : input.waiting (circuit.trace idle oneWord) = [] := by decide
      simp [none]
    · intro c member
      have pins : c.pins ∈ List.replicate 2178 secondWord := pins_of_mem_trace member
      simp [input, List.eq_of_mem_replicate pins, secondWord]

end AxisAlex

end Switcheck
