import Mathlib.Tactic.IntervalCases
import Switcheck.Sync.Circuit
import Switcheck.Modules.Buffers
import Switcheck.Modules.Verilog

/-!
# `axis_misc_reader`

Key pulses are counted; every sixteenth one starts a frame of 54 bits with the counter, each bit
of which is shown for 63 samples.
-/

namespace Switcheck

open Sync Circuit

/-- The registers, with `k` bits of a sample passed on in `int_misc_reg`. -/
structure AxisMiscReader (k : Nat) where
  intEnblReg : Bool
  intMiscReg : BitVec (k + 3)
  pulseCounter : BitVec 40
  keyLatch : Bool
  uartBuffer : BitVec 54
  uartPos : BitVec 8
  uartPrescaler : BitVec 6
  reflectBuffer : BitVec 40
  reflectPos : BitVec 8
  deriving DecidableEq

structure MiscReaderPins (d : Nat) where
  sAxisTdata : BitVec d
  sAxisTvalid : Bool
  mAxisTready : Bool

/-- `uart_buffer` with the counter; bits 19, 30, 41 and 52 are not assigned. -/
def uartFrame (old : BitVec 54) (counter : BitVec 40) : BitVec 54 :=
  1#1 ++ old.extractLsb' 52 1 ++ counter.extractLsb' 33 7 ++ 0#1 ++
  1#1 ++ 1#1 ++ old.extractLsb' 41 1 ++ (counter.extractLsb' 25 8).setWidth 7 ++ 0#1 ++
  1#1 ++ 1#1 ++ old.extractLsb' 30 1 ++ counter.extractLsb' 18 7 ++ 0#1 ++
  1#1 ++ 1#1 ++ old.extractLsb' 19 1 ++ counter.extractLsb' 11 7 ++ 0#1 ++
  1#1 ++ 1#1 ++ 1#1 ++ counter.extractLsb' 4 7 ++ 0#1

namespace AxisMiscReader

variable {d k : Nat}

section Wires

variable (s : AxisMiscReader k) (i : MiscReaderPins d)

def sAxisTready : Bool := s.intEnblReg && i.mAxisTready

def accepts : Bool := i.sAxisTvalid && s.sAxisTready i

/-- A key pulse begins with this sample. -/
def pulses : Bool := s.accepts i && i.sAxisTdata.msb && !s.keyLatch

/-- A sixteenth key pulse. -/
def beginsFrame : Bool := s.pulses i && s.pulseCounter.extractLsb' 0 4 == 0

end Wires

def posedge (aresetn : Bool) (s : AxisMiscReader k) (i : MiscReaderPins d) : AxisMiscReader k where
  intEnblReg := aresetn
  intMiscReg :=
    if aresetn && s.accepts i then
      i.sAxisTdata.extractLsb' (d - k) k ++ (BitVec.ofBool (s.reflectPos != 0) ++
        BitVec.ofBool (s.reflectBuffer.getLsbD s.reflectPos.toNat) ++
        BitVec.ofBool (s.uartBuffer.getLsbD s.uartPos.toNat))
    else s.intMiscReg
  pulseCounter :=
    if !aresetn then 0
    else if s.pulses i then s.pulseCounter + 1
    else s.pulseCounter
  keyLatch :=
    if !aresetn then false
    else if s.accepts i then i.sAxisTdata.msb
    else s.keyLatch
  uartBuffer :=
    if !aresetn then 0
    else if s.beginsFrame i then uartFrame s.uartBuffer s.pulseCounter
    else s.uartBuffer
  uartPos :=
    if !aresetn then 0
    else if s.beginsFrame i then 0
    else if s.accepts i && s.uartPrescaler == 62 then
      if s.uartPos < 53 then s.uartPos + 1 else s.uartPos
    else s.uartPos
  uartPrescaler :=
    if !aresetn then 0
    else if s.beginsFrame i then 0
    else if s.accepts i then if s.uartPrescaler < 62 then s.uartPrescaler + 1 else 0
    else s.uartPrescaler
  reflectBuffer := if aresetn && s.pulses i then s.pulseCounter else s.reflectBuffer
  reflectPos :=
    if !aresetn then 0
    else if s.pulses i then 0
    else if s.accepts i then if s.reflectPos < 39 then s.reflectPos + 1 else s.reflectPos
    else s.reflectPos

def circuit (d k : Nat) : Circuit (AxisMiscReader k) (MiscReaderPins d) where
  Reset s := ∃ s₀, ∃ i : MiscReaderPins d, s = posedge false s₀ i
  tick := posedge true

abbrev Tick (d k : Nat) := Clock (AxisMiscReader k) (MiscReaderPins d)

def accepted (c : Tick d k) : Bool := c.regs.accepts c.pins

def begins (c : Tick d k) : Bool := c.regs.beginsFrame c.pins

/-- `misc_data[0]` as each accepted sample leaves it. -/
def sent (c : Tick d k) : List Bool :=
  beat (accepted c) ((posedge true c.regs c.pins).intMiscReg.getLsbD 0)

/-! ### Frames -/

/-- The seven bits of the counter in a character. -/
def group (frame : BitVec 54) (n : Nat) : BitVec 7 := frame.extractLsb' (11 * n + 1) 7

/-- Five characters: a start bit, seven bits and the mark of the first character, a stop bit; a pad
bit after all but the last. -/
structure WellFormed (frame : BitVec 54) : Prop where
  start : ∀ n < 5, frame.getLsbD (11 * n) = false
  mark : ∀ n < 5, frame.getLsbD (11 * n + 8) = decide (n = 0)
  stop : ∀ n < 5, frame.getLsbD (11 * n + 9) = true
  pad : ∀ n < 4, frame.getLsbD (11 * n + 10) = true

/-- Each bit for 63 samples. -/
def spread (frame : BitVec 54) : List Bool :=
  (List.range 54).flatMap fun b => List.replicate 63 (frame.getLsbD b)

theorem spread_eq (frame : BitVec 54) :
    spread frame = (List.range (63 * 54)).map fun j => frame.getLsbD (j / 63) := by
  rw [map_range_mul, spread]
  refine List.flatMap_congr fun b _ => (List.eq_replicate_iff.mpr ⟨by simp, fun bit member => ?_⟩).symm
  obtain ⟨r, inside, rfl⟩ := List.mem_map.mp member
  have small := List.mem_range.mp inside
  have turn : (63 * b + r) / 63 = b := by omega
  rw [turn]

theorem wellFormed_uartFrame (counter : BitVec 40) : WellFormed (uartFrame 0 counter) := by
  constructor
  all_goals
    intro n below
    simp only [uartFrame, BitVec.getLsbD_append]
    interval_cases n <;> simp

/-- The bit of the counter that a group starts with: the fourth one leaves bit 32 to no group. -/
def firstBit (n : Nat) : Nat := if n < 4 then 7 * n + 4 else 33

theorem group_uartFrame (counter : BitVec 40) {n : Nat} (below : n < 5) :
    group (uartFrame 0 counter) n = counter.extractLsb' (firstBit n) 7 := by
  apply BitVec.eq_of_getLsbD_eq
  intro b inside
  rw [group, BitVec.getLsbD_extractLsb', decide_eq_true inside, Bool.true_and]
  simp only [uartFrame, BitVec.getLsbD_append]
  interval_cases n <;> interval_cases b <;> simp [firstBit]

/-! ### Transmissions -/

variable {before middle past : List (Tick d k)} {s : AxisMiscReader k} {i : MiscReaderPins d}
  {frame : BitVec 54}

theorem mod_succ (j : Nat) : (j + 1) % 63 = if j % 63 < 62 then j % 63 + 1 else 0 := by
  split <;> omega

/-- A frame as far as it has been sent since it was begun. -/
structure Sending (frame : BitVec 54) (middle : List (Tick d k)) (s : AxisMiscReader k) : Prop where
  buffer : s.uartBuffer = frame
  pos : s.uartPos.toNat = min (middle.countP accepted / 63) 53
  prescaler : s.uartPrescaler.toNat = middle.countP accepted % 63
  bits : middle.flatMap sent =
    (List.range (middle.countP accepted)).map fun j => frame.getLsbD (min (j / 63) 53)

theorem sent_eq (s : AxisMiscReader k) (i : MiscReaderPins d) :
    sent ⟨s, i⟩ = beat (s.accepts i) (s.uartBuffer.getLsbD s.uartPos.toNat) := by
  unfold sent accepted
  cases accepts : s.accepts i with
  | false => rfl
  | true =>
    simp only [posedge, accepts, Bool.and_self, if_true, BitVec.getLsbD_append]
    simp

theorem Sending.bits_snoc (sending : Sending frame middle s) (i : MiscReaderPins d) :
    List.flatMap sent (middle ++ [⟨s, i⟩]) =
      (List.range ((middle ++ [Clock.mk s i]).countP accepted)).map
        fun j => frame.getLsbD (min (j / 63) 53) := by
  rw [flatMap_snoc, countP_snoc, sent_eq, sending.bits, sending.buffer, sending.pos]
  unfold accepted
  cases s.accepts i with
  | false => simp
  | true =>
    rw [beat_true, Bool.toNat_true, List.range_succ, List.map_append]
    rfl

theorem sending_begun (begins : s.beginsFrame i = true) :
    Sending (uartFrame s.uartBuffer s.pulseCounter) ([] : List (Tick d k)) (posedge true s i) := by
  constructor <;> simp [posedge, begins]

theorem Sending.step (sending : Sending frame middle s) (quiet : s.beginsFrame i = false) :
    Sending frame (middle ++ [⟨s, i⟩]) (posedge true s i) := by
  have position := sending.pos
  have scale := sending.prescaler
  refine ⟨?_, ?_, ?_, sending.bits_snoc i⟩
  · simpa [posedge, quiet] using sending.buffer
  · rw [countP_snoc]
    cases accepts : s.accepts i with
    | false => simpa [posedge, quiet, accepts, accepted] using position
    | true =>
      have next : (posedge true s i).uartPos =
          if s.uartPrescaler = 62 ∧ s.uartPos < 53 then s.uartPos + 1 else s.uartPos := by
        simp [posedge, quiet, accepts, ite_and]
      have count : accepted (⟨s, i⟩ : Tick d k) = true := accepts
      have full : s.uartPrescaler = 62 ↔ s.uartPrescaler.toNat = 62 := (BitVec.toNat_inj ..).symm
      have more : s.uartPos < 53 ↔ s.uartPos.toNat < 53 := Iff.rfl
      rw [next, count, Bool.toNat_true]
      simp only [full, more]
      split
      · rw [toNat_add_one (by omega)]
        omega
      · omega
  · rw [countP_snoc]
    cases accepts : s.accepts i with
    | false => simpa [posedge, quiet, accepts, accepted] using scale
    | true =>
      have next : (posedge true s i).uartPrescaler =
          if s.uartPrescaler < 62 then s.uartPrescaler + 1 else 0 := by
        simp [posedge, quiet, accepts]
      have count : accepted (⟨s, i⟩ : Tick d k) = true := accepts
      have more : s.uartPrescaler < 62 ↔ s.uartPrescaler.toNat < 62 := Iff.rfl
      rw [next, count, Bool.toNat_true, mod_succ, ← scale]
      simp only [more]
      split
      · rw [toNat_add_one (by omega)]
      · rfl

/-- The bits of `uart_buffer` that only reset assigns. -/
def unassigned : List Nat := [19, 30, 41, 52]

theorem uartFrame_clear {old : BitVec 54} (clear : ∀ b ∈ unassigned, old.getLsbD b = false)
    (counter : BitVec 40) : uartFrame old counter = uartFrame 0 counter := by
  have zero (b : Nat) (member : b ∈ unassigned) : old.extractLsb' b 1 = (0 : BitVec 54).extractLsb' b 1 := by
    apply BitVec.eq_of_getLsbD_eq
    intro j inside
    obtain rfl : j = 0 := by omega
    simpa using clear b member
  rw [uartFrame, zero 52 (by decide), zero 41 (by decide), zero 30 (by decide), zero 19 (by decide),
    uartFrame]

theorem clear_uartFrame (counter : BitVec 40) :
    ∀ b ∈ unassigned, (uartFrame 0 counter).getLsbD b = false := by
  have mark := (wellFormed_uartFrame counter).mark
  simpa [unassigned] using And.intro (mark 1 (by decide))
    ⟨mark 2 (by decide), mark 3 (by decide), mark 4 (by decide)⟩

theorem run_clear (run : (circuit d k).Run past s) :
    ∀ b ∈ unassigned, s.uartBuffer.getLsbD b = false := by
  induction run with
  | reset reset =>
    obtain ⟨s₀, i, rfl⟩ := reset
    simp [posedge]
  | @tick past s run i ih =>
    cases begins : s.beginsFrame i with
    | false => simpa [circuit, posedge, begins] using ih
    | true =>
      have next : (posedge true s i).uartBuffer = uartFrame 0 s.pulseCounter := by
        simpa [posedge, begins] using uartFrame_clear ih s.pulseCounter
      rw [circuit, next]
      exact clear_uartFrame s.pulseCounter

theorem run_sending {c : Tick d k} (begun : begins c = true)
    (quiet : ∀ b ∈ middle, begins b = false) (run : (circuit d k).Run (before ++ c :: middle) s) :
    Sending (uartFrame 0 c.regs.pulseCounter) middle s := by
  induction middle using List.reverseRecOn generalizing s with
  | nil =>
    obtain ⟨earlier, rfl⟩ := run.snoc
    rw [← uartFrame_clear (run_clear earlier)]
    exact sending_begun begun
  | append_singleton middle b ih =>
    rw [← List.cons_append, ← List.append_assoc] at run
    obtain ⟨shorter, rfl⟩ := run.snoc
    have sending := ih (fun b member => quiet b (List.mem_append_left _ member)) shorter
    exact sending.step (quiet b (by simp))

/-- A sixteenth pulse, with enough samples for the frame before the next one; the last of them may
be the next sixteenth pulse. -/
structure Transmission (d k : Nat) where
  before : List (Tick d k)
  start : Tick d k
  middle : List (Tick d k)
  last : Tick d k
  final : AxisMiscReader k
  run : (circuit d k).Run (before ++ start :: (middle ++ [last])) final
  begun : begins start = true
  quiet : ∀ c ∈ middle, begins c = false
  whole : 63 * 54 ≤ (middle ++ [last]).countP accepted

namespace Transmission

/-- The number of pulses when the frame is begun. -/
def counter (t : Transmission d k) : BitVec 40 := t.start.regs.pulseCounter

/-- The bits shown by the samples that the frame takes. -/
def bits (t : Transmission d k) : List Bool := ((t.middle ++ [t.last]).flatMap sent).take (63 * 54)

theorem bits_eq (t : Transmission d k) : t.bits = spread (uartFrame 0 t.counter) := by
  have run := t.run
  rw [← List.cons_append, ← List.append_assoc] at run
  obtain ⟨shorter, -⟩ := run.snoc
  have sent' := (run_sending t.begun t.quiet shorter).bits_snoc t.last.pins
  rw [bits, sent', ← List.map_take, List.take_range, Nat.min_eq_left t.whole, spread_eq]
  refine List.map_congr_left fun j inside => ?_
  have small := List.mem_range.mp inside
  rw [Nat.min_eq_left (by omega)]
  rfl

end Transmission

/-! ### What the bits tell of the counter -/

/-- The counters differ in bit 32 and in no other bit from bit 4 on. -/
def DifferIn32Alone (x y : BitVec 40) : Prop :=
  x.getLsbD 32 ≠ y.getLsbD 32 ∧ ∀ b, 4 ≤ b → b < 40 → b ≠ 32 → x.getLsbD b = y.getLsbD b

theorem extractLsb'_inj {n : Nat} {x y : BitVec n} (start len : Nat) :
    x.extractLsb' start len = y.extractLsb' start len ↔
      ∀ b, start ≤ b → b < start + len → x.getLsbD b = y.getLsbD b := by
  constructor
  · intro same b least most
    have bit := congrArg (BitVec.getLsbD · (b - start)) same
    have inside : b - start < len := by omega
    simpa [inside, Nat.add_sub_cancel' least] using bit
  · intro same
    apply BitVec.eq_of_getLsbD_eq
    intro b inside
    simp [inside, same (start + b) (by omega) (by omega)]

theorem groups_eq_iff (x y : BitVec 40) :
    (∀ n < 5, group (uartFrame 0 x) n = group (uartFrame 0 y) n) ↔
      ∀ b, 4 ≤ b → b < 40 → b ≠ 32 → x.getLsbD b = y.getLsbD b := by
  constructor
  · intro same b least most other
    have inGroup (n : Nat) (below : n < 5) (low : firstBit n ≤ b) (high : b < firstBit n + 7) :
        x.getLsbD b = y.getLsbD b := by
      have bits := same n below
      rw [group_uartFrame x below, group_uartFrame y below] at bits
      exact (extractLsb'_inj _ _).mp bits b low high
    by_cases early : b < 32
    · have turn : (b - 4) / 7 < 4 := by omega
      have first : firstBit ((b - 4) / 7) = 7 * ((b - 4) / 7) + 4 := if_pos turn
      exact inGroup ((b - 4) / 7) (by omega) (by omega) (by omega)
    · exact inGroup 4 (by decide) (show 33 ≤ b by omega) (show b < 40 by omega)
  · intro same n below
    have place : 4 ≤ firstBit n ∧ (firstBit n + 7 ≤ 32 ∨ firstBit n = 33) := by
      unfold firstBit
      split <;> omega
    rw [group_uartFrame x below, group_uartFrame y below, extractLsb'_inj]
    intro b low high
    exact same b (by omega) (by omega) (by omega)

theorem uartFrame_eq_iff (x y : BitVec 40) : uartFrame 0 x = uartFrame 0 y ↔
    ∀ n < 5, group (uartFrame 0 x) n = group (uartFrame 0 y) n := by
  refine ⟨fun same n _ => by rw [same], fun same => ?_⟩
  have bits (n : Nat) (below : n < 5) :
      x.extractLsb' (firstBit n) 7 = y.extractLsb' (firstBit n) 7 := by
    rw [← group_uartFrame x below, same n below, group_uartFrame y below]
  have slice (z : BitVec 40) : (z.extractLsb' 25 8).setWidth 7 = z.extractLsb' 25 7 := by
    apply BitVec.eq_of_getLsbD_eq
    intro b inside
    have wide : b < 8 := by omega
    simp [inside, wide]
  have first : x.extractLsb' 4 7 = y.extractLsb' 4 7 := bits 0 (by decide)
  have second : x.extractLsb' 11 7 = y.extractLsb' 11 7 := bits 1 (by decide)
  have third : x.extractLsb' 18 7 = y.extractLsb' 18 7 := bits 2 (by decide)
  have fourth : x.extractLsb' 25 7 = y.extractLsb' 25 7 := bits 3 (by decide)
  have fifth : x.extractLsb' 33 7 = y.extractLsb' 33 7 := bits 4 (by decide)
  rw [uartFrame, uartFrame, slice, slice, first, second, third, fourth, fifth]

theorem bits_eq_iff (t u : Transmission d k) : t.bits = u.bits ↔
    ∀ n < 5, group (uartFrame 0 t.counter) n = group (uartFrame 0 u.counter) n := by
  rw [t.bits_eq, u.bits_eq, ← uartFrame_eq_iff]
  refine ⟨fun same => ?_, fun same => by rw [same]⟩
  rw [spread_eq, spread_eq] at same
  apply BitVec.eq_of_getLsbD_eq
  intro b inside
  have bit := List.map_inj_left.mp same (63 * b) (List.mem_range.mpr (by omega))
  rwa [Nat.mul_div_cancel_left b (by decide)] at bit

theorem groups_determine_iff (x y : BitVec 40) :
    ((∀ n < 5, group (uartFrame 0 x) n = group (uartFrame 0 y) n) →
      x.extractLsb' 4 35 = y.extractLsb' 4 35) ↔ ¬ DifferIn32Alone x y := by
  rw [groups_eq_iff, extractLsb'_inj, DifferIn32Alone]
  constructor
  · rintro determine ⟨differ, same⟩
    exact differ (determine same 32 (by decide) (by decide))
  · intro together same b least most
    by_cases last : b = 32
    · rw [last]
      by_contra differ
      exact together ⟨differ, same⟩
    · exact same b least (by omega) last

/-- The samples after a sixteenth pulse show five well-formed characters, each bit for 63 samples.
The seven-bit groups of two of them, or all their bits, determine bits 38 to 4 of the counter exactly
when the two counters do not differ in bit 32 alone. -/
theorem frames_determine_iff (t u : Transmission d k) :
    t.bits = spread (uartFrame 0 t.counter) ∧ WellFormed (uartFrame 0 t.counter) ∧
    (((∀ n < 5, group (uartFrame 0 t.counter) n = group (uartFrame 0 u.counter) n) →
      t.counter.extractLsb' 4 35 = u.counter.extractLsb' 4 35) ↔
        ¬ DifferIn32Alone t.counter u.counter) ∧
    ((t.bits = u.bits → t.counter.extractLsb' 4 35 = u.counter.extractLsb' 4 35) ↔
      ¬ DifferIn32Alone t.counter u.counter) := by
  refine ⟨t.bits_eq, wellFormed_uartFrame _, groups_determine_iff _ _, ?_⟩
  rw [bits_eq_iff]
  exact groups_determine_iff _ _

/-! ### A pulse train -/

def high : MiscReaderPins 8 := ⟨0x80, true, true⟩

theorem high_msb : (128#8).msb = true := rfl

def low : MiscReaderPins 8 := ⟨0, true, true⟩

def cleared : AxisMiscReader 5 := ⟨false, 0, 0, false, 0, 0, 0, 0, 0⟩

theorem cleared_reset : (circuit 8 5).Reset cleared := ⟨cleared, high, rfl⟩

/-- A clock without a sample, then `n` pulses of one sample each. -/
def train (n : Nat) : List (MiscReaderPins 8) :=
  ⟨0, false, true⟩ :: (List.replicate n [high, low]).flatten

theorem train_succ (n : Nat) : train (n + 1) = train n ++ [high, low] := by
  simp [train, List.replicate_succ']

theorem after_train (n : Nat) :
    ((circuit 8 5).after cleared (train n)).intEnblReg = true ∧
    ((circuit 8 5).after cleared (train n)).keyLatch = false ∧
    ((circuit 8 5).after cleared (train n)).pulseCounter = BitVec.ofNat 40 n := by
  induction n with
  | zero => decide
  | succ n ih =>
    obtain ⟨enabled, released, count⟩ := ih
    rw [train_succ, after_append]
    generalize (circuit 8 5).after cleared (train n) = s at enabled released count
    have counts : s.pulseCounter + 1#40 = BitVec.ofNat 40 (n + 1) := by
      rw [count]
      exact (BitVec.ofNat_add n 1).symm
    simp [after, circuit, posedge, pulses, accepts, sAxisTready, high, low, enabled, released,
      high_msb, counts]

theorem countP_low (s : AxisMiscReader 5) (enabled : s.intEnblReg = true) (n : Nat) :
    ((circuit 8 5).trace s (List.replicate n low)).countP accepted = n := by
  induction n generalizing s with
  | zero => rfl
  | succ n ih =>
    have now : accepted (⟨s, low⟩ : Tick 8 5) = true := by
      simp [accepted, accepts, sAxisTready, low, enabled]
    rw [List.replicate_succ, trace, List.countP_cons, ih _ rfl, if_pos now]

theorem begins_low (s : AxisMiscReader 5) (n : Nat) :
    ∀ c ∈ (circuit 8 5).trace s (List.replicate n low), begins c = false := by
  induction n generalizing s with
  | zero => exact fun c member => by cases member
  | succ n ih =>
    rw [List.replicate_succ, trace]
    intro c member
    rcases List.mem_cons.mp member with rfl | later
    · simp [begins, beginsFrame, pulses, low]
    · exact ih _ c later

/-- The frame that pulse `n` begins, with `m + 1` samples for it. -/
def transmission (n m : Nat) (sixteenth : n % 16 = 0) (enough : 63 * 54 ≤ m + 1) :
    Transmission 8 5 where
  before := (circuit 8 5).trace cleared (train n)
  start := ⟨(circuit 8 5).after cleared (train n), high⟩
  middle := (circuit 8 5).trace ((circuit 8 5).after cleared (train n ++ [high]))
    (List.replicate m low)
  last := ⟨(circuit 8 5).after cleared (train n ++ [high] ++ List.replicate m low), low⟩
  final := (circuit 8 5).after cleared (train n ++ [high] ++ List.replicate m low ++ [low])
  run := by
    have run := run_trace cleared_reset (train n ++ [high] ++ List.replicate m low ++ [low])
    rw [trace_snoc, trace_append, trace_snoc] at run
    simpa using run
  begun := by
    obtain ⟨enabled, released, count⟩ := after_train n
    have nibble : (BitVec.ofNat 40 n).extractLsb' 0 4 = 0 := by
      apply BitVec.eq_of_toNat_eq
      rw [BitVec.extractLsb'_toNat, BitVec.toNat_ofNat]
      simp only [Nat.shiftRight_zero]
      show n % 2 ^ 40 % 2 ^ 4 = 0
      omega
    simp [begins, beginsFrame, pulses, accepts, sAxisTready, high, high_msb, enabled, released, count,
      nibble]
  quiet := begins_low _ m
  whole := by
    have enabled (pins : List (MiscReaderPins 8)) (i : MiscReaderPins 8) :
        ((circuit 8 5).after cleared (pins ++ [i])).intEnblReg = true := by
      rw [after_append]
      rfl
    rw [after_append _ _ (train n ++ [high]), ← trace_snoc, ← List.replicate_succ',
      countP_low _ (enabled _ _)]
    exact enough

theorem exists_transmission (n m : Nat) (sixteenth : n % 16 = 0) (enough : 63 * 54 ≤ m + 1) :
    ∃ t : Transmission 8 5, t.counter = BitVec.ofNat 40 n :=
  ⟨transmission n m sixteenth enough, (after_train n).2.2⟩

/-- Pulse 2 ^ 32 begins the frame that pulse 0 began. -/
theorem pulse32_repeats : ∃ t u : Transmission 8 5, t.counter = 0 ∧ u.counter = 0x100000000 ∧
    t.counter.extractLsb' 4 35 ≠ u.counter.extractLsb' 4 35 ∧ t.bits = u.bits := by
  obtain ⟨t, first⟩ := exists_transmission 0 3401 (by decide) (by decide)
  obtain ⟨u, second⟩ := exists_transmission 0x100000000 3401 (by decide) (by decide)
  refine ⟨t, u, first, second, ?_, ?_⟩
  · rw [first, second]
    decide
  · rw [bits_eq_iff, first, second]
    decide

end AxisMiscReader

end Switcheck
