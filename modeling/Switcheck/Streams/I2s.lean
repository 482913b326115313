import Switcheck.Modules.Verilog
import Switcheck.Sync.Circuit

/-!
# `axis_i2s`

Two machines follow the synchronised bit and frame clocks: one shifts the serial input into words,
the other shifts words out. With the output looped back to the input, a word that is taken in one
frame is delivered in the next.
-/

namespace Switcheck

open Sync Circuit

structure AxisI2s where
  intBclkReg : BitVec 3
  intLrclkReg : BitVec 3
  intDataReg : BitVec 2
  adcCaseReg : BitVec 2
  adcCntrReg : BitVec 6
  adcDataReg : BitVec 16
  adcTdataReg : BitVec 32
  adcTvalidReg : Bool
  dacCaseReg : BitVec 2
  dacDataReg : BitVec 16
  dacTdataReg : BitVec 32
  deriving DecidableEq

/-- `gpioData` is what the other side drives onto the pads. -/
structure I2sPins where
  gpioData : BitVec 4
  alexFlag : Bool
  alexData : BitVec 4
  sAxisTdata : BitVec 32
  sAxisTvalid : Bool
  mAxisTready : Bool
  deriving DecidableEq

namespace I2sPins

/-- What an `IOBUF` reads from its pad, which it drives itself while `alex_flag` is high. -/
def iobuf (i : I2sPins) (k : Nat) : Bool :=
  if i.alexFlag then i.alexData.getLsbD k else i.gpioData.getLsbD k

def i2sBclk (i : I2sPins) : Bool := i.iobuf 0

def i2sAdcData (i : I2sPins) : Bool := i.iobuf 1

def i2sLrclk (i : I2sPins) : Bool := i.iobuf 3

end I2sPins

namespace AxisI2s

def bclkPosedge (s : AxisI2s) : Bool := s.intBclkReg.getLsbD 1 && !s.intBclkReg.getLsbD 2

def bclkNegedge (s : AxisI2s) : Bool := !s.intBclkReg.getLsbD 1 && s.intBclkReg.getLsbD 2

def lrclkNegedge (s : AxisI2s) : Bool := !s.intLrclkReg.getLsbD 1 && s.intLrclkReg.getLsbD 2

def lrclkEdge (s : AxisI2s) : Bool := s.intLrclkReg.getLsbD 1 ^^ s.intLrclkReg.getLsbD 2

/-- A rising edge of the bit clock brings another bit of the half frame. -/
def shifts (s : AxisI2s) : Bool := s.bclkPosedge && decide (s.adcCntrReg.toNat < 16)

def i2sDacData (s : AxisI2s) : Bool := s.dacDataReg.getLsbD 15

/-- The output pad. -/
def dacPad (s : AxisI2s) (i : I2sPins) : Bool :=
  if i.alexFlag then i.alexData.getLsbD 2 else s.i2sDacData

def word (i : I2sPins) : BitVec 32 := if i.sAxisTvalid then i.sAxisTdata else 0

def adcCaseNext (s : AxisI2s) : BitVec 2 :=
  if s.adcCaseReg = 0 then if s.lrclkEdge then 1 else 0
  else if s.adcCaseReg = 1 then if s.bclkPosedge then 2 else 1
  else if s.adcCaseReg = 2 then if s.bclkPosedge then 0 else 2
  else s.adcCaseReg

def dacCaseNext (s : AxisI2s) : BitVec 2 :=
  if s.dacCaseReg = 0 then if s.lrclkEdge then 1 else 0
  else if s.dacCaseReg = 1 then if s.bclkPosedge then 2 else 1
  else if s.dacCaseReg = 2 then if s.bclkNegedge then 0 else 2
  else s.dacCaseReg

def adcDataNext (s : AxisI2s) : BitVec 16 :=
  if s.shifts then shiftIn s.adcDataReg (s.intDataReg.getLsbD 1)
  else s.adcDataReg

def adcCntrNext (s : AxisI2s) : BitVec 6 :=
  if s.adcCaseReg = 1 ∧ s.bclkPosedge = true then 0
  else if s.shifts then s.adcCntrReg + 1
  else s.adcCntrReg

def adcTdataNext (s : AxisI2s) : BitVec 32 :=
  if s.adcCaseReg = 2 ∧ s.bclkPosedge = true then s.adcTdataReg.extractLsb' 0 16 ++ s.adcDataReg
  else s.adcTdataReg

def adcTvalidNext (s : AxisI2s) (i : I2sPins) : Bool :=
  if s.adcCaseReg = 2 ∧ s.bclkPosedge = true then !s.intLrclkReg.getLsbD 1
  else if i.mAxisTready && s.adcTvalidReg then false
  else s.adcTvalidReg

def dacDataNext (s : AxisI2s) : BitVec 16 :=
  if s.dacCaseReg = 2 ∧ s.bclkNegedge = true then
    if s.intLrclkReg.getLsbD 1 then s.dacTdataReg.extractLsb' 0 16
    else s.dacTdataReg.extractLsb' 16 16
  else if s.bclkNegedge then shiftIn s.dacDataReg false
  else s.dacDataReg

def posedge (aresetn : Bool) (s : AxisI2s) (i : I2sPins) : AxisI2s :=
  if !aresetn then ⟨0, 0, 0, 0, 0, 0, 0, false, 0, 0, 0⟩
  else
    { intBclkReg := shiftIn s.intBclkReg i.i2sBclk
      intLrclkReg := shiftIn s.intLrclkReg i.i2sLrclk
      intDataReg := shiftIn s.intDataReg i.i2sAdcData
      adcCaseReg := s.adcCaseNext
      adcCntrReg := s.adcCntrNext
      adcDataReg := s.adcDataNext
      adcTdataReg := s.adcTdataNext
      adcTvalidReg := s.adcTvalidNext i
      dacCaseReg := s.dacCaseNext
      dacDataReg := s.dacDataNext
      dacTdataReg := if s.lrclkNegedge then word i else s.dacTdataReg }

def circuit : Circuit AxisI2s I2sPins where
  Reset s := ∃ s₀ i, s = posedge false s₀ i
  tick := posedge true

abbrev Tick := Clock AxisI2s I2sPins

/-- A frame from the falling edge of the frame clock that the core sees, with the word taken there
and the words delivered in it. -/
structure Frame where
  taken : BitVec 32
  delivered : List (BitVec 32)
  deriving DecidableEq

def deliver (words : List (BitVec 32)) : List Frame → List Frame
  | [] => []
  | [f] => [{ f with delivered := f.delivered ++ words }]
  | f :: g :: fs => f :: deliver words (g :: fs)

def leaves (c : Tick) : List (BitVec 32) :=
  if c.regs.adcTvalidReg && c.pins.mAxisTready then [c.regs.adcTdataReg] else []

def opens (c : Tick) : List Frame := if c.regs.lrclkNegedge then [⟨word c.pins, []⟩] else []

def frames (past : List Tick) : List Frame :=
  past.foldl (fun fs c => deliver (leaves c) fs ++ opens c) []

/-! ### The clocks of the codec -/

structure Wires where
  bclk : Bool
  lrclk : Bool
  deriving DecidableEq

def wires (c : Tick) : Wires := ⟨c.pins.i2sBclk, c.pins.i2sLrclk⟩

/-- What the wires have done: the clocks the bit clock has been at its level, where the first level
counts as long enough; the rising edges of the bit clock in the half frame; whether the half frame
is the first, which may have begun before reset has ended; and whether the first half frame was one
with the frame clock high and one rising edge. -/
structure Line where
  bclk : Bool
  lrclk : Bool
  held : Nat
  ups : Nat
  first : Bool
  short : Bool
  deriving DecidableEq

def Line.next (l : Line) (w : Wires) : Line :=
  let turns := w.lrclk != l.lrclk
  { bclk := w.bclk
    lrclk := w.lrclk
    held := if w.bclk = l.bclk then l.held + 1 else 1
    ups := if turns then 0 else if w.bclk && !l.bclk then l.ups + 1 else l.ups
    first := l.first && !turns
    short := if l.first && turns then l.lrclk && l.ups == 1 else l.short }

/-- Neither clock changes. -/
def Line.hold (l : Line) : Line := { l with held := l.held + 1 }

def Line.rise (l : Line) : Line := { l with bclk := true, held := 1, ups := l.ups + 1 }

def Line.fall (l : Line) : Line := { l with bclk := false, held := 1 }

/-- A half frame ends. -/
def Line.turn (l : Line) : Line where
  bclk := false
  lrclk := !l.lrclk
  held := 1
  ups := 0
  first := false
  short := if l.first then l.lrclk && l.ups == 1 else l.short

def Line.start (w : Wires) : Line := ⟨w.bclk, w.lrclk, 4, 0, true, false⟩

def line : List Wires → Option Line
  | [] => none
  | w :: ws => some (ws.foldl Line.next (Line.start w))

/-- The bit clock has levels of at least four clocks, the frame clock changes with its falling edges
and has half frames of at least sixteen of its periods. -/
structure Line.Allows (l : Line) (w : Wires) : Prop where
  levels : w.bclk ≠ l.bclk → 4 ≤ l.held
  turns : w.lrclk ≠ l.lrclk → l.bclk = true ∧ w.bclk = false ∧ (l.first = true ∨ 16 ≤ l.ups)

structure LoopBack (past : List Tick) (c : Tick) : Prop where
  alexFlag : c.pins.alexFlag = false
  mAxisTready : c.pins.mAxisTready = true
  loop : c.pins.i2sAdcData = dacPad c.regs c.pins
  clocks : ∀ l ∈ line (past.map wires), l.Allows (wires c)

/-- The first half frame was a right half of which the core saw one rising edge. -/
def short (past : List Tick) : Bool := (line (past.map wires)).any Line.short

def left (w : BitVec 32) : BitVec 16 := w.extractLsb' 16 16

def right (w : BitVec 32) : BitVec 16 := w.extractLsb' 0 16

/-- What the k-th frame sends of the word it takes: after a short first half frame the left half of
the first one is lost. -/
def sent (short : Bool) (k : Nat) (taken : BitVec 32) : BitVec 32 :=
  if k = 0 ∧ short = true then 0#16 ++ right taken else taken

variable {s : AxisI2s} {i : I2sPins} {l : Line} {v : Wires} {fs : List Frame} {G H : BitVec 16}
  {w c : BitVec 32} {past : List Tick}

/-! ### Edges -/

/-- The wires as the k-th synchroniser registers have them. -/
def tap (s : AxisI2s) (k : Nat) : Wires := ⟨s.intBclkReg.getLsbD k, s.intLrclkReg.getLsbD k⟩

theorem tap_posedge_zero : (posedge true s i).tap 0 = ⟨i.i2sBclk, i.i2sLrclk⟩ := by
  simp only [tap, posedge, Bool.not_true, Bool.false_eq_true, if_false, getLsbD_shiftIn_zero]

theorem tap_posedge_succ {k : Nat} (below : k < 2) : (posedge true s i).tap (k + 1) = s.tap k := by
  simp only [tap, posedge, Bool.not_true, Bool.false_eq_true, if_false,
    getLsbD_shiftIn_succ _ _ below]

/-- What the core sees in a clock, with the level of the frame clock after it. -/
structure Edges (s : AxisI2s) (up down turn lrclk : Bool) : Prop where
  up : s.bclkPosedge = up
  down : s.bclkNegedge = down
  turn : s.lrclkEdge = turn
  lrclk : s.intLrclkReg.getLsbD 1 = lrclk

theorem Edges.opens {up down turn lrclk : Bool} (edges : Edges s up down turn lrclk) :
    s.lrclkNegedge = (turn && !lrclk) := by
  obtain ⟨-, -, rfl, rfl⟩ := edges
  rw [lrclkNegedge, lrclkEdge]
  cases s.intLrclkReg.getLsbD 1 <;> cases s.intLrclkReg.getLsbD 2 <;> rfl

/-- The core has followed the wires as far as `l`. -/
structure Follows (l : Line) (s : AxisI2s) : Prop where
  wires : s.tap 2 = ⟨l.bclk, l.lrclk⟩
  data0 : l.bclk = true ∨ 2 ≤ l.held → s.intDataReg.getLsbD 0 = s.i2sDacData
  data1 : l.bclk = true ∨ 3 ≤ l.held → s.intDataReg.getLsbD 1 = s.i2sDacData

theorem Follows.edges (follows : Follows l s) (next : s.tap 1 = v) :
    Edges s (v.bclk && !l.bclk) (!v.bclk && l.bclk) (v.lrclk ^^ l.lrclk) v.lrclk := by
  obtain ⟨bclk2, lrclk2⟩ := Wires.mk.inj follows.wires
  subst next
  exact ⟨by rw [bclkPosedge, bclk2]; rfl, by rw [bclkNegedge, bclk2]; rfl,
    by rw [lrclkEdge, lrclk2]; rfl, rfl⟩

/-- What a clock can bring. -/
inductive Comes (l : Line) (s : AxisI2s) (l' : Line) : Prop where
  | hold : l' = l.hold → Edges s false false false l.lrclk → Comes l s l'
  | rise : l.bclk = false → 4 ≤ l.held → l' = l.rise → Edges s true false false l.lrclk →
      Comes l s l'
  | fall : l.bclk = true → 4 ≤ l.held → l' = l.fall → Edges s false true false l.lrclk →
      Comes l s l'
  | turn : l.bclk = true → 4 ≤ l.held → l.first = true ∨ 16 ≤ l.ups → l' = l.turn →
      Edges s false true true (!l.lrclk) → Comes l s l'

theorem Follows.comes (follows : Follows l s) (next : s.tap 1 = v) (allows : l.Allows v) :
    Comes l s (l.next v) := by
  have edges := follows.edges next
  obtain ⟨levels, turns⟩ := allows
  obtain ⟨b', r'⟩ := v
  obtain ⟨b, r, held, ups, first, short⟩ := l
  by_cases turn : r' = r
  · subst turn
    rw [Bool.xor_self] at edges
    cases b <;> cases b'
    · exact .hold (by simp [Line.next, Line.hold]) edges
    · exact .rise rfl (levels (by simp)) (by simp [Line.next, Line.rise]) edges
    · exact .fall rfl (levels (by simp)) (by simp [Line.next, Line.fall]) edges
    · exact .hold (by simp [Line.next, Line.hold]) edges
  · obtain ⟨rfl, rfl, long⟩ := turns turn
    obtain rfl : r' = !r := by cases r <;> cases r' <;> simp_all
    refine .turn rfl (levels (by simp)) long (by simp [Line.next, Line.turn]) ?_
    simpa using edges

/-! ### A half frame, bit by bit -/

/-- The last `n` bits of `x` are the first `n` of `H`. -/
def Has (n : Nat) (x H : BitVec 16) : Prop := ∀ k < n, x.getLsbD k = H.getLsbD (16 - n + k)

theorem Has.shiftIn {n : Nat} {x : BitVec 16} (has : Has n x H) (room : n < 16) :
    Has (n + 1) (shiftIn x (H.getLsbD (15 - n))) H := by
  intro k below
  cases k with
  | zero =>
    rw [getLsbD_shiftIn_zero]
    congr 1
    omega
  | succ k =>
    rw [getLsbD_shiftIn_succ _ _ (by omega), has k (by omega)]
    congr 1
    omega

theorem Has.full {x : BitVec 16} (has : Has 16 x H) : x = H := by
  apply BitVec.eq_of_getLsbD_eq
  intro k inside
  rw [has k inside, Nat.sub_self, Nat.zero_add]

/-- What the input shift register holds after the next rising edge. -/
def completed (s : AxisI2s) : BitVec 16 :=
  if s.adcCntrReg.toNat < 16 then shiftIn s.adcDataReg s.i2sDacData else s.adcDataReg

theorem Has.completed {n : Nat} (has : Has n s.adcDataReg H) (cntr : s.adcCntrReg.toNat = n)
    (few : n ≤ 16) (bit : n < 16 → s.i2sDacData = H.getLsbD (15 - n)) :
    Has (min (n + 1) 16) s.completed H := by
  rw [AxisI2s.completed, cntr]
  split
  case isTrue room =>
    rw [bit room, Nat.min_eq_left room]
    exact has.shiftIn room
  case isFalse full =>
    obtain rfl : n = 16 := by omega
    exact has

theorem shifted_bit {k : Nat} (few : k < 16) : (H <<< k).getLsbD 15 = H.getLsbD (15 - k) := by
  have inside : ¬ 15 < k := by omega
  rw [BitVec.getLsbD_shiftLeft, decide_eq_true (by decide), decide_eq_false inside]
  rfl

def half (l : Line) (s : AxisI2s) : BitVec 16 :=
  if l.lrclk then right s.dacTdataReg else left s.dacTdataReg

theorem half_left (left : l.lrclk = false) : half l s = AxisI2s.left s.dacTdataReg :=
  if_neg (by simp [left])

theorem half_right (right : l.lrclk = true) : half l s = AxisI2s.right s.dacTdataReg :=
  if_pos right

/-- Before the second rising edge of a half frame: `G` is still to be put into the word that is
received, `H` is to be sent. -/
inductive Before (G H : BitVec 16) (l : Line) (s : AxisI2s) : Prop where
  | settle : l.ups = 0 → l.bclk = false → s.adcCaseReg = 1 → s.dacCaseReg = 1 → s.completed = G →
      half l s = H → Before G H l s
  | setUp : l.ups = 1 → l.bclk = true → s.adcCaseReg = 2 → s.dacCaseReg = 2 → s.adcCntrReg = 0 →
      s.adcDataReg = G → half l s = H → Before G H l s
  | load : l.ups = 1 → l.bclk = false → s.adcCaseReg = 2 → s.dacCaseReg = 0 → s.adcCntrReg = 0 →
      s.adcDataReg = G → s.dacDataReg = H → Before G H l s

/-- From there on the bits of `H` move from one shift register to the other; all of them are zero
after a short first half frame. -/
inductive Flows (H : BitVec 16) (l : Line) (s : AxisI2s) : Prop where
  | bits : 2 ≤ l.ups → s.adcCntrReg.toNat = min (l.ups - 1) 16 →
      Has s.adcCntrReg.toNat s.adcDataReg H →
      s.dacDataReg = H <<< (if l.bclk then l.ups - 2 else l.ups - 1) → Flows H l s
  | zeros : H = 0 → s.adcDataReg = 0 → s.dacDataReg = 0 → Flows H l s

structure After (H : BitVec 16) (l : Line) (s : AxisI2s) : Prop where
  adcCase : s.adcCaseReg = 0
  dacCase : s.dacCaseReg = 0
  flows : Flows H l s

section Steps

variable {up down turns lrclk : Bool}

theorem posedge_dacTdata (edges : Edges s up down turns lrclk) (left : (turns && !lrclk) = false) :
    (posedge true s i).dacTdataReg = s.dacTdataReg := by
  have opens : s.lrclkNegedge = false := edges.opens.trans left
  simp [posedge, opens]

theorem adcCase_zero (edges : Edges s up down turns lrclk) (adc : s.adcCaseReg = 0) :
    s.adcCaseNext = if turns then 1 else 0 := by
  simp [adcCaseNext, adc, edges.turn]

theorem adcCase_one (edges : Edges s up down turns lrclk) (adc : s.adcCaseReg = 1) :
    s.adcCaseNext = if up then 2 else 1 := by
  simp [adcCaseNext, adc, edges.up]

theorem adcCase_two (edges : Edges s up down turns lrclk) (adc : s.adcCaseReg = 2) :
    s.adcCaseNext = if up then 0 else 2 := by
  simp [adcCaseNext, adc, edges.up]

theorem dacCase_zero (edges : Edges s up down turns lrclk) (dac : s.dacCaseReg = 0) :
    s.dacCaseNext = if turns then 1 else 0 := by
  simp [dacCaseNext, dac, edges.turn]

theorem dacCase_one (edges : Edges s up down turns lrclk) (dac : s.dacCaseReg = 1) :
    s.dacCaseNext = if up then 2 else 1 := by
  simp [dacCaseNext, dac, edges.up]

theorem dacCase_two (edges : Edges s up down turns lrclk) (dac : s.dacCaseReg = 2) :
    s.dacCaseNext = if down then 0 else 2 := by
  simp [dacCaseNext, dac, edges.down]

theorem adcData_up (edges : Edges s true down turns lrclk)
    (data : s.intDataReg.getLsbD 1 = s.i2sDacData) : s.adcDataNext = s.completed := by
  rw [adcDataNext, shifts, edges.up, Bool.true_and, data, completed]
  simp only [decide_eq_true_eq]

theorem adcData_down (edges : Edges s false down turns lrclk) : s.adcDataNext = s.adcDataReg := by
  simp [adcDataNext, shifts, edges.up]

theorem adcCntr_down (edges : Edges s false down turns lrclk) : s.adcCntrNext = s.adcCntrReg := by
  simp [adcCntrNext, shifts, edges.up]

theorem adcTdata_down (edges : Edges s false down turns lrclk) :
    s.adcTdataNext = s.adcTdataReg := by
  simp [adcTdataNext, edges.up]

theorem adcTvalid_down (edges : Edges s false down turns lrclk) (ready : i.mAxisTready = true) :
    s.adcTvalidNext i = false := by
  simp [adcTvalidNext, edges.up, ready]

theorem adcCntr_up (edges : Edges s true down turns lrclk) (adc : s.adcCaseReg = 0)
    (few : s.adcCntrReg.toNat ≤ 16) : s.adcCntrNext.toNat = min (s.adcCntrReg.toNat + 1) 16 := by
  rw [adcCntrNext, if_neg (by simp [adc]), shifts, edges.up, Bool.true_and]
  simp only [decide_eq_true_eq]
  split
  case isTrue room => rw [toNat_add_one (by omega), Nat.min_eq_left room]
  case isFalse full => omega

theorem dacData_down (edges : Edges s up true turns lrclk) (other : s.dacCaseReg ≠ 2) :
    s.dacDataNext = s.dacDataReg <<< 1 := by
  rw [dacDataNext, if_neg (fun load => other load.1), if_pos edges.down, shiftIn_false]

theorem dacData_up (edges : Edges s up false turns lrclk) : s.dacDataNext = s.dacDataReg := by
  simp [dacDataNext, edges.down]

/-- Without an edge only the synchronisers move, and a word that is shown is taken. -/
theorem posedge_hold (edges : Edges s false false false lrclk) :
    posedge true s i =
      { s with
        intBclkReg := shiftIn s.intBclkReg i.i2sBclk
        intLrclkReg := shiftIn s.intLrclkReg i.i2sLrclk
        intDataReg := shiftIn s.intDataReg i.i2sAdcData
        adcTvalidReg := s.adcTvalidNext i } := by
  have adc : s.adcCaseNext = s.adcCaseReg := by
    rw [adcCaseNext, edges.up, edges.turn]
    split_ifs <;> simp_all
  have dac : s.dacCaseNext = s.dacCaseReg := by
    rw [dacCaseNext, edges.up, edges.down, edges.turn]
    split_ifs <;> simp_all
  have shown : s.lrclkNegedge = false := edges.opens
  simp only [posedge, adc, dac, adcData_down edges, adcCntr_down edges, adcTdata_down edges,
    dacData_up edges, shown, Bool.not_true, Bool.false_eq_true, if_false]

theorem Before.hold (before : Before G H l s) (edges : Edges s false false false l.lrclk) :
    Before G H l.hold (posedge true s i) := by
  rw [posedge_hold edges]
  cases before with
  | settle none low adc dac next half => exact .settle none low adc dac next half
  | setUp one high adc dac cntr received half =>
    exact .setUp one high adc dac cntr received half
  | load one low adc dac cntr received shifted =>
    exact .load one low adc dac cntr received shifted

theorem After.hold (after : After H l s) (edges : Edges s false false false l.lrclk) :
    After H l.hold (posedge true s i) := by
  rw [posedge_hold edges]
  obtain ⟨adc, dac, flows⟩ := after
  refine ⟨adc, dac, ?_⟩
  cases flows with
  | bits ups cntr has dacData => exact .bits ups cntr has dacData
  | zeros zero adcData dacData => exact .zeros zero adcData dacData

/-- Before the first rising edge of a half frame. -/
theorem Before.rise (before : Before G H l s) (none : l.ups = 0)
    (edges : Edges s true false false l.lrclk) (data : s.intDataReg.getLsbD 1 = s.i2sDacData) :
    Before G H l.rise (posedge true s i) ∧ s.adcCaseReg ≠ 2 := by
  cases before with
  | settle _ _ adc dac done next =>
    refine ⟨.setUp ?_ rfl ?_ ?_ ?_ ?_ ?_, ?_⟩
    · simp [Line.rise, none]
    · exact adcCase_one edges adc
    · exact dacCase_one edges dac
    · simp [posedge, adcCntrNext, adc, edges.up]
    · exact (adcData_up edges data).trans done
    · rw [half, posedge_dacTdata edges rfl]
      exact next
    · simp [adc]
  | setUp one => omega
  | load one => omega

/-- The second rising edge brings the first bit of `H`, and what has been received is taken over. -/
theorem Before.after (before : Before G H l s) (low : l.bclk = false) (some : l.ups ≠ 0)
    (edges : Edges s true false false l.lrclk) (data : s.intDataReg.getLsbD 1 = s.i2sDacData) :
    After H l.rise (posedge true s i) ∧ s.adcTdataNext = right s.adcTdataReg ++ G ∧
      s.adcTvalidNext i = !l.lrclk := by
  cases before with
  | settle none => exact absurd none some
  | setUp _ high =>
    rw [low] at high
    cases high
  | load one _ adc dac cntr received shifted =>
    have first : s.adcCntrNext = 1 := by simp [adcCntrNext, adc, shifts, edges.up, cntr]
    have bit : s.adcDataNext = shiftIn s.adcDataReg (H.getLsbD 15) := by
      rw [adcData_up edges data, completed, cntr, if_pos (by decide), i2sDacData, shifted]
    refine ⟨⟨?_, ?_, .bits ?_ ?_ ?_ ?_⟩, ?_, ?_⟩
    · exact adcCase_two edges adc
    · exact dacCase_zero edges dac
    · simp [Line.rise, one]
    · show s.adcCntrNext.toNat = min (l.ups + 1 - 1) 16
      rw [first, one]
      rfl
    · show Has s.adcCntrNext.toNat s.adcDataNext H
      rw [first, bit]
      exact Has.shiftIn (n := 0) (fun k below => absurd below (Nat.not_lt_zero k)) (by decide)
    · show s.dacDataNext = H <<< (l.ups + 1 - 2)
      rw [dacData_up edges, shifted, one]
      simp
    · simp [adcTdataNext, adc, edges.up, right, received]
    · rw [adcTvalidNext, if_pos ⟨adc, edges.up⟩, edges.lrclk]

/-- The falling edge after the first rising one loads `H`. -/
theorem Before.fall (before : Before G H l s) (high : l.bclk = true)
    (edges : Edges s false true false l.lrclk) : Before G H l.fall (posedge true s i) := by
  cases before with
  | settle _ low =>
    rw [high] at low
    cases low
  | load _ low =>
    rw [high] at low
    cases low
  | setUp one _ adc dac cntr received next =>
    refine .load one rfl ?_ ?_ ?_ ?_ ?_
    · exact adcCase_two edges adc
    · exact dacCase_two edges dac
    · exact (adcCntr_down edges).trans cntr
    · exact (adcData_down edges).trans received
    · show s.dacDataNext = H
      rw [dacDataNext, if_pos ⟨dac, edges.down⟩, edges.lrclk]
      exact next

theorem After.rise (after : After H l s) (low : l.bclk = false)
    (edges : Edges s true false false l.lrclk) (data : s.intDataReg.getLsbD 1 = s.i2sDacData) :
    After H l.rise (posedge true s i) := by
  obtain ⟨adc, dac, flows⟩ := after
  have received := adcData_up edges data
  refine ⟨?_, ?_, ?_⟩
  · exact adcCase_zero edges adc
  · exact dacCase_zero edges dac
  · cases flows with
    | zeros zero adcData dacData =>
      refine .zeros zero ?_ ((dacData_up edges).trans dacData)
      show s.adcDataNext = 0
      rw [received, completed, i2sDacData, adcData, dacData]
      split <;> rfl
    | bits ups cntr has dacData =>
      rw [low] at dacData
      have same : s.dacDataReg = H <<< (l.ups + 1 - 2) := dacData
      have here : min (l.ups - 1) 16 ≤ 16 := Nat.min_le_right _ _
      have onward : min (l.ups + 1 - 1) 16 = min (min (l.ups - 1) 16 + 1) 16 := by omega
      have next : s.adcCntrNext.toNat = min (l.ups + 1 - 1) 16 := by
        rw [onward, ← cntr]
        exact adcCntr_up edges adc (cntr ▸ here)
      refine .bits (Nat.le_succ_of_le ups) next ?_ ((dacData_up edges).trans same)
      show Has s.adcCntrNext.toNat s.adcDataNext H
      rw [next, onward, received]
      rw [cntr] at has
      refine has.completed cntr here fun room => ?_
      rw [i2sDacData, same, shifted_bit (by omega)]
      congr 1
      omega

/-- The falling edge brings the next bit. -/
theorem After.fall (after : After H l s) (high : l.bclk = true)
    (edges : Edges s false true false l.lrclk) : After H l.fall (posedge true s i) := by
  obtain ⟨adc, dac, flows⟩ := after
  have shifted := dacData_down edges (by simp [dac])
  refine ⟨?_, ?_, ?_⟩
  · exact adcCase_zero edges adc
  · exact dacCase_zero edges dac
  · cases flows with
    | zeros zero adcData dacData =>
      refine .zeros zero ((adcData_down edges).trans adcData) ?_
      show s.dacDataNext = 0
      rw [shifted, dacData]
      rfl
    | bits ups cntr has dacData =>
      rw [high] at dacData
      refine .bits ups ((congrArg _ (adcCntr_down edges)).trans cntr) ?_ ?_
      · show Has s.adcCntrNext.toNat s.adcDataNext H
        rw [adcCntr_down edges, adcData_down edges]
        exact has
      · show s.dacDataNext = H <<< (l.ups - 1)
        rw [shifted, dacData, if_pos rfl, ← BitVec.shiftLeft_add]
        congr 1
        omega

/-- A half frame of sixteen periods ends with its last bit still to come. -/
theorem After.turn (after : After H l s) (high : l.bclk = true) (long : 16 ≤ l.ups)
    (edges : Edges s false true true (!l.lrclk)) :
    Before H (half l.turn (posedge true s i)) l.turn (posedge true s i) := by
  obtain ⟨adc, dac, flows⟩ := after
  have shifted : (posedge true s i).dacDataReg = s.dacDataReg <<< 1 :=
    dacData_down edges (by simp [dac])
  have kept : (posedge true s i).adcDataReg = s.adcDataReg := adcData_down edges
  refine .settle rfl rfl ?_ ?_ ?_ rfl
  · exact adcCase_zero edges adc
  · exact dacCase_zero edges dac
  · cases flows with
    | zeros zero adcData dacData =>
      rw [completed, i2sDacData, kept, shifted, adcData, dacData, zero]
      split <;> rfl
    | bits ups cntr has dacData =>
      rw [high, if_pos rfl] at dacData
      have same : (posedge true s i).adcCntrReg.toNat = min (l.ups - 1) 16 :=
        (congrArg _ (adcCntr_down edges)).trans cntr
      have all : min (min (l.ups - 1) 16 + 1) 16 = 16 := by omega
      rw [cntr, ← kept] at has
      have next := has.completed same (Nat.min_le_right _ _) fun room => ?_
      · rw [all] at next
        exact next.full
      · rw [i2sDacData, shifted, dacData, ← BitVec.shiftLeft_add, shifted_bit (by omega)]
        congr 1
        omega

end Steps

/-! ### Frames -/

theorem deliver_nil (fs : List Frame) : deliver [] fs = fs := by
  induction fs using deliver.induct with
  | case1 => rfl
  | case2 f => rw [deliver, List.append_nil]
  | case3 f g fs ih => rw [deliver, ih]

theorem deliver_snoc (words : List (BitVec 32)) (fs : List Frame) (f : Frame) :
    deliver words (fs ++ [f]) = fs ++ [{ f with delivered := f.delivered ++ words }] := by
  induction fs with
  | nil => rfl
  | cons g gs ih =>
    cases gs with
    | nil => rfl
    | cons h hs => exact congrArg (g :: ·) ih

theorem frames_snoc (past : List Tick) (c : Tick) :
    frames (past ++ [c]) = deliver (leaves c) (frames past) ++ opens c := by
  simp [frames]

/-- Every frame has delivered what the one before it sent, and the last one sends `c`. -/
inductive Paid (short : Bool) : List Frame → BitVec 32 → Prop where
  | none : Paid short [] 0
  | frame {fs : List Frame} {w : BitVec 32} (taken : BitVec 32) : Paid short fs w →
      Paid short (fs ++ [⟨taken, [w]⟩]) (sent short fs.length taken)

/-- The last frame has still to deliver `w`. -/
def Owes (short : Bool) (fs : List Frame) (w c : BitVec 32) : Prop :=
  ∃ gs taken, fs = gs ++ [⟨taken, []⟩] ∧ Paid short gs w ∧ c = sent short gs.length taken

theorem Owes.paid {short : Bool} (owes : Owes short fs w c) : Paid short (deliver [w] fs) c := by
  obtain ⟨gs, taken, rfl, paid, rfl⟩ := owes
  rw [deliver_snoc]
  exact .frame taken paid

theorem Owes.shown {short : Bool} (owes : Owes short fs w c) : deliver [w] fs ≠ [] := by
  obtain ⟨gs, taken, rfl, -⟩ := owes
  simp [deliver_snoc]

theorem Paid.owes {short : Bool} (paid : Paid short fs c) (taken : BitVec 32) :
    Owes short (fs ++ [⟨taken, []⟩]) c (sent short fs.length taken) :=
  ⟨fs, taken, rfl, paid, rfl⟩

theorem sent_whole {short : Bool} (whole : fs = [] → short = false) (taken : BitVec 32) :
    sent short fs.length taken = taken := by
  refine if_neg fun lost => ?_
  have none := whole (List.length_eq_zero_iff.mp lost.1)
  rw [lost.2] at none
  cases none

theorem right_append (x y : BitVec 16) : right (x ++ y) = y := by
  apply BitVec.eq_of_getLsbD_eq
  intro k inside
  rw [right, BitVec.getLsbD_extractLsb', Nat.zero_add, decide_eq_true inside, Bool.true_and]
  exact BitVec.getLsbD_append.trans (if_pos inside)

theorem left_append (x y : BitVec 16) : left (x ++ y) = x := by
  apply BitVec.eq_of_getLsbD_eq
  intro k inside
  have high : ¬ 16 + k < 16 := by omega
  rw [left, BitVec.getLsbD_extractLsb', decide_eq_true inside, Bool.true_and]
  refine BitVec.getLsbD_append.trans ?_
  rw [if_neg high, Nat.add_sub_cancel_left]

theorem left_append_right (w : BitVec 32) : left w ++ right w = w := by
  apply BitVec.eq_of_getLsbD_eq
  intro k inside
  refine BitVec.getLsbD_append.trans ?_
  split
  case isTrue low => simp [right, low]
  case isFalse high =>
    have few : k - 16 < 16 := by omega
    have back : 16 + (k - 16) = k := by omega
    simp [left, few, back]

theorem right_sent (short : Bool) (k : Nat) (taken : BitVec 32) :
    right (sent short k taken) = right taken := by
  rw [sent]
  split
  · exact right_append 0 (right taken)
  · rfl

theorem Paid.last {short : Bool} {f : Frame} {k : Nat} (paid : Paid short fs c)
    (here : fs[k]? = some f) (last : fs.length = k + 1) : c = sent short k f.taken := by
  cases paid with
  | none => cases here
  | @frame fs w taken _ =>
    obtain rfl : fs.length = k := by simpa using last
    rw [List.getElem?_concat_length] at here
    cases here
    rfl

theorem Paid.next {short : Bool} {f g : Frame} {k : Nat} (paid : Paid short fs c)
    (here : fs[k]? = some f) (next : fs[k + 1]? = some g) :
    g.delivered = [sent short k f.taken] := by
  induction paid with
  | none => cases here
  | @frame fs w taken paid ih =>
    obtain ⟨inside, -⟩ := List.getElem?_eq_some_iff.mp next
    rw [List.length_append, List.length_singleton] at inside
    rw [List.getElem?_append_left (by omega)] at here
    by_cases earlier : k + 1 < fs.length
    · rw [List.getElem?_append_left earlier] at next
      exact ih here next
    · have at_end : fs.length = k + 1 := by omega
      rw [← at_end, List.getElem?_concat_length] at next
      cases next
      rw [paid.last here at_end]

theorem Owes.next {short : Bool} {f g : Frame} {k : Nat} (owes : Owes short fs w c)
    (here : fs[k]? = some f) (next : fs[k + 1]? = some g) :
    g.delivered = [sent short k f.taken] ∨ g.delivered = [] ∧ fs.length = k + 2 := by
  obtain ⟨gs, taken, rfl, paid, -⟩ := owes
  obtain ⟨inside, -⟩ := List.getElem?_eq_some_iff.mp next
  rw [List.length_append, List.length_singleton] at inside ⊢
  by_cases earlier : k + 1 < gs.length
  · rw [List.getElem?_append_left earlier] at next
    rw [List.getElem?_append_left (by omega)] at here
    exact .inl (paid.next here next)
  · have last : gs.length = k + 1 := by omega
    rw [← last, List.getElem?_concat_length] at next
    cases next
    exact .inr ⟨rfl, by omega⟩

/-! ### The core in a frame -/

/-- Nothing has been received or loaded. -/
structure Blank (s : AxisI2s) : Prop where
  adcData : s.adcDataReg = 0
  adcTdata : s.adcTdataReg = 0
  adcTvalid : s.adcTvalidReg = false
  dacData : s.dacDataReg = 0

/-- The two machines in the first half frame: they take a frame clock that is high for an edge. -/
inductive Opening (l : Line) (s : AxisI2s) : Prop where
  | idle : l.lrclk = false ∨ 2 ≤ l.ups → s.adcCaseReg = 0 → s.dacCaseReg = 0 → Opening l s
  | waits : l.lrclk = true → l.ups = 0 → s.adcCaseReg = 1 → s.dacCaseReg = 1 → Opening l s
  | high : l.lrclk = true → l.ups = 1 → l.bclk = true → s.adcCaseReg = 2 → s.dacCaseReg = 2 →
      Opening l s
  | low : l.lrclk = true → l.ups = 1 → l.bclk = false → s.adcCaseReg = 2 → s.dacCaseReg = 0 →
      Opening l s

/-- A left half frame delivers `w` while it sends the left half of `c`; a right one sends the right
half. -/
inductive Stage (l : Line) (fs : List Frame) (s : AxisI2s) : Prop where
  | first : l.first = true → l.short = false → fs = [] → Blank s → s.dacTdataReg = 0 →
      Opening l s → Stage l fs s
  /-- The first left half frame after a short first half frame: its edge has not been seen. -/
  | lost : l.first = false → l.short = true → l.lrclk = false → l.ups = 0 → l.bclk = false →
      fs = [⟨s.dacTdataReg, []⟩] → Blank s → s.adcCaseReg = 2 → s.dacCaseReg = 0 → Stage l fs s
  | owes (w c : BitVec 32) : l.first = false → l.lrclk = false → Owes l.short fs w c →
      Before (right w) (left c) l s → right s.adcTdataReg = left w →
      right s.dacTdataReg = right c → s.adcTvalidReg = false → Stage l fs s
  | shows (c : BitVec 32) : l.first = false → l.lrclk = false → l.bclk = true → l.held = 1 →
      Owes l.short fs s.adcTdataReg c → After (left c) l s → right s.dacTdataReg = right c →
      s.adcTvalidReg = true → Stage l fs s
  | paid (c : BitVec 32) : l.first = false → l.lrclk = false → fs ≠ [] → Paid l.short fs c →
      After (left c) l s → right s.dacTdataReg = right c → s.adcTvalidReg = false → Stage l fs s
  | receives (c : BitVec 32) : l.first = false → l.lrclk = true → (fs = [] → l.short = false) →
      Paid l.short fs c → Before (left c) (right c) l s → s.adcTvalidReg = false → Stage l fs s
  | sends (c : BitVec 32) : l.first = false → l.lrclk = true → (fs = [] → l.short = false) →
      Paid l.short fs c → After (right c) l s → right s.adcTdataReg = left c →
      s.adcTvalidReg = false → Stage l fs s

def nextFrames (fs : List Frame) (s : AxisI2s) (i : I2sPins) : List Frame :=
  deliver (leaves ⟨s, i⟩) fs ++ opens ⟨s, i⟩

section Stages

variable {up down turns lrclk : Bool}

theorem nextFrames_same (edges : Edges s up down turns lrclk) (same : (turns && !lrclk) = false)
    (none : s.adcTvalidReg = false) : nextFrames fs s i = fs := by
  have closed : s.lrclkNegedge = false := edges.opens.trans same
  simp [nextFrames, leaves, opens, none, closed, deliver_nil]

theorem nextFrames_opens (edges : Edges s up down true false) (none : s.adcTvalidReg = false) :
    nextFrames fs s i = fs ++ [⟨word i, []⟩] := by
  have opened : s.lrclkNegedge = true := edges.opens
  simp [nextFrames, leaves, opens, none, opened, deliver_nil]

theorem nextFrames_shows (edges : Edges s up down turns lrclk) (same : (turns && !lrclk) = false)
    (shown : s.adcTvalidReg = true) (ready : i.mAxisTready = true) :
    nextFrames fs s i = deliver [s.adcTdataReg] fs := by
  have closed : s.lrclkNegedge = false := edges.opens.trans same
  simp [nextFrames, leaves, opens, shown, ready, closed]

theorem Blank.step (blank : Blank s) (edges : Edges s up down turns lrclk)
    (data : up = true → s.intDataReg.getLsbD 1 = s.i2sDacData)
    (load : s.dacCaseReg = 2 → s.dacTdataReg = 0)
    (valid : s.adcTvalidNext i = false) : Blank (posedge true s i) := by
  obtain ⟨adcData, adcTdata, -, dacData⟩ := blank
  refine ⟨?_, ?_, valid, ?_⟩
  · show s.adcDataNext = 0
    cases up with
    | false => rw [adcData_down edges, adcData]
    | true =>
      rw [adcData_up edges (data rfl), completed, i2sDacData, adcData, dacData]
      split <;> rfl
  · show s.adcTdataNext = 0
    rw [adcTdataNext, adcTdata, adcData]
    split <;> rfl
  · show s.dacDataNext = 0
    rw [dacDataNext]
    split
    case isTrue loads =>
      rw [load loads.1]
      split <;> rfl
    case isFalse =>
      rw [dacData]
      split <;> rfl

theorem stage_hold (stage : Stage l fs s) (edges : Edges s false false false l.lrclk)
    (ready : i.mAxisTready = true) :
    Stage l.hold (nextFrames fs s i) (posedge true s i) := by
  have taken : (posedge true s i).adcTvalidReg = false := adcTvalid_down edges ready
  have tdata : (posedge true s i).adcTdataReg = s.adcTdataReg := adcTdata_down edges
  have dacTdata : (posedge true s i).dacTdataReg = s.dacTdataReg := posedge_dacTdata edges rfl
  cases stage with
  | first first short none blank zero opening =>
    rw [nextFrames_same edges rfl blank.adcTvalid]
    refine .first first short none (blank.step edges (by simp) (fun _ => zero) taken)
      (dacTdata.trans zero) ?_
    rw [posedge_hold edges]
    cases opening with
    | idle done adc dac => exact .idle done adc dac
    | waits right none adc dac => exact .waits right none adc dac
    | high right one high adc dac => exact .high right one high adc dac
    | low right one low adc dac => exact .low right one low adc dac
  | lost first short left none low one blank adc dac =>
    rw [nextFrames_same edges rfl blank.adcTvalid]
    have blank' := blank.step edges (by simp) (fun load => by simp [dac] at load) taken
    refine .lost first short left none low (dacTdata ▸ one) blank' ?_ ?_
    · rw [posedge_hold edges]
      exact adc
    · rw [posedge_hold edges]
      exact dac
  | owes w c first left owes before half dac none =>
    rw [nextFrames_same edges rfl none]
    exact .owes w c first left owes (before.hold edges) (tdata ▸ half) (dacTdata ▸ dac) taken
  | shows c first left _ _ owes after dac shown =>
    rw [nextFrames_shows edges rfl shown ready]
    exact .paid c first left owes.shown owes.paid (after.hold edges) (dacTdata ▸ dac) taken
  | paid c first left some paid after dac none =>
    rw [nextFrames_same edges rfl none]
    exact .paid c first left some paid (after.hold edges) (dacTdata ▸ dac) taken
  | receives c first right whole paid before none =>
    rw [nextFrames_same edges rfl none]
    exact .receives c first right whole paid (before.hold edges) taken
  | sends c first right whole paid after half none =>
    rw [nextFrames_same edges rfl none]
    exact .sends c first right whole paid (after.hold edges) (tdata ▸ half) taken

theorem stage_fall (stage : Stage l fs s) (high : l.bclk = true) (held : 4 ≤ l.held)
    (edges : Edges s false true false l.lrclk) (ready : i.mAxisTready = true) :
    Stage l.fall (nextFrames fs s i) (posedge true s i) := by
  have taken : (posedge true s i).adcTvalidReg = false := adcTvalid_down edges ready
  have tdata : (posedge true s i).adcTdataReg = s.adcTdataReg := adcTdata_down edges
  have dacTdata : (posedge true s i).dacTdataReg = s.dacTdataReg := posedge_dacTdata edges rfl
  cases stage with
  | first first short none blank zero opening =>
    rw [nextFrames_same edges rfl blank.adcTvalid]
    refine .first first short none (blank.step edges (by simp) (fun _ => zero) taken)
      (dacTdata.trans zero) ?_
    cases opening with
    | idle done adc dac =>
      exact .idle done (adcCase_zero edges adc) (dacCase_zero edges dac)
    | waits right none adc dac =>
      exact .waits right none (adcCase_one edges adc) (dacCase_one edges dac)
    | high right one _ adc dac =>
      exact .low right one rfl (adcCase_two edges adc) (dacCase_two edges dac)
    | low _ _ low =>
      rw [high] at low
      cases low
  | lost _ _ _ _ low =>
    rw [high] at low
    cases low
  | owes w c first left owes before half dac none =>
    rw [nextFrames_same edges rfl none]
    exact .owes w c first left owes (before.fall high edges) (tdata ▸ half) (dacTdata ▸ dac) taken
  | shows _ _ _ _ new => omega
  | paid c first left some paid after dac none =>
    rw [nextFrames_same edges rfl none]
    exact .paid c first left some paid (after.fall high edges) (dacTdata ▸ dac) taken
  | receives c first right whole paid before none =>
    rw [nextFrames_same edges rfl none]
    exact .receives c first right whole paid (before.fall high edges) taken
  | sends c first right whole paid after half none =>
    rw [nextFrames_same edges rfl none]
    exact .sends c first right whole paid (after.fall high edges) (tdata ▸ half) taken

theorem posedge_adcTdata : (posedge true s i).adcTdataReg = s.adcTdataNext := rfl

theorem adcTdata_same (other : s.adcCaseReg ≠ 2) :
    (posedge true s i).adcTdataReg = s.adcTdataReg := by
  rw [posedge_adcTdata, adcTdataNext, if_neg fun loads => other loads.1]

theorem adcTvalid_same (other : s.adcCaseReg ≠ 2) (none : s.adcTvalidReg = false) :
    s.adcTvalidNext i = false := by
  rw [adcTvalidNext, if_neg (fun loads => other loads.1), none, Bool.and_false]
  rfl

theorem stage_rise (stage : Stage l fs s) (low : l.bclk = false) (held : 4 ≤ l.held)
    (edges : Edges s true false false l.lrclk) (follows : Follows l s) :
    Stage l.rise (nextFrames fs s i) (posedge true s i) := by
  have data := follows.data1 (.inr (by omega))
  have dacTdata : (posedge true s i).dacTdataReg = s.dacTdataReg := posedge_dacTdata edges rfl
  cases stage with
  | first first short none blank zero opening =>
    rw [nextFrames_same edges rfl blank.adcTvalid]
    have step (valid : s.adcTvalidNext i = false) : Blank (posedge true s i) :=
      blank.step edges (fun _ => data) (fun _ => zero) valid
    cases opening with
    | idle done adc dac =>
      have valid := adcTvalid_same (i := i) (by simp [adc]) blank.adcTvalid
      exact .first first short none (step valid) (dacTdata.trans zero)
        (.idle (done.imp_right fun two => Nat.le_succ_of_le two) (adcCase_zero edges adc)
          (dacCase_zero edges dac))
    | waits right ups adc dac =>
      have valid := adcTvalid_same (i := i) (by simp [adc]) blank.adcTvalid
      exact .first first short none (step valid) (dacTdata.trans zero)
        (.high right (congrArg Nat.succ ups) rfl (adcCase_one edges adc) (dacCase_one edges dac))
    | high _ _ high =>
      rw [low] at high
      cases high
    | low right one _ adc dac =>
      have valid : s.adcTvalidNext i = false := by
        rw [adcTvalidNext, if_pos ⟨adc, edges.up⟩, edges.lrclk, right]
        rfl
      exact .first first short none (step valid) (dacTdata.trans zero)
        (.idle (.inr (Nat.succ_le_succ (Nat.le_of_eq one.symm))) (adcCase_two edges adc)
          (dacCase_zero edges dac))
  | lost first short left none _ one blank adc dac =>
    rw [nextFrames_same edges rfl blank.adcTvalid]
    have valid : s.adcTvalidNext i = true := by
      rw [adcTvalidNext, if_pos ⟨adc, edges.up⟩, edges.lrclk, left]
      rfl
    have zero : s.adcTdataNext = 0 := by
      rw [adcTdataNext, if_pos ⟨adc, edges.up⟩, blank.adcTdata, blank.adcData]
      rfl
    have received : s.adcDataNext = 0 := by
      rw [adcData_up edges data, completed, i2sDacData, blank.adcData, blank.dacData]
      split <;> rfl
    have silent : AxisI2s.left (sent l.short 0 s.dacTdataReg) = 0 := by
      rw [sent, if_pos ⟨rfl, short⟩, left_append]
      rfl
    refine .shows (sent l.short 0 s.dacTdataReg) first left rfl rfl ?_ ⟨?_, ?_, ?_⟩ ?_ valid
    · rw [posedge_adcTdata, zero]
      exact ⟨[], _, one, .none, rfl⟩
    · exact adcCase_two edges adc
    · exact dacCase_zero edges dac
    · exact .zeros silent received ((dacData_up edges).trans blank.dacData)
    · rw [dacTdata, right_sent]
  | owes w c first left owes before half dac none =>
    rw [nextFrames_same edges rfl none]
    by_cases early : l.ups = 0
    · obtain ⟨before', other⟩ := before.rise early edges data (i := i)
      exact .owes w c first left owes before' (adcTdata_same other ▸ half) (dacTdata ▸ dac)
        (adcTvalid_same other none)
    · obtain ⟨after, tdata, valid⟩ := before.after low early edges data (i := i)
      have whole : (posedge true s i).adcTdataReg = w := by
        rw [posedge_adcTdata, tdata, half, left_append_right]
      exact .shows c first left rfl rfl (whole.symm ▸ owes) after (dacTdata ▸ dac)
        (valid.trans (by rw [left]; rfl))
  | shows _ _ _ _ new => omega
  | paid c first left some paid after dac none =>
    rw [nextFrames_same edges rfl none]
    exact .paid c first left some paid (after.rise low edges data) (dacTdata ▸ dac)
      (adcTvalid_same (by simp [after.adcCase]) none)
  | receives c first right whole paid before none =>
    rw [nextFrames_same edges rfl none]
    by_cases early : l.ups = 0
    · obtain ⟨before', other⟩ := before.rise early edges data (i := i)
      exact .receives c first right whole paid before' (adcTvalid_same other none)
    · obtain ⟨after, tdata, valid⟩ := before.after low early edges data (i := i)
      have half : AxisI2s.right (posedge true s i).adcTdataReg = AxisI2s.left c := by
        rw [posedge_adcTdata, tdata, right_append]
      exact .sends c first right whole paid after half (valid.trans (by rw [right]; rfl))
  | sends c first right whole paid after half none =>
    rw [nextFrames_same edges rfl none]
    have other : s.adcCaseReg ≠ 2 := by simp [after.adcCase]
    exact .sends c first right whole paid (after.rise low edges data)
      (adcTdata_same other ▸ half) (adcTvalid_same other none)

theorem Blank.settle (blank : Blank s) (adc : s.adcCaseReg = 1) (dac : s.dacCaseReg = 1) :
    Before 0 (half l.turn s) l.turn s := by
  refine .settle rfl rfl adc dac ?_ rfl
  rw [completed, i2sDacData, blank.adcData, blank.dacData]
  split <;> rfl

theorem Before.few (before : Before G H l s) : l.ups ≤ 1 := by
  cases before <;> omega

theorem turn_short (first : l.first = false) : l.turn.short = l.short := by
  rw [Line.turn, first]
  rfl

/-- A frame opens. -/
theorem posedge_word (edges : Edges s up down true false) :
    (posedge true s i).dacTdataReg = word i := by
  have opened : s.lrclkNegedge = true := edges.opens
  simp [posedge, opened]

theorem turn_left (ended : l.lrclk = true) : l.turn.lrclk = false := by
  rw [Line.turn, ended]
  rfl

theorem turn_right (ended : l.lrclk = false) : l.turn.lrclk = true := by
  rw [Line.turn, ended]
  rfl

/-- The first edge of the frame clock that the wires show. -/
theorem first_turn (first : l.first = true) (high : l.bclk = true) (blank : Blank s)
    (zero : s.dacTdataReg = 0) (opening : Opening l s)
    (edges : Edges s false true true (!l.lrclk)) (ready : i.mAxisTready = true) :
    Stage l.turn (nextFrames [] s i) (posedge true s i) := by
  have taken : (posedge true s i).adcTvalidReg = false := adcTvalid_down edges ready
  have blank' := blank.step edges (by simp) (fun _ => zero) taken
  have due : right (posedge true s i).adcTdataReg = left 0 := by
    rw [blank'.adcTdata]
    rfl
  cases ended : l.lrclk with
  | false =>
    rw [ended] at edges
    rw [nextFrames_same edges rfl blank.adcTvalid]
    have same : (posedge true s i).dacTdataReg = 0 := (posedge_dacTdata edges rfl).trans zero
    have unseen : l.turn.short = false := by
      rw [Line.turn, first, ended]
      rfl
    cases opening with
    | idle _ adc dac =>
      have before := blank'.settle (l := l) (adcCase_zero edges adc) (dacCase_zero edges dac)
      rw [half_right (turn_right ended), same] at before
      exact .receives 0 rfl (turn_right ended) (fun _ => unseen) .none before taken
    | waits right => simp [ended] at right
    | high right => simp [ended] at right
    | low right => simp [ended] at right
  | true =>
    rw [ended] at edges
    rw [nextFrames_opens edges blank.adcTvalid]
    have opened := posedge_word edges (i := i)
    have seen (none : l.ups ≠ 1) (adc : s.adcCaseNext = 1) (dac : s.dacCaseNext = 1) :
        Stage l.turn ([] ++ [⟨word i, []⟩]) (posedge true s i) := by
      have before := blank'.settle (l := l) adc dac
      rw [half_left (turn_left ended), opened] at before
      have unseen : l.turn.short = false := by
        rw [Line.turn, first, ended]
        simp [none]
      have start : Paid l.turn.short [] 0 := .none
      have owes := start.owes (word i)
      rw [sent_whole fun _ => unseen] at owes
      exact .owes 0 (word i) rfl (turn_left ended) owes before due (by rw [opened]) taken
    cases opening with
    | idle long adc dac =>
      have other : l.ups ≠ 1 := by
        simp only [ended, Bool.true_eq_false, false_or] at long
        omega
      exact seen other (adcCase_zero edges adc) (dacCase_zero edges dac)
    | waits _ none adc dac =>
      have other : l.ups ≠ 1 := by omega
      exact seen other (adcCase_one edges adc) (dacCase_one edges dac)
    | high _ one _ adc dac =>
      have short : l.turn.short = true := by
        rw [Line.turn, first, ended]
        simp [one]
      have frame : [] ++ [⟨word i, []⟩] = [Frame.mk (posedge true s i).dacTdataReg []] := by
        rw [opened]
        rfl
      exact .lost rfl short (turn_left ended) rfl rfl frame blank' (adcCase_two edges adc)
        (dacCase_two edges dac)
    | low _ _ low =>
      rw [high] at low
      cases low

theorem stage_turn (stage : Stage l fs s) (high : l.bclk = true) (held : 4 ≤ l.held)
    (long : l.first = true ∨ 16 ≤ l.ups) (edges : Edges s false true true (!l.lrclk))
    (ready : i.mAxisTready = true) :
    Stage l.turn (nextFrames fs s i) (posedge true s i) := by
  have taken : (posedge true s i).adcTvalidReg = false := adcTvalid_down edges ready
  have tdata : (posedge true s i).adcTdataReg = s.adcTdataReg := adcTdata_down edges
  have enough (first : l.first = false) : 16 ≤ l.ups :=
    long.resolve_left fun still => by simp [first] at still
  cases stage with
  | first first _ none blank zero opening =>
    rw [none]
    exact first_turn first high blank zero opening edges ready
  | lost _ _ _ _ low =>
    rw [high] at low
    cases low
  | owes w c first _ _ before =>
    have few := before.few
    have many := enough first
    omega
  | shows _ _ _ _ new => omega
  | paid c first left some paid after dac none =>
    have before := after.turn high (enough first) edges (i := i)
    rw [left] at edges
    rw [half_right (turn_right left), posedge_dacTdata edges rfl, dac] at before
    rw [nextFrames_same edges rfl none]
    rw [← turn_short first] at paid
    exact .receives c rfl (turn_right left) (fun empty => absurd empty some) paid before taken
  | receives c first _ _ _ before =>
    have few := before.few
    have many := enough first
    omega
  | sends c first right whole paid after dac none =>
    have before := after.turn high (enough first) edges (i := i)
    rw [right] at edges
    have opened := posedge_word edges (i := i)
    rw [half_left (turn_left right), opened] at before
    rw [nextFrames_opens edges none]
    rw [← turn_short first] at paid whole
    have owes := paid.owes (word i)
    rw [sent_whole whole] at owes
    exact .owes c (word i) rfl (turn_left right) owes before (tdata ▸ dac) (by rw [opened]) taken

theorem stage_step {l' : Line} (stage : Stage l fs s) (follows : Follows l s)
    (comes : Comes l s l') (ready : i.mAxisTready = true) :
    Stage l' (nextFrames fs s i) (posedge true s i) := by
  cases comes with
  | hold next edges =>
    rw [next]
    exact stage_hold stage edges ready
  | rise low held next edges =>
    rw [next]
    exact stage_rise stage low held edges follows
  | fall high held next edges =>
    rw [next]
    exact stage_fall stage high held edges ready
  | turn high held long next edges =>
    rw [next]
    exact stage_turn stage high held long edges ready

/-- The data come as far as the second register before the next rising edge. -/
theorem Follows.step (follows : Follows l s) (next : s.tap 1 = v) (comes : Comes l s (l.next v))
    (loop : i.i2sAdcData = s.i2sDacData) : Follows (l.next v) (posedge true s i) := by
  have wires : (posedge true s i).tap 2 = v := (tap_posedge_succ (by decide)).trans next
  have data0 : (posedge true s i).intDataReg.getLsbD 0 = s.i2sDacData := by
    rw [← loop]
    exact getLsbD_shiftIn_zero _ _
  have data1 : (posedge true s i).intDataReg.getLsbD 1 = s.intDataReg.getLsbD 0 :=
    getLsbD_shiftIn_succ _ _ (by decide)
  refine ⟨wires, ?_, ?_⟩
  · rw [data0]
    generalize l.next v = l' at comes
    cases comes with
    | hold _ edges => exact fun _ => congrArg (BitVec.getLsbD · 15) (dacData_up edges).symm
    | rise _ _ _ edges => exact fun _ => congrArg (BitVec.getLsbD · 15) (dacData_up edges).symm
    | fall _ _ next =>
      subst next
      simp [Line.fall]
    | turn _ _ _ next =>
      subst next
      simp [Line.turn]
  · rw [data1]
    generalize l.next v = l' at comes
    cases comes with
    | hold next edges =>
      subst next
      intro late
      have same : (posedge true s i).i2sDacData = s.i2sDacData :=
        congrArg (BitVec.getLsbD · 15) (dacData_up edges)
      rw [same]
      exact follows.data0 (late.imp_right Nat.le_of_succ_le_succ)
    | rise _ held _ edges =>
      intro _
      have same : (posedge true s i).i2sDacData = s.i2sDacData :=
        congrArg (BitVec.getLsbD · 15) (dacData_up edges)
      rw [same]
      exact follows.data0 (.inr (by omega))
    | fall _ _ next =>
      subst next
      simp [Line.fall]
    | turn _ _ _ next =>
      subst next
      simp [Line.turn]

/-- Before the first levels of the wires have come through the synchronisers. -/
structure Idle (s : AxisI2s) : Prop where
  wires : s.tap 2 = ⟨false, false⟩
  data0 : s.intDataReg.getLsbD 0 = false
  data1 : s.intDataReg.getLsbD 1 = false
  blank : Blank s
  dacTdata : s.dacTdataReg = 0
  adcCase : s.adcCaseReg = 0
  dacCase : s.dacCaseReg = 0

theorem Idle.edges (idle : Idle s) (next : s.tap 1 = v) :
    Edges s v.bclk false v.lrclk v.lrclk := by
  have follows : Follows (Line.start ⟨false, false⟩) s := by
    have silent : s.i2sDacData = false := by
      rw [i2sDacData, idle.blank.dacData]
      rfl
    exact ⟨idle.wires, fun _ => idle.data0.trans silent.symm,
      fun _ => idle.data1.trans silent.symm⟩
  simpa [Line.start] using follows.edges next

theorem Idle.blank_step (idle : Idle s) (next : s.tap 1 = v) : Blank (posedge true s i) := by
  have silent : s.intDataReg.getLsbD 1 = s.i2sDacData := by
    rw [idle.data1, i2sDacData, idle.blank.dacData]
    rfl
  exact idle.blank.step (idle.edges next) (fun _ => silent) (fun _ => idle.dacTdata)
    (adcTvalid_same (by simp [idle.adcCase]) idle.blank.adcTvalid)

theorem Idle.dacTdata_step (idle : Idle s) (next : s.tap 1 = v) :
    (posedge true s i).dacTdataReg = 0 :=
  (posedge_dacTdata (idle.edges next) (Bool.and_not_self _)).trans idle.dacTdata

theorem Idle.silent (idle : Idle s) : s.i2sDacData = false := by
  rw [i2sDacData, idle.blank.dacData]
  rfl

theorem Idle.data_step (idle : Idle s) (loop : i.i2sAdcData = s.i2sDacData) :
    (posedge true s i).intDataReg.getLsbD 0 = false ∧
      (posedge true s i).intDataReg.getLsbD 1 = false :=
  ⟨(getLsbD_shiftIn_zero _ _).trans (loop.trans idle.silent),
    (getLsbD_shiftIn_succ _ _ (by decide)).trans idle.data0⟩

theorem Idle.frames (idle : Idle s) (next : s.tap 1 = v) : nextFrames [] s i = [] :=
  nextFrames_same (idle.edges next) (Bool.and_not_self _) idle.blank.adcTvalid

theorem Idle.step (idle : Idle s) (next : s.tap 1 = ⟨false, false⟩)
    (loop : i.i2sAdcData = s.i2sDacData) : Idle (posedge true s i) where
  wires := (tap_posedge_succ (by decide)).trans next
  data0 := (idle.data_step loop).1
  data1 := (idle.data_step loop).2
  blank := idle.blank_step next
  dacTdata := idle.dacTdata_step next
  adcCase := adcCase_zero (idle.edges next) idle.adcCase
  dacCase := dacCase_zero (idle.edges next) idle.dacCase

/-- A frame clock that is high at first looks like an edge. -/
theorem Idle.start (idle : Idle s) (next : s.tap 1 = v) (loop : i.i2sAdcData = s.i2sDacData) :
    Follows (Line.start v) (posedge true s i) ∧
      Stage (Line.start v) (nextFrames [] s i) (posedge true s i) := by
  have edges := idle.edges next
  have blank := idle.blank_step next (i := i)
  have silent : (posedge true s i).i2sDacData = false := by
    rw [i2sDacData, blank.dacData]
    rfl
  obtain ⟨data0, data1⟩ := idle.data_step loop
  constructor
  · exact ⟨(tap_posedge_succ (by decide)).trans next, fun _ => data0.trans silent.symm,
      fun _ => data1.trans silent.symm⟩
  · rw [idle.frames next]
    refine .first rfl rfl rfl blank (idle.dacTdata_step next) ?_
    cases level : v.lrclk with
    | false =>
      rw [level] at edges
      exact .idle (.inl level) (adcCase_zero edges idle.adcCase) (dacCase_zero edges idle.dacCase)
    | true =>
      rw [level] at edges
      exact .waits level rfl (adcCase_zero edges idle.adcCase) (dacCase_zero edges idle.dacCase)

end Stages

/-! ### Runs -/

/-- The wires of a run, and those of them that have come through the synchronisers. -/
inductive Behind (s : AxisI2s) : List Wires → List Wires → Prop where
  | none : s.tap 0 = ⟨false, false⟩ → s.tap 1 = ⟨false, false⟩ → Behind s [] []
  | one : s.tap 1 = ⟨false, false⟩ → Behind s [s.tap 0] []
  | more (ws : List Wires) : Behind s (ws ++ [s.tap 1, s.tap 0]) ws

theorem Behind.step {all ws : List Wires} (behind : Behind s all ws) :
    (ws = [] ∧ s.tap 1 = ⟨false, false⟩ ∧
      Behind (posedge true s i) (all ++ [⟨i.i2sBclk, i.i2sLrclk⟩]) []) ∨
    ((∃ rest, all = ws ++ s.tap 1 :: rest) ∧
      Behind (posedge true s i) (all ++ [⟨i.i2sBclk, i.i2sLrclk⟩]) (ws ++ [s.tap 1])) := by
  have tap1 : (posedge true s i).tap 1 = s.tap 0 := tap_posedge_succ (by decide)
  rw [← tap_posedge_zero]
  cases behind with
  | none first second => exact .inl ⟨rfl, second, .one (tap1.trans first)⟩
  | one second =>
    refine .inl ⟨rfl, second, ?_⟩
    rw [← tap1]
    exact .more []
  | more =>
    refine .inr ⟨⟨[s.tap 0], rfl⟩, ?_⟩
    have same : ws ++ [s.tap 1, s.tap 0] ++ [(posedge true s i).tap 0] =
        (ws ++ [s.tap 1]) ++ [(posedge true s i).tap 1, (posedge true s i).tap 0] := by
      simp [tap1]
    rw [same]
    exact .more _

theorem line_snoc (ws : List Wires) (v : Wires) :
    line (ws ++ [v]) = some ((line ws).elim (Line.start v) (Line.next · v)) := by
  cases ws with
  | nil => rfl
  | cons w ws => simp [line]

theorem held_allows {ws rest : List Wires} (held : Held LoopBack past)
    (split : past.map wires = ws ++ v :: rest) : ∀ l ∈ line ws, l.Allows v := by
  induction past using List.reverseRecOn generalizing rest with
  | nil => simp at split
  | append_singleton past c ih =>
    rw [held_snoc] at held
    rw [List.map_append, List.map_singleton] at split
    rcases List.eq_nil_or_concat rest with rfl | ⟨rest, v', rfl⟩
    · obtain ⟨rfl, rfl⟩ := List.append_singleton_inj.mp split
      exact held.2.clocks
    · rw [List.concat_eq_append, ← List.cons_append, ← List.append_assoc] at split
      exact ih held.1 (List.append_singleton_inj.mp split).1

inductive Known (past : List Tick) (s : AxisI2s) : Prop where
  | idle : Behind s (past.map wires) [] → Idle s → frames past = [] → Known past s
  | follows (ws : List Wires) (l : Line) : Behind s (past.map wires) ws → line ws = some l →
      Follows l s → Stage l (frames past) s → Known past s

theorem known_step (known : Known past s) (held : Held LoopBack past)
    (loop : LoopBack past ⟨s, i⟩) : Known (past ++ [⟨s, i⟩]) (posedge true s i) := by
  have ready : i.mAxisTready = true := loop.mAxisTready
  have data : i.i2sAdcData = s.i2sDacData := by
    rw [loop.loop, dacPad, loop.alexFlag]
    rfl
  have all : (past ++ [Clock.mk s i]).map wires = past.map wires ++ [⟨i.i2sBclk, i.i2sLrclk⟩] := by
    rw [List.map_append]
    rfl
  cases known with
  | idle behind idle none =>
    have empty : frames (past ++ [⟨s, i⟩]) = nextFrames [] s i := by
      rw [frames_snoc, none]
      rfl
    rcases behind.step (i := i) with ⟨-, low, later⟩ | ⟨-, later⟩
    · rw [idle.frames low] at empty
      exact .idle (all ▸ later) (idle.step low data) empty
    · obtain ⟨follows, stage⟩ := idle.start rfl data
      exact .follows [s.tap 1] (Line.start (s.tap 1)) (all ▸ later) rfl follows (empty ▸ stage)
  | follows ws l behind here follows stage =>
    rcases behind.step (i := i) with ⟨rfl, -⟩ | ⟨⟨rest, split⟩, later⟩
    · cases here
    · have comes := follows.comes rfl (held_allows held split l (here ▸ rfl))
      refine .follows _ (l.next (s.tap 1)) (all ▸ later) ?_ (follows.step rfl comes data) ?_
      · rw [line_snoc, here]
        rfl
      · rw [frames_snoc]
        exact stage_step stage follows comes ready

theorem run_known (run : circuit.Run past s) (held : Held LoopBack past) : Known past s := by
  induction run with
  | reset start =>
    obtain ⟨s₀, i, rfl⟩ := start
    have quiet : Idle (posedge false s₀ i) := by
      refine ⟨?_, ?_, ?_, ⟨rfl, rfl, rfl, rfl⟩, rfl, rfl, rfl⟩ <;> simp [posedge, tap]
    exact .idle (.none (by simp [posedge, tap]) (by simp [posedge, tap])) quiet rfl
  | tick run i ih =>
    obtain ⟨before, now⟩ := (held_snoc _ _ _).mp held
    exact known_step (ih before) before now

theorem short_later (l : Line) (first : l.first = false) (ws : List Wires) :
    (ws.foldl Line.next l).short = l.short := by
  induction ws generalizing l with
  | nil => rfl
  | cons w ws ih =>
    rw [List.foldl_cons, ih (l.next w) (by simp [Line.next, first])]
    simp [Line.next, first]

/-- What is known of the first half frame stays. -/
theorem short_behind {all ws : List Wires} (behind : Behind s all ws) (here : line ws = some l)
    (first : l.first = false) : (line all).any Line.short = l.short := by
  cases behind with
  | none => cases here
  | one => cases here
  | more =>
    cases ws with
    | nil => cases here
    | cons w ws =>
      have start : ws.foldl Line.next (Line.start w) = l := Option.some.inj here
      show ((ws ++ [s.tap 1, s.tap 0]).foldl Line.next (Line.start w)).short = l.short
      rw [List.foldl_append, start]
      exact short_later l first _

theorem Stage.next {f g : Frame} {k : Nat} (stage : Stage l fs s) (here : fs[k]? = some f)
    (next : fs[k + 1]? = some g) : l.first = false ∧ (g.delivered = [sent l.short k f.taken] ∨
      g.delivered = [] ∧ fs.length = k + 2) := by
  cases stage with
  | first _ _ none =>
    rw [none] at here
    cases here
  | lost _ _ _ _ _ one =>
    rw [one] at next
    cases next
  | owes w c first _ owes => exact ⟨first, owes.next here next⟩
  | shows c first _ _ _ owes => exact ⟨first, owes.next here next⟩
  | paid c first _ _ paid => exact ⟨first, .inl (paid.next here next)⟩
  | receives c first _ _ paid => exact ⟨first, .inl (paid.next here next)⟩
  | sends c first _ _ paid => exact ⟨first, .inl (paid.next here next)⟩

/-- A frame delivers the word that the one before it has taken, and delivers it once; after a short
first half frame, the first word without its left half. -/
theorem run_roundTrip {f g : Frame} {k : Nat} (run : circuit.Run past s)
    (loop : Held LoopBack past) (here : (frames past)[k]? = some f)
    (next : (frames past)[k + 1]? = some g) :
    g.delivered = [sent (short past) k f.taken] ∨
      g.delivered = [] ∧ (frames past).length = k + 2 := by
  cases run_known run loop with
  | idle _ _ none =>
    rw [none] at here
    cases here
  | follows ws l behind line _ stage =>
    obtain ⟨first, words⟩ := stage.next here next
    rw [short, short_behind behind line first]
    exact words

instance (l : Line) (w : Wires) : Decidable (l.Allows w) :=
  decidable_of_iff ((w.bclk ≠ l.bclk → 4 ≤ l.held) ∧
      (w.lrclk ≠ l.lrclk → l.bclk = true ∧ w.bclk = false ∧ (l.first = true ∨ 16 ≤ l.ups)))
    ⟨fun ⟨levels, turns⟩ => ⟨levels, turns⟩, fun ⟨levels, turns⟩ => ⟨levels, turns⟩⟩

/-- `LoopBack` by what the wires have done so far. -/
def LoopsAt (l : Option Line) (c : Tick) : Prop :=
  c.pins.alexFlag = false ∧ c.pins.mAxisTready = true ∧
    c.pins.i2sAdcData = dacPad c.regs c.pins ∧ ∀ l' ∈ l, l'.Allows (wires c)

instance (l : Option Line) (c : Tick) : Decidable (LoopsAt l c) :=
  inferInstanceAs (Decidable (_ ∧ _ ∧ _ ∧ ∀ l' ∈ l, l'.Allows (wires c)))

theorem loopBack_iff (past : List Tick) (c : Tick) :
    LoopBack past c ↔ LoopsAt (line (past.map wires)) c :=
  ⟨fun ⟨flag, ready, loop, clocks⟩ => ⟨flag, ready, loop, clocks⟩,
    fun ⟨flag, ready, loop, clocks⟩ => ⟨flag, ready, loop, clocks⟩⟩

instance (past : List Tick) : Decidable (Held LoopBack past) :=
  decidable_of_iff' _ (held_iff_along
    (f := fun l c => some (l.elim (Line.start (wires c)) (Line.next · (wires c))))
    (fun past => line (past.map wires)) (fun past c => by rw [List.map_append]; exact line_snoc _ _)
    loopBack_iff past)

def reset : AxisI2s := ⟨0, 0, 0, 0, 0, 0, 0, false, 0, 0, 0⟩

theorem reset_reset : circuit.Reset reset := ⟨reset, ⟨0, false, 0, 0, false, false⟩, rfl⟩

/-- The pins with the output looped back and a word offered. -/
def looped (word : BitVec 32) : AxisI2s → List Wires → List I2sPins
  | _, [] => []
  | s, w :: ws =>
    let pads := BitVec.ofBool w.lrclk ++ 0#1 ++ BitVec.ofBool s.i2sDacData ++ BitVec.ofBool w.bclk
    let i : I2sPins := ⟨pads, false, 0, word, true, true⟩
    i :: looped word (posedge true s i) ws

/-- Bit clocks of eight system clocks. -/
def bits (n : Nat) (lrclk : Bool) : List Wires :=
  (List.replicate n (List.replicate 4 ⟨false, lrclk⟩ ++ List.replicate 4 ⟨true, lrclk⟩)).flatten

/-- A frame and the start of the next, after a part of a right half frame. -/
def frameAfter (before : List Wires) : List I2sPins :=
  looped 0x12345678 reset (before ++ bits 16 false ++ bits 16 true ++ bits 3 false)

def aligned : List I2sPins := frameAfter [⟨true, true⟩]

def firstFrame : Frame := ⟨0x12345678, [0]⟩

def secondFrame : Frame := ⟨0x12345678, [0x12345678]⟩

theorem run_roundTrip_aligned :
    secondFrame.delivered = [sent (short (circuit.trace reset aligned)) 0 firstFrame.taken] ∨
      secondFrame.delivered = [] ∧ (frames (circuit.trace reset aligned)).length = 0 + 2 := by
  have all : frames (circuit.trace reset aligned) = [firstFrame, secondFrame] := by
    decide +kernel
  exact run_roundTrip (run_trace reset_reset aligned) (by decide +kernel) (by rw [all]; rfl)
    (by rw [all]; rfl)

/-- Reset ends one bit clock before the first frame: the left half of its word is lost. -/
theorem oneBitClock_loses : ¬ ∀ (past : List Tick) (s : AxisI2s) (f g : Frame) (k : Nat),
    circuit.Run past s → Held LoopBack past → (frames past)[k]? = some f →
      (frames past)[k + 1]? = some g →
        g.delivered = [f.taken] ∨ g.delivered = [] ∧ (frames past).length = k + 2 := by
  intro claim
  have all : frames (circuit.trace reset (frameAfter (bits 1 true))) =
      [firstFrame, ⟨0x12345678, [0x5678]⟩] := by decide +kernel
  have words := claim _ _ firstFrame ⟨0x12345678, [0x5678]⟩ 0
    (run_trace reset_reset (frameAfter (bits 1 true))) (by decide +kernel) (by rw [all]; rfl)
    (by rw [all]; rfl)
  rw [all] at words
  exact absurd words (by decide)

end AxisI2s

end Switcheck
