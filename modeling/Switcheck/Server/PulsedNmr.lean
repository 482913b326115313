import Mathlib.Algebra.Order.Group.Int
import Mathlib.Data.List.Basic
import Switcheck.Sync.Circuit

/-!
# `pulsed-nmr`

Commands 7 to 9 fill the table of pulses, four words a pulse, and command 10 sends the samples of a
sequence while it writes the table to the TX FIFO. A step is one access of the server to the
socket, the FIFOs or their counters.
-/

namespace Switcheck

open Sync Circuit

inductive PulsedNmrPc where
  | recv
  | samples
  | pulses
  deriving DecidableEq

structure PulsedNmr where
  pc : PulsedNmrPc
  rxRst : BitVec 8
  txRst : BitVec 8
  rxFreq : BitVec 32
  txFreq : BitVec 32
  rxRate : BitVec 16
  txLevel : BitVec 16
  /-- The last value sent to the DAC. -/
  dac : BitVec 16
  size : Nat
  /-- The words from `pulses` on, and those below it. -/
  memory : Int → BitVec 32
  data : Nat
  counter : Nat
  position : Nat
  n : Nat

/-- What a step meets: the command received, if one is; `*rx_cntr` and `*tx_cntr`; and whether
`send` succeeds. -/
structure PulsedNmrInput where
  command : Option (BitVec 64)
  rxCntr : BitVec 16
  txCntr : BitVec 16
  sent : Bool

/-- `floor(data / 125.0e6 * (1<<30) + 0.5)`, and whether a DAC has answered. -/
structure PulsedNmrSetUp where
  increment : BitVec 64 → BitVec 32
  i2cDac : Bool

namespace PulsedNmr

/-- The words of the buffer: `malloc(16777216)`. -/
def bufferWords : Nat := 4194304

def code (command : BitVec 64) : Nat := (command >>> 60).toNat

def argument (command : BitVec 64) : BitVec 64 := command &&& 0xfffffffffffffff

/-- A `memcpy` or `memset`: the first word it writes to and the words it writes. -/
structure Copy where
  address : Int
  words : List (BitVec 32)

def store (memory : Int → BitVec 32) (copy : Copy) : Int → BitVec 32 := fun a =>
  if copy.address ≤ a ∧ a < copy.address + copy.words.length then
    copy.words.getD (a - copy.address).toNat 0
  else memory a

/-- The eight bytes of `data` as words. -/
def words (data : BitVec 64) : List (BitVec 32) := [data.setWidth 32, (data >>> 32).setWidth 32]

/-- `pulses + (size - 1) * 4`. -/
def last (size : Nat) : Int := ((size : Int) - 1) * 4

def copies (s : PulsedNmr) (command : BitVec 64) : List Copy :=
  match code command with
  | 8 =>
    if s.size ≥ 1048576 then []
    else [⟨last (s.size + 1), [0, 0, 0, 0]⟩, ⟨last (s.size + 1), words (argument command)⟩]
  | 9 => [⟨last s.size + 2, words (argument command)⟩]
  | _ => []

def obey (setUp : PulsedNmrSetUp) (s : PulsedNmr) (command : BitVec 64) : PulsedNmr :=
  let data := argument command
  match code command with
  | 0 => if data.toNat > 62500000 then s else { s with rxFreq := setUp.increment data }
  | 1 => if data.toNat > 62500000 then s else { s with txFreq := setUp.increment data }
  | 2 =>
    if data.toNat < 50 ∨ data.toNat > 2500 then s else { s with rxRate := data.setWidth 16 }
  | 3 => if data.toNat > 32766 then s else { s with txLevel := data.setWidth 16 }
  | 4 =>
    if data.toNat < 1 ∨ data.toNat > 7 then s
    else { s with txRst := s.txRst ||| (1#8 <<< data.toNat) }
  | 5 =>
    if data.toNat < 1 ∨ data.toNat > 7 then s
    else { s with txRst := s.txRst &&& ~~~(1#8 <<< data.toNat) }
  | 6 => if setUp.i2cDac = false then s else { s with dac := data.setWidth 16 }
  | 7 => { s with size := 0 }
  | 8 =>
    if s.size ≥ 1048576 then s
    else
      { s with
        size := s.size + 1
        memory := (s.copies command).foldl store s.memory }
  | 9 => { s with memory := (s.copies command).foldl store s.memory }
  | 10 =>
    { s with
      pc := .samples
      data := data.toNat
      counter := 0
      position := 0
      n := 2048
      rxRst := ((s.rxRst &&& ~~~2) &&& ~~~1) ||| 1
      txRst := (s.txRst &&& ~~~1) ||| 1 }
  | _ => s

/-- `if(n > data - counter) n = data - counter`. -/
def nNext (s : PulsedNmr) : Nat := if s.n > s.data - s.counter then s.data - s.counter else s.n

/-- After the loop of command 10. -/
def stop (s : PulsedNmr) : PulsedNmr :=
  { s with
    pc := .recv
    rxRst := (s.rxRst &&& ~~~1) &&& ~~~2
    txRst := s.txRst &&& ~~~1 }

/-- A word goes to the TX FIFO. -/
def writes (s : PulsedNmr) (i : PulsedNmrInput) : Bool :=
  decide (i.txCntr.toNat < 16384 ∧ s.position < s.size * 4)

def step (setUp : PulsedNmrSetUp) (s : PulsedNmr) (i : PulsedNmrInput) : PulsedNmr :=
  match s.pc with
  | .recv => i.command.elim s (s.obey setUp)
  | .samples =>
    if s.counter < s.data then
      if i.rxCntr.toNat ≥ s.nNext * 4 then
        if i.sent then { s with n := s.nNext, counter := s.counter + s.nNext, pc := .pulses }
        else stop { s with n := s.nNext }
      else { s with n := s.nNext, pc := .pulses }
    else s.stop
  | .pulses =>
    if s.writes i then { s with position := s.position + 1 }
    else { s with rxRst := s.rxRst ||| 2, pc := .samples }

/-- Before the first command; the buffer holds whatever `malloc` has found. -/
def circuit (setUp : PulsedNmrSetUp) : Circuit PulsedNmr PulsedNmrInput where
  Reset s := s.pc = .recv ∧ s.size = 0
  tick := step setUp

abbrev Tick := Clock PulsedNmr PulsedNmrInput

/-! ### What a run stores and writes -/

def received (c : Tick) : Option (BitVec 64) := if c.regs.pc = .recv then c.pins.command else none

/-- A command writes to the buffer only. -/
def WritesInside (_ : List Tick) (c : Tick) : Prop :=
  ∀ command ∈ received c, ∀ copy ∈ c.regs.copies command,
    0 ≤ copy.address ∧ copy.address + copy.words.length ≤ bufferWords

def storedNext (n : Nat) (command : BitVec 64) : Nat :=
  match code command with
  | 7 => 0
  | 8 => min (n + 1) 1048576
  | _ => n

/-- The pulses that have been added since the last command 7. -/
def stored (past : List Tick) : Nat :=
  past.foldl (fun n c => (received c).elim n (storedNext n)) 0

/-- Command 9 finds a pulse. -/
def AddsFirst (before : List Tick) (c : Tick) : Prop :=
  ∀ command ∈ received c, code command = 9 → 0 < stored before

def startsSequence (c : Tick) : Bool := (received c).any fun command => code command == 10

def written (c : Tick) : List (BitVec 32) :=
  if c.regs.pc = .pulses ∧ c.regs.writes c.pins then [c.regs.memory c.regs.position] else []

/-- The words written to the FIFO since the sequence was started. -/
def sequence (past : List Tick) : List (BitVec 32) :=
  past.foldl (fun words c => if startsSequence c then [] else words ++ written c) []

/-- The words written are the first of the table, and no more than there are pulses for. -/
def WritesStored (before : List Tick) (c : Tick) : Prop :=
  written c ≠ [] → ∃ n ≤ 4 * stored before,
    sequence (before ++ [c]) = (List.range n).map fun k : Nat => c.regs.memory k

variable {setUp : PulsedNmrSetUp} {past : List Tick} {s : PulsedNmr} {i : PulsedNmrInput}
  {command : BitVec 64}

/-- The table holds the pulses added, and a sequence has written its first words. -/
structure Stocked (past : List Tick) (s : PulsedNmr) : Prop where
  size : s.size = stored past
  le : s.size ≤ 1048576
  inside : s.pc ≠ .recv → s.position ≤ 4 * s.size
  sequence : s.pc ≠ .recv → sequence past = (List.range s.position).map fun k : Nat => s.memory k

theorem stored_snoc (past : List Tick) (c : Tick) :
    stored (past ++ [c]) = (received c).elim (stored past) (storedNext (stored past)) := by
  simp [stored]

theorem sequence_snoc (past : List Tick) (c : Tick) :
    sequence (past ++ [c]) = if startsSequence c then [] else sequence past ++ written c := by
  simp [sequence]

theorem received_busy (busy : s.pc ≠ .recv) : received ⟨s, i⟩ = none := if_neg busy

theorem sequence_onward (busy : s.pc ≠ .recv) :
    sequence (past ++ [⟨s, i⟩]) = sequence past ++ written ⟨s, i⟩ := by
  rw [sequence_snoc, startsSequence, received_busy busy]
  rfl

theorem stored_busy (busy : s.pc ≠ .recv) : stored (past ++ [⟨s, i⟩]) = stored past := by
  rw [stored_snoc, received_busy busy]
  rfl

theorem obey_size (le : s.size ≤ 1048576) :
    (s.obey setUp command).size = storedNext s.size command := by
  unfold obey storedNext
  split <;> simp_all
  case h_9 =>
    split
    · omega
    · show s.size + 1 = min (s.size + 1) 1048576
      omega
  all_goals split <;> rfl

theorem storedNext_le {n : Nat} (le : n ≤ 1048576) : storedNext n command ≤ 1048576 := by
  unfold storedNext
  split
  · exact Nat.zero_le _
  · exact Nat.min_le_right _ _
  · exact le

theorem obey_pc (other : code command ≠ 10) : (s.obey setUp command).pc = s.pc := by
  unfold obey
  split <;> simp_all
  all_goals split <;> rfl

theorem obey_sequence (starts : code command = 10) :
    (s.obey setUp command).position = 0 ∧ (s.obey setUp command).size = s.size := by
  simp [obey, starts]

theorem stocked_recv (stocked : Stocked past s) (pc : s.pc = .recv) :
    Stocked (past ++ [⟨s, i⟩]) (s.step setUp i) := by
  obtain ⟨size, le, -, -⟩ := stocked
  rw [step, pc]
  have received' : received ⟨s, i⟩ = i.command := if_pos pc
  cases given : i.command with
  | none =>
    refine ⟨?_, le, fun busy => (busy pc).elim, fun busy => (busy pc).elim⟩
    rw [stored_snoc, received', given]
    exact size
  | some command =>
    have next : stored (past ++ [⟨s, i⟩]) = storedNext s.size command := by
      rw [stored_snoc, received', given, size]
      rfl
    show Stocked _ (s.obey setUp command)
    have same : (s.obey setUp command).size = storedNext s.size command := obey_size le
    refine ⟨same.trans next.symm, same.symm ▸ storedNext_le le, fun busy => ?_, fun busy => ?_⟩
    · by_cases starts : code command = 10
      · rw [(obey_sequence starts).1]
        exact Nat.zero_le _
      · rw [obey_pc starts] at busy
        exact (busy pc).elim
    · by_cases starts : code command = 10
      · have begins : startsSequence ⟨s, i⟩ = true := by
          simp [startsSequence, received', given, starts]
        rw [sequence_snoc, if_pos begins, (obey_sequence starts).1]
        rfl
      · rw [obey_pc starts] at busy
        exact (busy pc).elim

theorem stocked_samples (stocked : Stocked past s) (pc : s.pc = .samples) :
    Stocked (past ++ [⟨s, i⟩]) (s.step setUp i) := by
  have busy : s.pc ≠ .recv := by simp [pc]
  obtain ⟨size, le, inside, all⟩ := stocked
  have size' : s.size = stored (past ++ [⟨s, i⟩]) := by rw [stored_busy busy, size]
  have same : sequence (past ++ [⟨s, i⟩]) = (List.range s.position).map fun k : Nat => s.memory k := by
    rw [sequence_onward busy, written, if_neg (by simp [pc]), List.append_nil, all busy]
  rw [step, pc]
  dsimp only
  split
  · split
    · split
      · exact ⟨size', le, fun _ => inside busy, fun _ => same⟩
      · exact ⟨size', le, fun other => (other rfl).elim, fun other => (other rfl).elim⟩
    · exact ⟨size', le, fun _ => inside busy, fun _ => same⟩
  · exact ⟨size', le, fun other => (other rfl).elim, fun other => (other rfl).elim⟩

theorem sequence_written (stocked : Stocked past s) (pc : s.pc = .pulses)
    (writes : s.writes i = true) :
    sequence (past ++ [⟨s, i⟩]) = (List.range (s.position + 1)).map fun k : Nat => s.memory k := by
  have busy : s.pc ≠ .recv := by simp [pc]
  have word : written ⟨s, i⟩ = [s.memory s.position] := if_pos ⟨pc, writes⟩
  rw [sequence_onward busy, word, stocked.sequence busy, List.range_succ, List.map_append]
  rfl

theorem writes_inside (writes : s.writes i = true) : s.position + 1 ≤ 4 * s.size := by
  simp only [PulsedNmr.writes, decide_eq_true_eq] at writes
  omega

theorem stocked_pulses (stocked : Stocked past s) (pc : s.pc = .pulses) :
    Stocked (past ++ [⟨s, i⟩]) (s.step setUp i) := by
  have busy : s.pc ≠ .recv := by simp [pc]
  have size' : s.size = stored (past ++ [⟨s, i⟩]) := by rw [stored_busy busy, stocked.size]
  rw [step, pc]
  dsimp only
  split
  · rename_i writes
    refine ⟨size', stocked.le, fun _ => writes_inside writes, fun _ => ?_⟩
    exact sequence_written stocked pc writes
  · rename_i full
    refine ⟨size', stocked.le, fun _ => stocked.inside busy, fun _ => ?_⟩
    rw [sequence_onward busy, written, if_neg (fun both => full both.2), List.append_nil]
    exact stocked.sequence busy

theorem run_stocked (run : (circuit setUp).Run past s) : Stocked past s := by
  induction run with
  | reset start =>
    obtain ⟨pc, size⟩ := start
    exact ⟨size, size ▸ Nat.zero_le _, fun busy => (busy pc).elim, fun busy => (busy pc).elim⟩
  | @tick past s run i ih =>
    cases pc : s.pc with
    | recv => exact stocked_recv ih pc
    | samples => exact stocked_samples ih pc
    | pulses => exact stocked_pulses ih pc

/-- The words of command 8 are in the buffer, and those of command 9 unless no pulse is stored. -/
theorem copies_inside_iff (le : s.size ≤ 1048576) :
    (∀ copy ∈ s.copies command,
      0 ≤ copy.address ∧ copy.address + copy.words.length ≤ bufferWords) ↔
      (code command = 9 → 0 < s.size) := by
  unfold copies
  split
  · rename_i add
    refine iff_of_true ?_ (by omega)
    split
    · exact fun copy member => absurd member List.not_mem_nil
    · simp only [List.forall_mem_cons, last, words, bufferWords, List.length_cons, List.length_nil]
      refine ⟨by omega, by omega, fun copy member => absurd member List.not_mem_nil⟩
  · rename_i sets
    simp only [List.forall_mem_singleton, last, words, bufferWords, List.length_cons,
      List.length_nil, sets, true_imp_iff]
    omega
  · rename_i other
    exact iff_of_true (fun copy member => absurd member List.not_mem_nil)
      fun sets => absurd sets other

theorem held_writesInside (run : (circuit setUp).Run past s) :
    Held WritesInside past ↔ Held AddsFirst past := by
  refine run.held_congr (G := fun _ => True) (fun _ _ _ => trivial) ?_ trivial
  intro past s i run _
  have stocked := run_stocked run
  refine forall₂_congr fun command _ => ?_
  rw [copies_inside_iff stocked.le, stocked.size]

theorem held_writesStored (run : (circuit setUp).Run past s) : Held WritesStored past := by
  refine run.derive (E := fun _ _ => True) ?_ (held_of_forall (fun _ _ => trivial) _)
  intro past s i run _ _ some
  have stocked := run_stocked run
  have both : s.pc = .pulses ∧ s.writes i = true := by
    by_contra other
    exact some (if_neg other)
  refine ⟨s.position + 1, ?_, sequence_written stocked both.1 both.2⟩
  rw [← stocked.size]
  exact writes_inside both.2

/-- Commands write to the buffer only exactly when each command 9 finds a pulse stored. The words
written to the FPGA are the first of the table, never more than there are pulses for. -/
theorem run_stores_iff (run : (circuit setUp).Run past s) :
    (Held WritesInside past ↔ Held AddsFirst past) ∧ Held WritesStored past :=
  ⟨held_writesInside run, held_writesStored run⟩

def start : PulsedNmr := ⟨.recv, 0, 0, 0, 0, 0, 0, 0, 0, fun _ => 0, 0, 0, 0, 0⟩

theorem start_reset : (circuit setUp).Reset start := ⟨rfl, rfl⟩

def receives (command : BitVec 64) : PulsedNmrInput := ⟨some command, 0, 0, true⟩

/-- A pulse with its phase and level, and one sample while it is written. -/
def onePulse : List PulsedNmrInput :=
  [receives 0x8000000000000005, receives 0x9000000000000007, receives 0xa000000000000001,
    ⟨none, 0, 0, true⟩, ⟨none, 0, 0, true⟩]

def bare : PulsedNmrSetUp := ⟨fun data => data.setWidth 32, false⟩

instance (before : List Tick) (c : Tick) : Decidable (AddsFirst before c) :=
  decidable_of_iff
    ((received c).all fun command => decide (code command = 9 → 0 < stored before)) (by
      simp only [AddsFirst, Option.all_eq_true, decide_eq_true_eq, Option.mem_def])

theorem run_stores_iff_onePulse : Held WritesInside ((circuit bare).trace start onePulse) :=
  (run_stores_iff (run_trace start_reset onePulse)).1.mpr (by decide)

/-- A command 9 before any command 8 writes to the two words below the buffer. -/
theorem noPulse_writesBelow : ¬ ∀ (setUp : PulsedNmrSetUp) (past : List Tick) (s : PulsedNmr),
    (circuit setUp).Run past s → Held WritesInside past ∧ Held WritesStored past := by
  intro claim
  have run := run_trace (C := circuit bare) start_reset [receives 0x9000000000000000]
  have adds := (held_writesInside run).mp (claim bare _ _ run).1
  exact absurd adds (by decide)

end PulsedNmr

end Switcheck
