import Mathlib.Data.List.Basic
import Switcheck.Sync.Circuit

/-!
# `scanner`

Command 12 sends the samples of a scan and keeps the DAC FIFO filled with its coordinates. A step is
one access of the server to the FIFO, its counters or the socket; the FIFO drains between the steps.
-/

namespace Switcheck

open Sync Circuit

inductive ScannerPc where
  | recv
  | samples
  | room
  | writes
  deriving DecidableEq

structure Scanner where
  pc : ScannerPc
  pulses : BitVec 32
  /-- The `size` coordinates stored. -/
  coordinates : List (BitVec 32)
  counter : Nat
  position : Nat
  n : Nat
  j : Nat
  /-- The words in the DAC FIFO. -/
  fill : Nat
  deriving DecidableEq

/-- What a step meets: the command received, if one is; `*rd_cntr`; whether `send` succeeds; and the
words that have left the DAC FIFO since the step before. -/
structure ScannerInput where
  command : Option (BitVec 32)
  rdCntr : BitVec 16
  sent : Bool
  drained : Nat

namespace Scanner

/-- The words the DAC FIFO holds when it is full. -/
def depth : Nat := 16384

def size (s : Scanner) : Nat := s.coordinates.length

def code (command : BitVec 32) : Nat := (command >>> 28).toNat

/-- `(data & 0xfffc000) << 2 | (data & 0x3fff)`. -/
def coordinate (data : BitVec 32) : BitVec 32 := (data &&& 0xfffc000) <<< 2 ||| (data &&& 0x3fff)

/-- A command; those with other codes set up the pulse generators. -/
def obey (s : Scanner) (command : BitVec 32) : Scanner :=
  let data := command &&& 0xfffffff
  match code command with
  | 8 => { s with pulses := data }
  | 9 => { s with coordinates := [] }
  | 10 =>
    if s.size ≥ 1048576 then s
    else { s with coordinates := s.coordinates ++ [coordinate data] }
  | 12 => { s with pc := .samples, counter := 0, position := 0, n := 1024, fill := 0 }
  | _ => s

def drain (s : Scanner) (words : Nat) : Scanner := { s with fill := s.fill - words }

/-- `if(n > size - counter) n = size - counter`. -/
def nNext (s : Scanner) : Nat := if s.n > s.size - s.counter then s.size - s.counter else s.n

/-- `*wr_cntr < 16384 - pulses`, in unsigned arithmetic of 32 bits. -/
def hasRoom (s : Scanner) : Bool :=
  decide ((BitVec.ofNat 16 s.fill).setWidth 32 < 16384#32 - s.pulses)

def step (s : Scanner) (i : ScannerInput) : Scanner :=
  match s.pc with
  | .recv => i.command.elim s s.obey
  | .samples =>
    if s.counter < s.size then
      if i.rdCntr.toNat ≥ s.nNext * 2 then
        if i.sent then { s with n := s.nNext, counter := s.counter + s.nNext, pc := .room }
        else { s with n := s.nNext, pc := .recv }
      else { s with n := s.nNext, pc := .room }
    else { s with pc := .recv }
  | .room =>
    if s.hasRoom && decide (s.position < s.size) then { s with j := 0, pc := .writes }
    else { s with pc := .samples }
  | .writes =>
    if s.j < s.pulses.toNat then { s with j := s.j + 1, fill := min (s.fill + 1) depth }
    else { s with position := s.position + 1, pc := .room }

/-- At start-up no coordinates are stored and `pulses` is 2. -/
def circuit : Circuit Scanner ScannerInput where
  Reset s := s.pc = .recv ∧ s.pulses = 2 ∧ s.coordinates = [] ∧ s.fill ≤ depth
  tick s i := (s.drain i.drained).step i

abbrev Tick := Clock Scanner ScannerInput

/-! ### What a scan writes -/

def startsScan (c : Tick) : Bool :=
  c.regs.pc = .recv && c.pins.command.any fun command => code command == 12

/-- The word written in a step. -/
def written (c : Tick) : List (BitVec 32) :=
  if c.regs.pc = .writes ∧ c.regs.j < c.regs.pulses.toNat then
    (c.regs.coordinates[c.regs.position]?).toList
  else []

/-- The words written since the scan was started. -/
def scanned (past : List Tick) : List (BitVec 32) :=
  past.foldl (fun words c => if startsScan c then [] else words ++ written c) []

/-- Every coordinate as often as there are pulses. -/
def wanted (s : Scanner) : List (BitVec 32) :=
  s.coordinates.flatMap (List.replicate s.pulses.toNat)

/-- A word is written only while the FIFO has room for it. -/
def NeverFull (_ : List Tick) (c : Tick) : Prop :=
  written c ≠ [] → (c.regs.drain c.pins.drained).fill < depth

/-- The loop ends with the last samples sent. -/
def completes (s : Scanner) : Bool := s.pc = .samples && !decide (s.counter < s.size)

/-- A scan that ends has written every coordinate `pulses` times, in order. -/
def Complete (before : List Tick) (c : Tick) : Prop :=
  c.regs.completes = true → scanned before = c.regs.wanted

/-- A scan is started with room for the words of a coordinate, or without coordinates. -/
def Fits (_ : List Tick) (c : Tick) : Prop :=
  startsScan c = true → c.regs.pulses.toNat ≤ depth ∨ c.regs.coordinates = []

/-- The words of the coordinates from `position` on. -/
def left (s : Scanner) (position : Nat) : Nat := (s.size - position) * s.pulses.toNat

/-- `*rd_cntr` shows all the samples not yet sent, and they are sent. -/
def takesLast (c : Tick) : Bool :=
  c.regs.pc = .samples && decide (c.regs.counter < c.regs.size) &&
    decide (c.regs.size - c.regs.counter ≤ c.regs.n) &&
    decide ((c.regs.size - c.regs.counter) * 2 ≤ c.pins.rdCntr.toNat) && c.pins.sent

/-- When the last samples are taken the FIFO has drained so far that the rest of the words fits. -/
def LeavesRoom (_ : List Tick) (c : Tick) : Prop :=
  takesLast c = true → c.regs.size ≤ c.regs.position ∨ c.regs.pulses = 0 ∨
    (c.regs.drain c.pins.drained).fill + c.regs.left c.regs.position < depth

/-- `*rd_cntr` shows no samples but those of coordinates already written. -/
def Paced (_ : List Tick) (c : Tick) : Prop :=
  c.regs.pc = .samples → c.pins.rdCntr.toNat ≤ 2 * (c.regs.position - c.regs.counter)

variable {past : List Tick} {s : Scanner} {i : ScannerInput}

/-- The words of the coordinates before the current one. -/
def before (s : Scanner) : List (BitVec 32) :=
  (s.coordinates.take s.position).flatMap (List.replicate s.pulses.toNat)

/-- Waiting for a command, between two coordinates, or writing the words of one. -/
inductive Phase (past : List Tick) (s : Scanner) : Prop where
  | recv : s.pc = .recv → Phase past s
  | loop : s.pc = .samples ∨ s.pc = .room → s.position ≤ s.size → scanned past = s.before →
      Phase past s
  | writes (word : BitVec 32) : s.pc = .writes → s.coordinates[s.position]? = some word →
      s.j ≤ s.pulses.toNat → scanned past = s.before ++ List.replicate s.j word → Phase past s

theorem scanned_snoc (past : List Tick) (c : Tick) :
    scanned (past ++ [c]) = if startsScan c then [] else scanned past ++ written c := by
  simp [scanned]

theorem scanned_onward (other : s.pc ≠ .recv) :
    scanned (past ++ [⟨s, i⟩]) = scanned past ++ written ⟨s, i⟩ := by
  rw [scanned_snoc]
  simp [startsScan, other]

theorem written_other (other : s.pc ≠ .writes) : written ⟨s, i⟩ = [] := by
  simp [written, other]

theorem obey_pc (s : Scanner) (command : BitVec 32) : (s.obey command).pc =
    if code command = 12 then .samples else s.pc := by
  unfold obey
  split <;> simp_all
  split <;> rfl

theorem obey_scan {command : BitVec 32} (scan : code command = 12) : s.obey command =
    { s with pc := .samples, counter := 0, position := 0, n := 1024, fill := 0 } := by
  simp [obey, scan]

theorem phase_recv (recv : s.pc = .recv) :
    Phase (past ++ [⟨s, i⟩]) ((s.drain i.drained).step i) := by
  have waits : (s.drain i.drained).pc = .recv := recv
  cases received : i.command with
  | none =>
    refine .recv ?_
    simp [step, waits, received]
  | some command =>
    have next : (s.drain i.drained).step i = (s.drain i.drained).obey command := by
      simp [step, waits, received]
    rw [next]
    by_cases scan : code command = 12
    · rw [obey_scan scan]
      refine .loop (.inl rfl) (Nat.zero_le _) ?_
      have starts : startsScan ⟨s, i⟩ = true := by simp [startsScan, recv, received, scan]
      rw [scanned_snoc, if_pos starts]
      rfl
    · refine .recv ?_
      rw [obey_pc, if_neg scan, waits]

theorem phase_samples (pc : s.pc = .samples) (inside : s.position ≤ s.size)
    (all : scanned past = s.before) :
    Phase (past ++ [⟨s, i⟩]) ((s.drain i.drained).step i) := by
  have same : scanned (past ++ [⟨s, i⟩]) = s.before := by
    rw [scanned_onward (by simp [pc]), written_other (by simp [pc]), all, List.append_nil]
  have here : (s.drain i.drained).pc = .samples := pc
  rw [step, here]
  dsimp only
  split
  · split
    · split
      · exact .loop (.inr rfl) inside same
      · exact .recv rfl
    · exact .loop (.inr rfl) inside same
  · exact .recv rfl

theorem phase_room (pc : s.pc = .room) (inside : s.position ≤ s.size)
    (all : scanned past = s.before) :
    Phase (past ++ [⟨s, i⟩]) ((s.drain i.drained).step i) := by
  have same : scanned (past ++ [⟨s, i⟩]) = s.before := by
    rw [scanned_onward (by simp [pc]), written_other (by simp [pc]), all, List.append_nil]
  have here : (s.drain i.drained).pc = .room := pc
  rw [step, here]
  dsimp only
  split
  · rename_i room
    have more : s.position < s.coordinates.length := by
      simp only [Bool.and_eq_true, decide_eq_true_eq] at room
      exact room.2
    refine .writes _ rfl (List.getElem?_eq_getElem more) (Nat.zero_le _) ?_
    rw [same]
    exact (List.append_nil _).symm
  · exact .loop (.inl rfl) inside same

theorem take_succ_flatMap {β : Type} (f : BitVec 32 → List β) {xs : List (BitVec 32)} {n : Nat}
    {x : BitVec 32} (found : xs[n]? = some x) :
    (xs.take (n + 1)).flatMap f = (xs.take n).flatMap f ++ f x := by
  rw [List.take_add_one, found]
  exact flatMap_snoc f _ x

theorem phase_writes {word : BitVec 32} (pc : s.pc = .writes)
    (found : s.coordinates[s.position]? = some word) (few : s.j ≤ s.pulses.toNat)
    (all : scanned past = s.before ++ List.replicate s.j word) :
    Phase (past ++ [⟨s, i⟩]) ((s.drain i.drained).step i) := by
  have here : (s.drain i.drained).pc = .writes := pc
  have onward : scanned (past ++ [⟨s, i⟩]) = scanned past ++ written ⟨s, i⟩ :=
    scanned_onward (by simp [pc])
  rw [step, here]
  dsimp only
  by_cases more : s.j < s.pulses.toNat
  · have word' : written ⟨s, i⟩ = [word] := by simp [written, pc, more, found]
    rw [if_pos (show (s.drain i.drained).j < (s.drain i.drained).pulses.toNat from more)]
    refine .writes word rfl found more ?_
    rw [onward, word', all, List.append_assoc, ← List.replicate_succ']
    rfl
  · have word' : written ⟨s, i⟩ = [] := by simp [written, more]
    have full : s.j = s.pulses.toNat := by omega
    have below : s.position < s.size := (List.getElem?_eq_some_iff.mp found).1
    rw [if_neg (show ¬ (s.drain i.drained).j < (s.drain i.drained).pulses.toNat from more)]
    refine .loop (.inr rfl) below ?_
    rw [onward, word', all, List.append_nil, full]
    exact (take_succ_flatMap _ found).symm

theorem run_phase (run : circuit.Run past s) : Phase past s := by
  induction run with
  | reset reset => exact .recv reset.1
  | @tick past s run i phase =>
    cases phase with
    | recv pc => exact phase_recv pc
    | loop pc inside all =>
      rcases pc with pc | pc
      · exact phase_samples pc inside all
      · exact phase_room pc inside all
    | writes word pc found few all => exact phase_writes pc found few all

theorem length_repeated (xs : List (BitVec 32)) (n : Nat) :
    (xs.flatMap (List.replicate n)).length = xs.length * n := by
  induction xs with
  | nil => simp
  | cons x xs ih =>
    rw [List.flatMap_cons, List.length_append, ih, List.length_replicate, List.length_cons,
      Nat.succ_mul, Nat.add_comm]

theorem before_eq_wanted_iff :
    s.before = s.wanted ↔ s.size ≤ s.position ∨ s.pulses = 0 := by
  constructor
  · intro same
    have lengths := congrArg List.length same
    rw [before, wanted, length_repeated, length_repeated, List.length_take] at lengths
    by_cases none : s.pulses = 0
    · exact .inr none
    · refine .inl ?_
      have positive : 0 < s.pulses.toNat := BitVec.toNat_pos_of_ne_zero none
      have count := Nat.eq_of_mul_eq_mul_right positive lengths
      rw [size]
      omega
  · rintro (all | none)
    · rw [before, wanted, List.take_of_length_le all]
    · have empty (xs : List (BitVec 32)) : xs.flatMap (List.replicate 0) = [] :=
        List.flatMap_eq_nil_iff.mpr fun _ _ => rfl
      have zero : s.pulses.toNat = 0 := by simp [none]
      rw [before, wanted, zero, empty, empty]

/-- A scan that ends has written all its words exactly when it has come to the last coordinate. -/
theorem complete_iff (run : circuit.Run past s) :
    Complete past ⟨s, i⟩ ↔ (s.completes = true → s.size ≤ s.position ∨ s.pulses = 0) := by
  refine forall_congr' fun completes => ?_
  have pc : s.pc = .samples := by
    simp only [Scanner.completes, Bool.and_eq_true, decide_eq_true_eq] at completes
    exact completes.1
  cases run_phase run with
  | recv other => simp [pc] at other
  | writes word other => simp [pc] at other
  | loop _ _ all =>
    dsimp only
    rw [all]
    exact before_eq_wanted_iff

/-! ### Room in the FIFO -/

/-- The words still to be written for a coordinate find room. -/
structure Spare (s : Scanner) : Prop where
  fill_le : s.fill ≤ depth
  fits : s.pc ≠ .recv → s.pulses.toNat ≤ depth ∨ s.coordinates = []
  room : s.pc = .writes → s.fill + (s.pulses.toNat - s.j) < depth

theorem hasRoom_iff (fill : s.fill ≤ depth) (fits : s.pulses.toNat ≤ depth) :
    s.hasRoom = true ↔ s.fill + s.pulses.toNat < depth := by
  have le : s.pulses ≤ 16384#32 := fits
  rw [depth] at fill fits ⊢
  rw [hasRoom, decide_eq_true_iff, BitVec.lt_def, BitVec.toNat_sub_of_le le, BitVec.toNat_setWidth,
    BitVec.toNat_ofNat, Nat.mod_eq_of_lt (by omega), Nat.mod_eq_of_lt (by omega)]
  show s.fill < 16384 - _ ↔ _
  omega

theorem Spare.drain (spare : Spare s) (words : Nat) : Spare (s.drain words) := by
  obtain ⟨fill, fits, room⟩ := spare
  refine ⟨Nat.le_trans (Nat.sub_le _ _) fill, fits, fun pc => ?_⟩
  exact Nat.lt_of_le_of_lt (Nat.add_le_add_right (Nat.sub_le _ _) _) (room pc)

theorem spare_obey (spare : Spare s) (pc : s.pc = .recv) {command : BitVec 32}
    (fits : code command = 12 → s.pulses.toNat ≤ depth ∨ s.coordinates = []) :
    Spare (s.obey command) := by
  by_cases scan : code command = 12
  · rw [obey_scan scan]
    exact ⟨Nat.zero_le _, fun _ => fits scan, fun other => by cases other⟩
  · have recv : (s.obey command).pc = .recv := by rw [obey_pc, if_neg scan, pc]
    have fill : (s.obey command).fill = s.fill := by
      unfold obey
      split <;> simp_all
      split <;> rfl
    refine ⟨fill ▸ spare.fill_le, fun other => (other recv).elim, fun other => ?_⟩
    simp [recv] at other

theorem Spare.step (spare : Spare s)
    (fits : s.pc = .recv → ∀ command ∈ i.command, code command = 12 →
      s.pulses.toNat ≤ depth ∨ s.coordinates = []) : Spare (s.step i) := by
  cases pc : s.pc with
  | recv =>
    rw [Scanner.step, pc]
    cases received : i.command with
    | none => exact spare
    | some command => exact spare_obey spare pc (fits pc command received)
  | samples =>
    have kept := spare.fits (by simp [pc])
    rw [Scanner.step, pc]
    dsimp only
    split
    · split
      · split
        · exact ⟨spare.fill_le, fun _ => kept, fun other => by cases other⟩
        · exact ⟨spare.fill_le, fun other => (other rfl).elim, fun other => by cases other⟩
      · exact ⟨spare.fill_le, fun _ => kept, fun other => by cases other⟩
    · exact ⟨spare.fill_le, fun other => (other rfl).elim, fun other => by cases other⟩
  | room =>
    have kept := spare.fits (by simp [pc])
    rw [Scanner.step, pc]
    dsimp only
    split
    · rename_i room
      rw [Bool.and_eq_true, decide_eq_true_iff] at room
      refine ⟨spare.fill_le, fun _ => kept, fun _ => ?_⟩
      rcases kept with few | none
      · exact (hasRoom_iff spare.fill_le few).mp room.1
      · have empty : s.size = 0 := by simp [size, none]
        omega
    · exact ⟨spare.fill_le, fun _ => kept, fun other => by cases other⟩
  | writes =>
    have kept := spare.fits (by simp [pc])
    have room := spare.room pc
    rw [Scanner.step, pc]
    dsimp only
    split
    · refine ⟨Nat.min_le_right _ _, fun _ => kept, fun _ => ?_⟩
      dsimp only
      omega
    · exact ⟨spare.fill_le, fun _ => kept, fun other => by cases other⟩

theorem Spare.tick (spare : Spare s) (fits : Fits past ⟨s, i⟩) : Spare (circuit.tick s i) := by
  refine (spare.drain i.drained).step fun pc command received scan => fits ?_
  have recv : s.pc = .recv := pc
  have found : i.command = some command := received
  simp [startsScan, recv, found, scan]

theorem Spare.neverFull (spare : Spare s) : NeverFull past ⟨s, i⟩ := by
  intro some
  have writing : s.pc = .writes ∧ s.j < s.pulses.toNat := by
    by_contra other
    exact some (if_neg other)
  have room := (spare.drain i.drained).room writing.1
  dsimp only
  omega

theorem run_neverFull (run : circuit.Run past s) (fits : Held Fits past) :
    Spare s ∧ Held NeverFull past := by
  refine run.entails (P := fun _ s => Spare s) ?_ ?_ ?_ fits
  · rintro s ⟨pc, -, -, fill⟩
    exact ⟨fill, fun other => (other pc).elim, fun other => by simp [pc] at other⟩
  · exact fun past s i _ spare _ => spare.neverFull
  · exact fun past s i _ spare fits _ => spare.tick fits

/-! ### The end of a scan -/

/-- From the last samples on the FIFO has room for the words not yet written. -/
structure Ending (s : Scanner) : Prop where
  samples : s.pc = .samples → s.size ≤ s.counter → s.size ≤ s.position ∨ s.pulses = 0
  room : s.pc = .room → s.size ≤ s.counter →
    s.size ≤ s.position ∨ s.pulses = 0 ∨ s.fill + s.left s.position < depth
  writes : s.pc = .writes → s.size ≤ s.counter →
    s.pulses = 0 ∨ s.fill + (s.pulses.toNat - s.j) + s.left (s.position + 1) < depth

theorem left_of_lt {position : Nat} (below : position < s.size) :
    s.left position = s.pulses.toNat + s.left (position + 1) := by
  rw [left, left, show s.size - position = s.size - (position + 1) + 1 by omega, Nat.succ_mul,
    Nat.add_comm]

theorem Ending.drain (ending : Ending s) (words : Nat) : Ending (s.drain words) := by
  have less : s.fill - words ≤ s.fill := Nat.sub_le _ _
  refine ⟨ending.samples, fun pc sent => ?_, fun pc sent => ?_⟩
  · refine (ending.room pc sent).imp_right (Or.imp_right fun room => ?_)
    exact Nat.lt_of_le_of_lt (Nat.add_le_add_right less _) room
  · refine (ending.writes pc sent).imp_right fun room => ?_
    exact Nat.lt_of_le_of_lt (Nat.add_le_add_right (Nat.add_le_add_right less _) _) room

theorem nNext_of_all (more : s.counter < s.size) (all : s.size ≤ s.counter + s.nNext) :
    s.nNext = s.size - s.counter ∧ s.size - s.counter ≤ s.n := by
  unfold nNext at all ⊢
  split <;> rename_i few
  · exact ⟨rfl, Nat.le_of_lt few⟩
  · rw [if_neg few] at all
    omega

theorem ending_of_recv (recv : s.pc = .recv) : Ending s := by
  constructor <;> intro other <;> simp [recv] at other

/-- With room for all the words left the test of the code finds room for those of one coordinate. -/
theorem hasRoom_of_left (spare : Spare s) (below : s.position < s.size)
    (room : s.fill + s.left s.position < depth) : s.hasRoom = true := by
  rw [left_of_lt below] at room
  exact (hasRoom_iff spare.fill_le (by omega)).mpr (by omega)

theorem ending_recv (pc : s.pc = .recv) : Ending (s.step i) := by
  rw [step, pc]
  dsimp only
  cases i.command with
  | none => exact ending_of_recv pc
  | some command =>
    show Ending (s.obey command)
    by_cases scan : code command = 12
    · rw [obey_scan scan]
      exact ⟨fun _ all => .inl all, fun other => (by cases other), fun other => (by cases other)⟩
    · exact ending_of_recv (by rw [obey_pc, if_neg scan, pc])

theorem ending_samples (pc : s.pc = .samples) (leaves : takesLast ⟨s, i⟩ = true →
    s.size ≤ s.position ∨ s.pulses = 0 ∨ s.fill + s.left s.position < depth) :
    Ending (s.step i) := by
  rw [step, pc]
  dsimp only
  split
  · rename_i more
    split
    · rename_i shown
      split
      · rename_i sent
        refine ⟨fun other => (by cases other), fun _ all => leaves ?_, fun other => (by cases other)⟩
        -- All samples are sent now: the last poll asked for as many as were missing.
        obtain ⟨asked, few⟩ := nNext_of_all more all
        rw [asked] at shown
        simp [takesLast, pc, more, few, sent, shown]
      · exact ending_of_recv rfl
    · refine ⟨fun other => (by cases other), fun _ all => ?_, fun other => (by cases other)⟩
      exact absurd all (Nat.not_le_of_lt more)
  · exact ending_of_recv rfl

theorem ending_room (pc : s.pc = .room) (ending : Ending s) (spare : Spare s) :
    Ending (s.step i) := by
  rw [step, pc]
  dsimp only
  split
  · rename_i goes
    have below : s.position < s.size := by
      simp only [Bool.and_eq_true, decide_eq_true_eq] at goes
      exact goes.2
    refine ⟨fun other => (by cases other), fun other => (by cases other), fun _ sent => ?_⟩
    rcases ending.room pc sent with all | none | room
    · exact absurd all (Nat.not_le_of_lt below)
    · exact .inl none
    · rw [left_of_lt below, ← Nat.add_assoc] at room
      exact .inr room
  · rename_i stays
    refine ⟨fun _ sent => ?_, fun other => (by cases other), fun other => (by cases other)⟩
    rcases ending.room pc sent with all | none | room
    · exact .inl all
    · exact .inr none
    · by_contra some
      obtain ⟨more, -⟩ := not_or.mp some
      have below : s.position < s.size := Nat.lt_of_not_le more
      simp [hasRoom_of_left spare below room, below] at stays

theorem ending_writes (pc : s.pc = .writes) (ending : Ending s) (spare : Spare s) :
    Ending (s.step i) := by
  have room := spare.room pc
  rw [step, pc]
  dsimp only
  split
  · rename_i more
    refine ⟨fun other => (by cases other), fun other => (by cases other), fun _ sent => ?_⟩
    refine (ending.writes pc sent).imp_right fun room => ?_
    show min (s.fill + 1) depth + (s.pulses.toNat - (s.j + 1)) + s.left (s.position + 1) < depth
    omega
  · rename_i last
    refine ⟨fun other => (by cases other), fun _ sent => ?_, fun other => (by cases other)⟩
    refine (ending.writes pc sent).elim (.inr ∘ .inl) fun room => .inr (.inr ?_)
    show s.fill + s.left (s.position + 1) < depth
    omega

theorem run_complete (run : circuit.Run past s) (fits : Held Fits past)
    (leaves : Held LeavesRoom past) : Held Complete past := by
  refine (run.entails (P := fun _ s => Spare s ∧ Ending s) ?_ ?_ ?_
    (held_and.mpr ⟨fits, leaves⟩)).2
  · rintro s ⟨pc, -, -, fill⟩
    refine ⟨⟨fill, fun other => (other pc).elim, fun other => by simp [pc] at other⟩, ?_⟩
    exact ending_of_recv pc
  · intro past s i run ⟨_, ending⟩ _
    refine (complete_iff run).mpr fun completes => ?_
    simp only [Scanner.completes, Bool.and_eq_true, Bool.not_eq_true', decide_eq_true_eq,
      decide_eq_false_iff_not, Nat.not_lt] at completes
    exact ending.samples completes.1 completes.2
  · intro past s i _ ⟨spare, ending⟩ ⟨fits, leaves⟩ _
    have spare' := spare.drain i.drained
    have ending' := ending.drain i.drained
    refine ⟨spare.tick fits, ?_⟩
    cases pc : s.pc with
    | recv => exact ending_recv pc
    | samples => exact ending_samples pc leaves
    | room => exact ending_room pc ending' spare'
    | writes => exact ending_writes pc ending' spare'

/-! ### A scan that does not fit -/

/-- Nothing is received, no samples have come, and no word leaves the FIFO. -/
def still : ScannerInput := ⟨none, 0, false, 0⟩

theorem after_writes (pc : s.pc = .writes) (fill : s.fill ≤ depth) {k : Nat}
    (few : s.j + k ≤ s.pulses.toNat) : circuit.after s (List.replicate k still) =
      { s with j := s.j + k, fill := min (s.fill + k) depth } := by
  induction k with
  | zero =>
    rw [Nat.add_zero, Nat.add_zero, Nat.min_eq_left fill]
    rfl
  | succ k ih =>
    rw [List.replicate_succ', after_snoc, ih (by omega)]
    have more : s.j + k < s.pulses.toNat := by omega
    simp only [circuit, drain, step, pc, still, Nat.sub_zero, if_pos more, Nat.add_assoc]
    congr 1
    omega

theorem hasRoom_of_large (large : depth < s.pulses.toNat) (empty : s.fill = 0) :
    s.hasRoom = true := by
  have bound := s.pulses.isLt
  rw [depth] at large
  rw [hasRoom, decide_eq_true_iff, empty, BitVec.lt_def, BitVec.toNat_sub]
  show 0 < _
  simp only [BitVec.toNat_ofNat]
  omega

theorem tick_still (s : Scanner) : circuit.tick s still = s.step still := rfl

theorem step_waits (pc : s.pc = .samples) (more : s.counter < s.size)
    (few : i.rdCntr.toNat < s.nNext * 2) :
    s.step i = { s with n := s.nNext, pc := .room } := by
  rw [step, pc]
  dsimp only
  rw [if_pos more, if_neg (Nat.not_le_of_lt few)]

theorem step_room (pc : s.pc = .room) (room : s.hasRoom = true) (more : s.position < s.size) :
    s.step i = { s with j := 0, pc := .writes } := by
  rw [step, pc]
  dsimp only
  rw [if_pos]
  rw [room, Bool.true_and, decide_eq_true_iff]
  exact more

/-- A scan with a coordinate comes to the first write if there is room by the test of the code. -/
theorem after_start (recv : s.pc = .recv) {command : BitVec 32}
    (received : i.command = some command) (scan : code command = 12)
    (stored : s.coordinates ≠ []) (large : depth < s.pulses.toNat) :
    ∃ n, circuit.after s [i, still, still] =
      { s with pc := .writes, counter := 0, position := 0, n := n, j := 0, fill := 0 } := by
  have more : 0 < s.coordinates.length := List.length_pos_iff.mpr stored
  have first : circuit.tick s i =
      { s with pc := .samples, counter := 0, position := 0, n := 1024, fill := 0 } := by
    simp [circuit, step, drain, recv, received, obey_scan scan]
  refine ⟨nNext { s with pc := .samples, counter := 0, position := 0, n := 1024, fill := 0 }, ?_⟩
  have asks :
      0 < nNext { s with pc := .samples, counter := 0, position := 0, n := 1024, fill := 0 } := by
    unfold nNext
    split
    · exact more
    · exact Nat.zero_lt_succ 1023
  have second := step_waits (i := still) rfl more (Nat.mul_pos asks Nat.two_pos)
  rw [← tick_still] at second
  generalize nNext _ = n at second ⊢
  have room :
      hasRoom { s with pc := .room, counter := 0, position := 0, n := n, fill := 0 } = true :=
    hasRoom_of_large large rfl
  have third := step_room (i := still) rfl room more
  show circuit.tick (circuit.tick (circuit.tick s i) still) still = _
  rw [first, second, tick_still, third]

/-- After the command: on to the writes, then a write more than the FIFO has words. -/
def stalled : List ScannerInput := [still, still] ++ List.replicate depth still ++ [still]

/-- Too many pulses and a coordinate: the server goes on writing when the FIFO is full, if no word
leaves it. -/
theorem overfills (past : List Tick) (unfit : ¬ Fits past ⟨s, i⟩) :
    ¬ Held NeverFull (past ++ circuit.trace s (i :: stalled)) := by
  obtain ⟨starts, large⟩ := Classical.not_imp.mp unfit
  obtain ⟨large, stored⟩ := not_or.mp large
  have large' : depth < s.pulses.toNat := Nat.lt_of_not_le large
  have more : 0 < s.coordinates.length := List.length_pos_iff.mpr stored
  obtain ⟨recv, command, received, scan⟩ : s.pc = .recv ∧ ∃ command, i.command = some command ∧
      code command = 12 := by
    simpa [startsScan, Option.any_eq_true] using starts
  obtain ⟨n, begun⟩ := after_start recv received scan stored large'
  have full : circuit.after s ([i, still, still] ++ List.replicate depth still) =
      { s with pc := .writes, counter := 0, position := 0, n := n, j := depth, fill := depth } := by
    rw [after_append, begun, after_writes rfl (Nat.zero_le _) (by simpa using Nat.le_of_lt large')]
    simp
  intro never
  have whole : i :: stalled = [i, still, still] ++ List.replicate depth still ++ [still] := rfl
  rw [whole, trace_snoc, full, ← List.append_assoc, held_snoc] at never
  refine absurd (never.2 ?_) (Nat.lt_irrefl depth)
  simp [written, large', more]

/-! ### A scan that ends before its coordinates -/

theorem step_full (pc : s.pc = .room) (full : s.hasRoom = false) :
    s.step i = { s with pc := .samples } := by
  rw [step, pc]
  dsimp only
  rw [if_neg (by simp [full])]

theorem step_written (pc : s.pc = .writes) (last : s.j = s.pulses.toNat) :
    s.step i = { s with position := s.position + 1, pc := .room } := by
  rw [step, pc]
  dsimp only
  rw [if_neg (Nat.not_lt_of_le (Nat.le_of_eq last.symm))]

theorem step_takesLast (pc : s.pc = .samples) (more : s.counter < s.size)
    (few : s.size - s.counter ≤ s.n) (shown : (s.size - s.counter) * 2 ≤ i.rdCntr.toNat)
    (sent : i.sent = true) :
    s.step i = { s with n := s.size - s.counter, counter := s.size, pc := .room } := by
  have asked : s.nNext = s.size - s.counter := by
    unfold nNext
    split <;> omega
  rw [step, pc]
  dsimp only
  rw [asked, if_pos more, if_pos shown, if_pos sent, Nat.add_sub_cancel' (Nat.le_of_lt more)]

/-- The words of one coordinate are written, and the server tests for room again. -/
theorem after_coordinate (pc : s.pc = .room) (below : s.position < s.size)
    (room : s.hasRoom = true) (fits : s.fill + s.pulses.toNat < depth) :
    circuit.after s (List.replicate (1 + s.pulses.toNat + 1) still) =
      { s with
        j := s.pulses.toNat, fill := s.fill + s.pulses.toNat, position := s.position + 1 } := by
  have first : circuit.after s (List.replicate 1 still) = { s with j := 0, pc := .writes } :=
    step_room pc room below
  rw [← List.replicate_append_replicate, ← List.replicate_append_replicate, after_append,
    after_append, first, after_writes (k := s.pulses.toNat) rfl (by dsimp only; omega)
      (Nat.le_of_eq (Nat.zero_add _))]
  dsimp only
  rw [Nat.zero_add, Nat.min_eq_left (Nat.le_of_lt fits)]
  show circuit.tick _ still = _
  rw [tick_still, step_written rfl rfl, pc]

/-- All samples are sent and the words left do not fit: if no word leaves the FIFO, the scan ends
before its coordinates. The induction is on the coordinates left. -/
theorem strands {k : Nat} (gap : s.size = s.position + k) (pc : s.pc = .room)
    (sent : s.size ≤ s.counter) (fill : s.fill ≤ depth) (few : s.pulses.toNat ≤ depth)
    (some : 0 < k) (full : depth ≤ s.fill + s.left s.position) :
    ∃ n position fill j, position < s.size ∧ circuit.after s (List.replicate n still) =
      { s with pc := .samples, position := position, fill := fill, j := j } := by
  induction k generalizing s with
  | zero => exact absurd some (Nat.lt_irrefl 0)
  | succ k ih =>
    have below : s.position < s.size := by omega
    cases room : s.hasRoom with
    | false =>
      refine ⟨1, s.position, s.fill, s.j, below, ?_⟩
      exact step_full pc room
    | true =>
      have fits := (hasRoom_iff fill few).mp room
      have full' := full
      rw [left_of_lt below, ← Nat.add_assoc] at full'
      have more : 0 < k := by
        rcases Nat.eq_zero_or_pos k with none | more
        · rw [left, show s.size - (s.position + 1) = 0 by omega, Nat.zero_mul] at full'
          omega
        · exact more
      obtain ⟨n, position, fill', j, below', next⟩ := ih
        (s := { s with
          j := s.pulses.toNat, fill := s.fill + s.pulses.toNat, position := s.position + 1 })
        (by simp only [size] at gap ⊢; omega) pc sent (Nat.le_of_lt fits) few more full'
      refine ⟨1 + s.pulses.toNat + 1 + n, position, fill', j, below', ?_⟩
      rw [← List.replicate_append_replicate, after_append, after_coordinate pc below room fits, next]

/-- Once the last samples are taken without room for the rest, the server can end the scan. -/
theorem cutsShort (run : circuit.Run past s) (fits : Held Fits past)
    (unfit : ¬ LeavesRoom past ⟨s, i⟩) :
    ∃ n, ¬ Held Complete (past ++ circuit.trace s (i :: List.replicate n still)) := by
  obtain ⟨last, full⟩ := Classical.not_imp.mp unfit
  obtain ⟨more, full⟩ := not_or.mp full
  obtain ⟨some, full⟩ := not_or.mp full
  have spare := (run_neverFull run fits).1.drain i.drained
  simp only [takesLast, Bool.and_eq_true, decide_eq_true_eq] at last
  obtain ⟨⟨⟨⟨pc, unsent⟩, few⟩, shown⟩, sent⟩ := last
  have next : circuit.tick s i = { s.drain i.drained with
      n := s.size - s.counter, counter := s.size, pc := .room } :=
    step_takesLast pc unsent few shown sent
  have below := Nat.lt_of_not_le more
  have gap : s.size = s.position + (s.size - s.position) := by
    rw [Nat.add_sub_cancel' (Nat.le_of_lt below)]
  have few' : s.pulses.toNat ≤ depth :=
    (spare.fits (by simp [drain, pc])).resolve_right fun none => by
      have empty : s.size = 0 := congrArg List.length none
      omega
  obtain ⟨n, position, fill, j, below', ends⟩ := strands (s := circuit.tick s i)
    (k := s.size - s.position) (by rw [next]; exact gap) (by rw [next])
    (by rw [next]; exact Nat.le_refl _) (by rw [next]; exact spare.fill_le) (by rw [next]; exact few')
    (Nat.sub_pos_of_lt below) (by rw [next]; exact Nat.le_of_not_lt full)
  have run' := run.extend (i :: List.replicate n still)
  have ended : circuit.after s (i :: List.replicate n still) =
      circuit.after (circuit.tick s i) (List.replicate n still) := rfl
  rw [ended, ends, next] at run'
  rw [next] at below'
  refine ⟨n + 1, fun complete => ?_⟩
  rw [List.replicate_succ', ← List.cons_append, trace_snoc, ← List.append_assoc, held_snoc, ended,
    ends, next, complete_iff run'] at complete
  rcases complete.2 (by simp [completes, size, drain]) with all | none
  · exact absurd all (Nat.not_le_of_lt below')
  · exact some none

theorem leavesRoom_of_paced {c : Tick} (paced : Paced past c) : LeavesRoom past c := by
  intro last
  simp only [takesLast, Bool.and_eq_true, decide_eq_true_eq] at last
  have shown := paced last.1.1.1.1
  omega

/-- If every scan fits, no word is written to a full FIFO, and one that does not fit can write to a
full one. If besides the last samples are taken only with room for the rest, a scan that ends has
written every word, and where they are taken earlier it can end before. -/
theorem run_scans (run : circuit.Run past s) :
    (Held Fits past → Held NeverFull past) ∧
    (∀ i, ¬ Fits past ⟨s, i⟩ → ¬ Held NeverFull (past ++ circuit.trace s (i :: stalled))) ∧
    (Held Fits past → Held LeavesRoom past → Held Complete past) ∧
    (∀ i, Held Fits past → ¬ LeavesRoom past ⟨s, i⟩ →
      ∃ n, ¬ Held Complete (past ++ circuit.trace s (i :: List.replicate n still))) ∧
    (Held Paced past → Held LeavesRoom past) ∧
    (s.pc ≠ .recv → scanned past <+: s.wanted) := by
  refine ⟨fun fits => (run_neverFull run fits).2, fun i => overfills past, run_complete run,
    fun i => cutsShort run, Held.mono fun _ _ => leavesRoom_of_paced, fun scanning => ?_⟩
  · have whole : s.before ++
        (s.coordinates.drop s.position).flatMap (List.replicate s.pulses.toNat) = s.wanted := by
      rw [before, wanted, ← List.flatMap_append, List.take_append_drop]
    cases run_phase run with
    | recv pc => exact (scanning pc).elim
    | loop _ _ all => exact ⟨_, all ▸ whole⟩
    | writes word _ found few all =>
      obtain ⟨below, last⟩ := List.getElem?_eq_some_iff.mp found
      rw [all, ← whole, List.drop_eq_getElem_cons below, List.flatMap_cons, last]
      refine List.prefix_append_right_inj _ |>.mpr ((List.prefix_append_of_prefix ?_))
      exact ⟨List.replicate (s.pulses.toNat - s.j) word, by
        rw [List.replicate_append_replicate, Nat.add_sub_cancel' few]⟩

instance (past : List Tick) (c : Tick) : Decidable (Fits past c) :=
  inferInstanceAs (Decidable (startsScan c = true → _ ∨ _))

instance (past : List Tick) (c : Tick) : Decidable (LeavesRoom past c) :=
  inferInstanceAs (Decidable (takesLast c = true → _ ∨ _ ∨ _))

def start : Scanner := ⟨.recv, 2, [], 0, 0, 0, 0, 0⟩

theorem start_reset : circuit.Reset start := ⟨rfl, rfl, rfl, Nat.zero_le _⟩

def receives (command : BitVec 32) : ScannerInput := ⟨some command, 0, false, 0⟩

/-- One coordinate, whose samples are there before its words are written. -/
def onePixel : List ScannerInput :=
  [receives 0xa0004001, receives 0xc0000000, ⟨none, 2, true, 0⟩] ++ List.replicate 7 still

/-- Two coordinates whose words fill the FIFO, and the samples of both at the first poll. -/
def halfFifos : List ScannerInput :=
  [receives 0x80002000, receives 0xa0004001, receives 0xa0008002, receives 0xc0000000]

def bothSamples : ScannerInput := ⟨none, 4, true, 0⟩

theorem run_scans_onePixel : Held NeverFull (circuit.trace start onePixel) ∧
    Held Complete (circuit.trace start onePixel) ∧
    scanned (circuit.trace start onePixel) = [0x10001, 0x10001] ∧
    ∃ n, ¬ Held Complete (circuit.trace start halfFifos ++
      circuit.trace (circuit.after start halfFifos) (bothSamples :: List.replicate n still)) := by
  have scans := run_scans (run_trace start_reset onePixel)
  have short := run_scans (run_trace start_reset halfFifos)
  exact ⟨scans.1 (by decide), scans.2.2.1 (by decide) (by decide), by decide,
    short.2.2.2.1 bothSamples (by decide) (by decide)⟩

/-- The test for room passes whatever the FIFO holds: `16384 - pulses` is 2^32 - 1. -/
theorem pulses16385_overfill :
    ¬ ∀ past s, circuit.Run past s → Held NeverFull past ∧ Held Complete past := by
  intro claim
  have setUp := run_trace start_reset [receives 0x80004001, receives 0xa0000000]
  refine overfills (i := receives 0xc0000000) _ (by decide) (claim _ _ (setUp.extend _)).1

end Scanner

end Switcheck
