import Mathlib.Algebra.GroupWithZero.Nat
import Mathlib.Data.List.Basic
import Mathlib.Logic.Function.Basic
import Switcheck.Sync.Circuit

/-!
# `vna`

The main loop starts a `read_handler` for each sweep and joins none of them. A step is one access of
one thread to what they share, or a result of the measurement that comes to the receive FIFO.
-/

namespace Switcheck

open Sync Circuit

inductive ReadHandlerPc where
  | rate
  | size
  | loop
  | count
  | words (j : Fin 4)
  | send
  | done
  deriving DecidableEq

/-- One result of the measurement: the four words of an entry of the receive FIFO. -/
abbrev VnaResult (F : Type) := Fin 4 → F

structure ReadHandler (F : Type) where
  pc : ReadHandlerPc
  rate : Nat
  size : Nat
  i : Nat
  cntr : Nat
  buffer : VnaResult F

/-- The steps of a sweep in their order, then those of a cancel and of a client that has gone. -/
inductive VnaPc where
  | recv
  | release
  | rateThread
  | sizeThread
  | sockThread
  | create
  | freqs (i : Nat)
  | start
  | cancel
  | disconnect
  | accept
  deriving DecidableEq

structure Vna (F : Type) where
  pc : VnaPc
  /-- Bit 0 lets the measurement run, bit 1 takes the FIFOs out of reset. -/
  rst : BitVec 8
  size : Nat
  rate : Nat
  sockClient : Nat
  sockThread : Int
  rateThread : Nat
  sizeThread : Nat
  /-- Every thread that has been started, the newest last. -/
  readers : List (ReadHandler F)
  /-- The words of the receive FIFO. -/
  fifo : List F

/-- A step of the main loop, with the command that `recv` returns, if any, and the socket that
`accept` does; of a reader, with whether `send` succeeds; or a result. -/
inductive VnaMove (F : Type) where
  | main (command : Option (BitVec 32)) (accepted : Nat)
  | reader (k : Nat) (sent : Bool)
  | result (words : VnaResult F)

namespace Vna

variable {F : Type}

def code (command : BitVec 32) : Nat := (command >>> 28).toNat

/-- The 28 data bits with their sign. -/
def value (command : BitVec 32) : Int := (command.setWidth 28).toInt

/-- `*rst &= ~3`. -/
def halt (s : Vna F) : Vna F := { s with rst := s.rst &&& ~~~3#8, fifo := [] }

/-- A command with its first access. The commands with other codes set up the sweep's frequencies
and the generator. -/
def obey (s : Vna F) (command : BitVec 32) : Vna F :=
  match code command with
  | 2 => if value command < 1 ∨ value command > 32768 then s
    else { s with size := (value command).toNat }
  | 3 => if value command < 10 ∨ value command > 100000 then s
    else { s with rate := (value command).toNat }
  | 10 => { s.halt with pc := .release }
  | 11 => { s.halt with pc := .cancel }
  | _ => s

section Steps

variable [Zero F] [Add F]

/-- `pthread_create`. -/
def spawned : ReadHandler F := ⟨.rate, 0, 0, 0, 0, fun _ => 0⟩

def main (s : Vna F) (command : Option (BitVec 32)) (accepted : Nat) : Vna F :=
  match s.pc with
  | .recv => command.elim { s.halt with pc := .disconnect } s.obey
  | .release => { s with rst := s.rst ||| 2, pc := .rateThread }
  | .rateThread => { s with rateThread := s.rate, pc := .sizeThread }
  | .sizeThread => { s with sizeThread := s.size, pc := .sockThread }
  | .sockThread => { s with sockThread := s.sockClient, pc := .create }
  | .create => { s with readers := s.readers ++ [spawned], pc := .freqs 0 }
  | .freqs i => if i < s.size then { s with pc := .freqs (i + 1) } else { s with pc := .start }
  | .start => { s with rst := s.rst ||| 1, pc := .recv }
  | .cancel => { s with sockThread := -1, pc := .recv }
  | .disconnect => { s with sockThread := -1, pc := .accept }
  | .accept => { s with sockClient := accepted, pc := .recv }

/-- After the last word of a result. -/
def endResult (div : F → Nat → F) (r : ReadHandler F) : ReadHandler F :=
  let buffer := if r.i < 10 then fun _ => 0 else r.buffer
  if r.i + 1 < r.rate + 10 then
    { r with buffer := buffer, i := r.i + 1, cntr := r.cntr + 1, pc := .loop }
  else
    { r with buffer := fun j => div (buffer j) r.rate, i := 0, cntr := r.cntr + 1, pc := .send }

/-- A reader; from an empty FIFO it reads zero. -/
def readHandler (div : F → Nat → F) (s : Vna F) (r : ReadHandler F) (sent : Bool) : ReadHandler F :=
  match r.pc with
  | .rate => { r with rate := s.rateThread, pc := .size }
  | .size => { r with size := s.sizeThread, i := 0, cntr := 0, pc := .loop }
  | .loop =>
    if r.cntr < r.size * (r.rate + 10) % 2 ^ 32 then
      if s.sockThread < 0 then { r with pc := .done } else { r with pc := .count }
    else { r with pc := .done }
  | .count => if s.fifo.length < 4 then { r with pc := .loop } else { r with pc := .words 0 }
  | .words j =>
    let word := s.fifo.headD 0
    let buffer := Function.update r.buffer j (if r.i < 10 then word else r.buffer j + word)
    if j = 3 then endResult div { r with buffer := buffer }
    else { r with buffer := buffer, pc := .words (j + 1) }
  | .send =>
    if s.sockThread < 0 ∨ sent = false then { r with pc := .done } else { r with pc := .loop }
  | .done => r

def isWords : ReadHandlerPc → Bool
  | .words _ => true
  | _ => false

def move (div : F → Nat → F) (s : Vna F) (k : Nat) (sent : Bool) : Vna F :=
  match s.readers[k]? with
  | none => s
  | some r =>
    { s with
      readers := s.readers.set k (readHandler div s r sent)
      fifo := if isWords r.pc then s.fifo.tail else s.fifo }

/-- A result comes while the measurement runs; the FIFO takes it if its 2048 words have room. -/
def takes (s : Vna F) : Bool :=
  s.rst.getLsbD 0 && s.rst.getLsbD 1 && decide (s.fifo.length + 4 ≤ 2048)

def result (s : Vna F) (words : VnaResult F) : Vna F :=
  if s.takes then { s with fifo := s.fifo ++ List.ofFn words } else s

def step (div : F → Nat → F) (s : Vna F) : VnaMove F → Vna F
  | .main command accepted => s.main command accepted
  | .reader k sent => s.move div k sent
  | .result words => s.result words

/-- From the first `accept` on. -/
def circuit (div : F → Nat → F) : Circuit (Vna F) (VnaMove F) where
  Reset s := s.pc = .accept ∧ s.rst.getLsbD 0 = false ∧ s.rst.getLsbD 1 = false ∧ s.size = 5000 ∧
    s.rate = 10 ∧ s.sockThread = -1 ∧ s.rateThread = 10 ∧ s.sizeThread = 5000 ∧ s.readers = [] ∧
    s.fifo = []
  tick := step div

end Steps

abbrev Tick (F : Type) := Clock (Vna F) (VnaMove F)

/-! ### What the client gets -/

def sweeps (c : Tick F) : Bool :=
  c.regs.pc = .recv && match c.pins with
    | .main (some command) _ => code command == 10
    | _ => false

/-- What the steps since the newest sweep command have added. -/
def since {β : Type} (f : Tick F → List β) (past : List (Tick F)) : List β :=
  past.foldl (fun xs c => if sweeps c then [] else xs ++ f c) []

def produced (c : Tick F) : List (VnaResult F) :=
  match c.pins with
  | .result words => if c.regs.rst.getLsbD 0 then [words] else []
  | _ => []

def taken (c : Tick F) : List (VnaResult F) :=
  match c.pins with
  | .result words => if c.regs.takes then [words] else []
  | _ => []

/-- The point sent, if `send` is called with a socket and succeeds. -/
def sent (c : Tick F) : List (VnaResult F) :=
  match c.pins with
  | .reader k true => match c.regs.readers[k]? with
    | some r => if r.pc = .send ∧ 0 ≤ c.regs.sockThread then [r.buffer] else []
    | none => []
  | _ => []

abbrev results (past : List (Tick F)) : List (VnaResult F) := since taken past

abbrev points (past : List (Tick F)) : List (VnaResult F) := since sent past

/-- No reader is left but the newest. -/
def Alone (s : Vna F) : Prop := ∀ r ∈ s.readers.dropLast, r.pc = .done

def resets (c : Tick F) : Bool :=
  c.regs.pc = .recv && match c.pins with
    | .main (some command) _ => code command == 10 || code command == 11
    | .main none _ => true
    | _ => false

/-- A sweep command finds every reader done, and no command resets the FIFO in the middle of a
result. -/
structure Orderly (_ : List (Tick F)) (c : Tick F) : Prop where
  joined : sweeps c = true → ∀ r ∈ c.regs.readers, r.pc = .done
  whole : resets c = true → ∀ r ∈ c.regs.readers, isWords r.pc = false

/-- A result finds room in the FIFO. -/
def Room (_ : List (Tick F)) (c : Tick F) : Prop := taken c = produced c

variable {past : List (Tick F)} {s s' : Vna F} {r : ReadHandler F}

theorem since_snoc {β : Type} (f : Tick F → List β) (past : List (Tick F)) (c : Tick F) :
    since f (past ++ [c]) = if sweeps c then [] else since f past ++ f c := by
  simp [since]

theorem since_same {β : Type} {f : Tick F → List β} {past : List (Tick F)} {c : Tick F}
    (same : sweeps c = false) (none : f c = []) : since f (past ++ [c]) = since f past := by
  simp [since_snoc, same, none]

theorem since_taken (room : Held Room past) : results past = since produced past := by
  induction past using List.reverseRecOn with
  | nil => rfl
  | append_singleton past c ih =>
    rw [held_snoc] at room
    rw [results, since_snoc, since_snoc, ← ih room.1, room.2]

theorem slice_snoc {α : Type} {xs : List α} {m n : Nat} (x : α) (there : m + n ≤ xs.length) :
    ((xs ++ [x]).drop m).take n = (xs.drop m).take n := by
  have rest : n ≤ (xs.drop m).length := by
    rw [List.length_drop]
    omega
  rw [List.drop_append_of_le_length (by omega), List.take_append_of_le_length rest]

/-! ### The newest reader -/

def setsUp : VnaPc → Bool
  | .release | .rateThread | .sizeThread | .sockThread | .create => true
  | _ => false

def starts : VnaPc → Bool
  | .freqs _ | .start => true
  | _ => false

/-- From the m-th result on, everything is still in the FIFO, or the FIFO has been reset and nothing
comes any more. -/
inductive Feed (rs : List (VnaResult F)) (s : Vna F) (m : Nat) : Prop where
  | flows : s.fifo = (rs.drop m).flatMap List.ofFn → Feed rs s m
  | cut : s.fifo = [] → s.rst.getLsbD 0 = false → starts s.pc = false → Feed rs s m

/-- The reader has taken `i` results for its n-th point, of all it has taken. -/
structure Counted (rs : List (VnaResult F)) (s : Vna F) (r : ReadHandler F) (n : Nat) : Prop where
  rate : r.rate = s.rateThread
  cntr : r.cntr = n * (r.rate + 10) + r.i
  i_lt : r.i < r.rate + 10
  there : r.cntr ≤ rs.length

/-- The results that count towards the n-th point, of the first `i` for it. -/
def slice (rs : List (VnaResult F)) (rate n i : Nat) : List (VnaResult F) :=
  (rs.drop (n * (rate + 10) + 10)).take (i - 10)

theorem slice_later {rs : List (VnaResult F)} (x : VnaResult F) {rate n i : Nat}
    (there : n * (rate + 10) + i ≤ rs.length) : slice (rs ++ [x]) rate n i = slice rs rate n i := by
  unfold slice
  by_cases counts : 10 ≤ i
  · exact slice_snoc x (by omega)
  · rw [Nat.sub_eq_zero_of_le (by omega), List.take_zero, List.take_zero]

theorem Counted.behind {rs : List (VnaResult F)} {n : Nat} (counted : Counted rs s r n) :
    n * (s.rateThread + 10) + r.i ≤ rs.length := by
  rw [← counted.rate, ← counted.cntr]
  exact counted.there

theorem slice_succ {rs : List (VnaResult F)} {result : VnaResult F} {n : Nat}
    (cntr : r.cntr = n * (r.rate + 10) + r.i) (here : rs[r.cntr]? = some result)
    (counts : 10 ≤ r.i) : slice rs r.rate n (r.i + 1) = slice rs r.rate n r.i ++ [result] := by
  have place : n * (r.rate + 10) + 10 + (r.i - 10) = r.cntr := by omega
  rw [slice, slice, Nat.sub_add_comm counts, List.take_add_one, List.getElem?_drop, place, here]
  rfl

theorem Feed.mono {rs : List (VnaResult F)} {m : Nat} (feed : Feed rs s m)
    (fifo : s'.fifo = s.fifo) (rst : s'.rst = s.rst) (pc : s'.pc = s.pc) : Feed rs s' m := by
  cases feed with
  | flows flows => exact .flows (fifo.trans flows)
  | cut empty low late => exact .cut (fifo.trans empty) (rst ▸ low) (pc ▸ late)

theorem halt_low (s : Vna F) : s.halt.rst.getLsbD 0 = false := by
  simp [halt]

/-- A command starts the sweep, cancels it or changes what no reader looks at. -/
theorem obey_cases (s : Vna F) (command : BitVec 32) :
    (code command = 10 ∧ s.obey command = { s.halt with pc := .release }) ∨
    (code command = 11 ∧ s.obey command = { s.halt with pc := .cancel }) ∨
    (code command ≠ 10 ∧ ∃ size rate, s.obey command = { s with size := size, rate := rate }) := by
  unfold obey
  split
  · refine .inr (.inr ⟨by omega, ?_⟩)
    split
    · exact ⟨_, _, rfl⟩
    · exact ⟨_, _, rfl⟩
  · refine .inr (.inr ⟨by omega, ?_⟩)
    split
    · exact ⟨_, _, rfl⟩
    · exact ⟨_, _, rfl⟩
  · exact .inl ⟨by assumption, rfl⟩
  · exact .inr (.inl ⟨by assumption, rfl⟩)
  · exact .inr (.inr ⟨by assumption, _, _, rfl⟩)

theorem sweeps_other {command : Option (BitVec 32)} {accepted : Nat} (other : s.pc ≠ .recv) :
    sweeps ⟨s, .main command accepted⟩ = false := by
  simp [sweeps, other]

/-! ### The points -/

variable [Zero F] [Add F] {div : F → Nat → F}

def total (rs : List (VnaResult F)) : VnaResult F := fun j => rs.foldl (fun sum r => sum + r j) 0

/-- The mean of `rate` results after ten that are left out. -/
def point (div : F → Nat → F) (rate : Nat) (rs : List (VnaResult F)) (n : Nat) : VnaResult F :=
  fun j => div (total ((rs.drop (n * (rate + 10) + 10)).take rate) j) rate

/-- The points sent since the newest sweep command are those of its results, one after another. -/
def Consecutive (div : F → Nat → F) (past : List (Tick F)) (s : Vna F) : Prop :=
  ∃ n, n * (s.rateThread + 10) ≤ (results past).length ∧
    points past = (List.range n).map (point div s.rateThread (results past))

theorem total_snoc (rs : List (VnaResult F)) (r : VnaResult F) (j : Fin 4) :
    total (rs ++ [r]) j = total rs j + r j := by
  simp [total]

/-- A point is made of results that are there, so a later one does not change it. -/
theorem points_snoc {rate n : Nat} {rs : List (VnaResult F)} (r : VnaResult F)
    (there : n * (rate + 10) ≤ rs.length) :
    (List.range n).map (point div rate (rs ++ [r])) = (List.range n).map (point div rate rs) := by
  refine List.map_congr_left fun k small => ?_
  have within := Nat.mul_le_mul_right (rate + 10) (List.mem_range.mp small)
  rw [Nat.succ_mul] at within
  unfold point
  rw [slice_snoc r (by omega)]

def Shown (div : F → Nat → F) (past : List (Tick F)) (s : Vna F) (n : Nat) : Prop :=
  points past = (List.range n).map (point div s.rateThread (results past))

/-- Where the newest reader stands. -/
inductive Place (div : F → Nat → F) (past : List (Tick F)) (s : Vna F) (r : ReadHandler F) :
    Prop where
  | rate : r.pc = .rate → Shown div past s 0 → Feed (results past) s 0 → Place div past s r
  | size : r.pc = .size → r.rate = s.rateThread → Shown div past s 0 → Feed (results past) s 0 →
      Place div past s r
  | loop (n : Nat) : r.pc = .loop ∨ r.pc = .count → Counted (results past) s r n →
      Shown div past s n → (10 ≤ r.i → r.buffer = total (slice (results past) r.rate n r.i)) →
      Feed (results past) s r.cntr → Place div past s r
  | words (n : Nat) (j : Fin 4) (result : VnaResult F) : r.pc = .words j →
      Counted (results past) s r n → Shown div past s n →
      (results past)[r.cntr]? = some result →
      (10 ≤ r.i → ∀ k, r.buffer k =
        total (slice (results past) r.rate n (if k < j then r.i + 1 else r.i)) k) →
      s.fifo = (List.ofFn result).drop j ++ ((results past).drop (r.cntr + 1)).flatMap List.ofFn →
      Place div past s r
  | send (n : Nat) : r.pc = .send → Counted (results past) s r (n + 1) → r.i = 0 →
      Shown div past s n → r.buffer = point div r.rate (results past) n →
      Feed (results past) s r.cntr → Place div past s r
  | done (n : Nat) : r.pc = .done → n * (s.rateThread + 10) ≤ (results past).length →
      Shown div past s n → Place div past s r

/-- No reader at work and nothing to read, or the newest at work after the set-up of its sweep. -/
inductive Stage (div : F → Nat → F) (past : List (Tick F)) (s : Vna F) : Prop where
  | none : (∀ r ∈ s.readers, r.pc = .done) → s.fifo = [] → s.rst.getLsbD 0 = false →
      starts s.pc = false → results past = [] → points past = [] → Stage div past s
  | one (earlier : List (ReadHandler F)) (r : ReadHandler F) : s.readers = earlier ++ [r] →
      (∀ r ∈ earlier, r.pc = .done) → setsUp s.pc = false → Place div past s r → Stage div past s

/-- A step of another thread. -/
theorem Place.keep {c : Tick F} (place : Place div past s r) (same : sweeps c = false)
    (none : taken c = []) (quiet : sent c = []) (rate : s'.rateThread = s.rateThread)
    (fifo : isWords r.pc = true → s'.fifo = s.fifo)
    (feed : ∀ m, Feed (results past) s m → Feed (results past) s' m) :
    Place div (past ++ [c]) s' r := by
  have rs : results (past ++ [c]) = results past := since_same same none
  have ps : points (past ++ [c]) = points past := since_same same quiet
  have shown {n : Nat} (shown : Shown div past s n) : Shown div (past ++ [c]) s' n := by
    rw [Shown, ps, rs, rate]
    exact shown
  have counted {n : Nat} (counted : Counted (results past) s r n) :
      Counted (results (past ++ [c])) s' r n := by
    rw [rs]
    exact ⟨counted.rate.trans rate.symm, counted.cntr, counted.i_lt, counted.there⟩
  have fed {m : Nat} (fed : Feed (results past) s m) : Feed (results (past ++ [c])) s' m := by
    rw [rs]
    exact feed m fed
  cases place with
  | rate pc none feed => exact .rate pc (shown none) (fed feed)
  | size pc has none feed => exact .size pc (has.trans rate.symm) (shown none) (fed feed)
  | loop n pc count sends sum feed =>
    exact .loop n pc (counted count) (shown sends) (rs ▸ sum) (fed feed)
  | words n j result pc count sends here sum feed =>
    have still := fifo (by rw [pc]; rfl)
    exact .words n j result pc (counted count) (shown sends) (rs ▸ here) (rs ▸ sum)
      (still.trans (rs ▸ feed))
  | send n pc count zero sends whole feed =>
    exact .send n pc (counted count) zero (shown sends) (rs ▸ whole) (fed feed)
  | done n pc there sends =>
    refine .done n pc ?_ (shown sends)
    rw [rs, rate]
    exact there

theorem Place.result {words : VnaResult F} (place : Place div past s r) (takes : s.takes = true) :
    Place div (past ++ [⟨s, .result words⟩]) (s.result words) r := by
  have running : s.rst.getLsbD 0 = true := by
    simp only [Vna.takes, Bool.and_eq_true] at takes
    exact takes.1.1
  have rs : results (past ++ [⟨s, .result words⟩]) = results past ++ [words] := by
    simp [since_snoc, sweeps, taken, takes]
  have ps : points (past ++ [⟨s, .result words⟩]) = points past := by
    simp [since_snoc, sweeps, sent]
  have fifo : (s.result words).fifo = s.fifo ++ List.ofFn words := by rw [Vna.result, if_pos takes]
  have rate : (s.result words).rateThread = s.rateThread := by rw [Vna.result, if_pos takes]
  have shown {n : Nat} (there : n * (s.rateThread + 10) ≤ (results past).length)
      (shown : Shown div past s n) :
      Shown div (past ++ [⟨s, .result words⟩]) (s.result words) n := by
    rw [Shown, ps, rs, rate, points_snoc words there]
    exact shown
  have counted {n : Nat} (counted : Counted (results past) s r n) :
      Counted (results (past ++ [⟨s, .result words⟩])) (s.result words) r n := by
    refine ⟨counted.rate.trans rate.symm, counted.cntr, counted.i_lt, ?_⟩
    rw [rs, List.length_append]
    exact Nat.le_add_right_of_le counted.there
  have fed {m : Nat} (there : m ≤ (results past).length) (fed : Feed (results past) s m) :
      Feed (results (past ++ [⟨s, .result words⟩])) (s.result words) m := by
    cases fed with
    | flows flows =>
      refine .flows ?_
      rw [fifo, rs, flows, List.drop_append_of_le_length there, flatMap_snoc]
    | cut _ low _ => cases running.symm.trans low
  cases place with
  | rate pc none feed =>
    exact .rate pc (shown (by simp) none) (fed (Nat.zero_le _) feed)
  | size pc has none feed =>
    exact .size pc (has.trans rate.symm) (shown (by simp) none) (fed (Nat.zero_le _) feed)
  | loop n pc count sends sum feed =>
    have there := count.behind
    refine .loop n pc (counted count) (shown (by omega) sends) (fun enough => ?_)
      (fed count.there feed)
    rw [rs, slice_later words (count.cntr ▸ count.there)]
    exact sum enough
  | words n j result pc count sends here sum feed =>
    have there := count.behind
    obtain ⟨below, -⟩ := List.getElem?_eq_some_iff.mp here
    refine .words n j result pc (counted count) (shown (by omega) sends) ?_ (fun enough k => ?_) ?_
    · rw [rs, List.getElem?_append_left below]
      exact here
    · have within :
          n * (r.rate + 10) + (if k < j then r.i + 1 else r.i) ≤ (results past).length := by
        have cntr := count.cntr
        split <;> omega
      rw [rs, slice_later words within]
      exact sum enough k
    · rw [fifo, rs, feed, List.drop_append_of_le_length below, flatMap_snoc, List.append_assoc]
  | send n pc count zero sends whole feed =>
    have there := count.behind
    rw [Nat.succ_mul] at there
    refine .send n pc (counted count) zero (shown (by omega) sends) ?_ (fed count.there feed)
    have slices : slice (results past ++ [words]) r.rate n (r.rate + 10) =
        slice (results past) r.rate n (r.rate + 10) := by
      refine slice_later words ?_
      have cntr := count.cntr
      have within := count.there
      rw [Nat.succ_mul] at cntr
      omega
    rw [rs, whole]
    unfold point
    rw [slice, slice, Nat.add_sub_cancel] at slices
    rw [slices]
  | done n pc there sends =>
    refine .done n pc ?_ (shown there sends)
    rw [rs, rate, List.length_append]
    exact Nat.le_add_right_of_le there

/-- The last word of a result, with the sum of the results so far in the buffer. -/
theorem place_endResult {c : Tick F} {result : VnaResult F} {n : Nat}
    (rs : results (past ++ [c]) = results past) (ps : points (past ++ [c]) = points past)
    (rate : s'.rateThread = s.rateThread) (count : Counted (results past) s r n)
    (sends : Shown div past s n) (here : (results past)[r.cntr]? = some result)
    (sum : 10 ≤ r.i → r.buffer = total (slice (results past) r.rate n (r.i + 1)))
    (fifo : s'.fifo = ((results past).drop (r.cntr + 1)).flatMap List.ofFn) :
    Place div (past ++ [c]) s' (endResult div r) := by
  have below := (List.getElem?_eq_some_iff.mp here).1
  have shown : Shown div (past ++ [c]) s' n := by
    rw [Shown, ps, rs, rate]
    exact sends
  have feed : Feed (results (past ++ [c])) s' (r.cntr + 1) := .flows (rs ▸ fifo)
  have buffer : 10 ≤ r.i + 1 → (if r.i < 10 then fun _ => 0 else r.buffer) =
      total (slice (results past) r.rate n (r.i + 1)) := by
    intro enough
    by_cases counts : 10 ≤ r.i
    · rw [if_neg (Nat.not_lt_of_le counts)]
      exact sum counts
    · have none : slice (results past) r.rate n (r.i + 1) = [] := by
        rw [slice, Nat.sub_eq_zero_of_le (by omega), List.take_zero]
      rw [if_pos (Nat.lt_of_not_le counts), none]
      rfl
  have cntr := count.cntr
  have rated := count.rate.trans rate.symm
  unfold endResult
  dsimp only
  by_cases more : r.i + 1 < r.rate + 10
  · rw [if_pos more]
    refine .loop n (.inl rfl) ⟨rated, ?_, more, ?_⟩ shown (fun enough => ?_) feed
    · dsimp only
      omega
    · rw [rs]
      exact below
    · rw [rs]
      exact buffer enough
  · have last : r.i + 1 = r.rate + 10 := by
      have i_lt := count.i_lt
      omega
    rw [if_neg more]
    refine .send n rfl ⟨rated, ?_, Nat.succ_pos _, ?_⟩ rfl shown ?_ feed
    · dsimp only
      rw [Nat.succ_mul]
      omega
    · rw [rs]
      exact below
    · dsimp only
      rw [buffer (by omega), rs, slice, last, Nat.add_sub_cancel]
      rfl

theorem place_words {c : Tick F} {result : VnaResult F} {n : Nat} {j : Fin 4}
    (rs : results (past ++ [c]) = results past) (ps : points (past ++ [c]) = points past)
    (rate : s'.rateThread = s.rateThread) (fifo : s'.fifo = s.fifo.tail) (pc : r.pc = .words j)
    (count : Counted (results past) s r n) (sends : Shown div past s n)
    (here : (results past)[r.cntr]? = some result)
    (sum : 10 ≤ r.i → ∀ k, r.buffer k =
      total (slice (results past) r.rate n (if k < j then r.i + 1 else r.i)) k)
    (feed : s.fifo = (List.ofFn result).drop j ++
      ((results past).drop (r.cntr + 1)).flatMap List.ofFn) (ok : Bool) :
    Place div (past ++ [c]) s' (readHandler div s r ok) := by
  have rest : (List.ofFn result).drop j = result j :: (List.ofFn result).drop (j + 1) := by
    rw [List.drop_eq_getElem_cons (by simp), List.getElem_ofFn]
  rw [rest, List.cons_append] at feed
  have word : s.fifo.headD 0 = result j := by rw [feed, List.headD_cons]
  have tail : s'.fifo = (List.ofFn result).drop (j + 1) ++
      ((results past).drop (r.cntr + 1)).flatMap List.ofFn := by rw [fifo, feed, List.tail_cons]
  have added : 10 ≤ r.i → ∀ k,
      Function.update r.buffer j (if r.i < 10 then result j else r.buffer j + result j) k =
        total (slice (results past) r.rate n (if k ≤ j then r.i + 1 else r.i)) k := by
    intro counts k
    rw [if_neg (Nat.not_lt_of_le counts)]
    by_cases this : k = j
    · subst this
      have self : ¬ k < k := Nat.lt_irrefl k.val
      rw [Function.update_self, sum counts k, if_neg self, if_pos (Fin.le_refl k),
        slice_succ count.cntr here counts, total_snoc]
    · rw [Function.update_of_ne this, sum counts k]
      have other := Fin.val_ne_of_ne this
      have same : k < j ↔ k ≤ j := by
        rw [Fin.lt_def, Fin.le_def]
        omega
      simp only [same]
  unfold readHandler
  simp only [pc, word]
  by_cases last : j = 3
  · subst last
    rw [if_pos rfl]
    refine place_endResult rs ps rate ⟨count.rate, count.cntr, count.i_lt, count.there⟩ sends here
      (fun counts => funext fun k => ?_) ?_
    · have last : k ≤ 3 := Fin.le_last k
      have whole := added counts k
      rwa [if_pos last] at whole
    · have four : (List.ofFn result).length ≤ (3 : Fin 4) + 1 := Nat.le_of_eq List.length_ofFn
      rw [tail, List.drop_of_length_le four, List.nil_append]
  · rw [if_neg last]
    have succ : ∀ j : Fin 4, j ≠ 3 → ((j + 1 : Fin 4) : Nat) = j + 1 := by decide
    have next := succ j last
    refine .words n (j + 1) result rfl ?_ ?_ (rs ▸ here) (fun counts k => ?_) ?_
    · rw [rs]
      exact ⟨count.rate.trans rate.symm, count.cntr, count.i_lt, count.there⟩
    · rw [Shown, ps, rs, rate]
      exact sends
    · have upTo : k < j + 1 ↔ k ≤ j := by
        rw [Fin.lt_def, next]
        exact Nat.lt_succ_iff
      rw [rs]
      simp only [upTo]
      exact added counts k
    · rw [next, rs]
      exact tail

/-- A step of the newest reader. -/
theorem Place.move {k : Nat} (found : s.readers[k]? = some r) (place : Place div past s r)
    (ok : Bool) :
    Place div (past ++ [⟨s, .reader k ok⟩]) (s.move div k ok) (readHandler div s r ok) := by
  have next : s.move div k ok =
      { s with
        readers := s.readers.set k (readHandler div s r ok)
        fifo := if isWords r.pc then s.fifo.tail else s.fifo } := by
    rw [Vna.move, found]
  have rs : results (past ++ [⟨s, .reader k ok⟩]) = results past := by
    simp [since_snoc, sweeps, taken]
  have ps : points (past ++ [⟨s, .reader k ok⟩]) = points past ++ sent ⟨s, .reader k ok⟩ := by
    simp [since_snoc, sweeps]
  have quiet (other : r.pc ≠ .send) : sent ⟨s, .reader k ok⟩ = [] := by
    cases ok <;> simp [sent, found, other]
  have rate : (s.move div k ok).rateThread = s.rateThread := by rw [next]
  have shown {n : Nat} (quiet : sent ⟨s, .reader k ok⟩ = []) (shown : Shown div past s n) :
      Shown div (past ++ [⟨s, .reader k ok⟩]) (s.move div k ok) n := by
    rw [Shown, ps, quiet, List.append_nil, rs, rate]
    exact shown
  have fed {m : Nat} (other : isWords r.pc = false) (fed : Feed (results past) s m) :
      Feed (results (past ++ [⟨s, .reader k ok⟩])) (s.move div k ok) m := by
    rw [rs]
    refine fed.mono ?_ (by rw [next]) (by rw [next])
    rw [next]
    exact if_neg (by simp [other])
  cases place with
  | rate pc none feed =>
    have run : readHandler div s r ok = { r with rate := s.rateThread, pc := .size } := by
      rw [readHandler, pc]
    rw [run]
    exact .size rfl rate.symm (shown (quiet (by simp [pc])) none) (fed (by rw [pc]; rfl) feed)
  | size pc has none feed =>
    have run : readHandler div s r ok =
        { r with size := s.sizeThread, i := 0, cntr := 0, pc := .loop } := by
      rw [readHandler, pc]
    rw [run]
    refine .loop 0 (.inl rfl) ⟨has.trans rate.symm, ?_, Nat.succ_pos _, Nat.zero_le _⟩
      (shown (quiet (by simp [pc])) none) (fun enough => by cases enough)
      (fed (by rw [pc]; rfl) feed)
    simp
  | loop n pc count sends sum feed =>
    have quiet' := quiet (by rcases pc with pc | pc <;> simp [pc])
    have dry : isWords r.pc = false := by rcases pc with pc | pc <;> simp [isWords, pc]
    have count' : Counted (results (past ++ [⟨s, .reader k ok⟩])) (s.move div k ok) r n := by
      rw [rs]
      exact ⟨count.rate.trans rate.symm, count.cntr, count.i_lt, count.there⟩
    have again (pc' : ReadHandlerPc) (loops : pc' = .loop ∨ pc' = .count) :
        Place div (past ++ [⟨s, .reader k ok⟩]) (s.move div k ok) { r with pc := pc' } :=
      .loop n loops ⟨count'.rate, count'.cntr, count'.i_lt, count'.there⟩ (shown quiet' sends)
        (rs ▸ sum) (fed dry feed)
    have ends : Place div (past ++ [⟨s, .reader k ok⟩]) (s.move div k ok) { r with pc := .done } :=
      .done n rfl (Nat.le_trans (Nat.le_add_right _ _) count'.behind) (shown quiet' sends)
    rcases pc with pc | pc
    · simp only [readHandler, pc]
      split
      · split
        · exact ends
        · exact again .count (.inr rfl)
      · exact ends
    · simp only [readHandler, pc]
      split
      · exact again .loop (.inl rfl)
      · rename_i enough
        cases feed with
        | cut empty => simp [empty] at enough
        | flows flows =>
          have below : r.cntr < (results past).length := by
            by_contra past
            rw [flows, List.drop_of_length_le (by omega)] at enough
            exact enough (by simp)
          refine .words n 0 (results past)[r.cntr] rfl
            ⟨count'.rate, count'.cntr, count'.i_lt, count'.there⟩ (shown quiet' sends) ?_
            (fun counts k => ?_) ?_
          · rw [rs]
            exact List.getElem?_eq_getElem below
          · have none : ¬ k < 0 := Nat.not_lt_zero k.val
            rw [if_neg none, rs]
            exact congrFun (sum counts) k
          · rw [rs, next, dry]
            rw [List.drop_eq_getElem_cons below, List.flatMap_cons] at flows
            exact flows
  | words n j result pc count sends here sum feed =>
    refine place_words rs ?_ rate ?_ pc count sends here sum feed ok
    · rw [ps, quiet (by simp [pc]), List.append_nil]
    · rw [next, pc]
      rfl
  | send n pc count zero sends whole feed =>
    have dry : isWords r.pc = false := by rw [pc]; rfl
    simp only [readHandler, pc]
    by_cases fails : s.sockThread < 0 ∨ ok = false
    · have none : sent ⟨s, .reader k ok⟩ = [] := by
        rcases fails with closed | fails
        · cases ok <;> simp [sent, found, closed]
        · rw [fails]
          rfl
      rw [if_pos fails]
      refine .done n rfl ?_ (shown none sends)
      rw [rs, rate]
      exact Nat.le_trans (Nat.mul_le_mul_right _ (Nat.le_succ n))
        (Nat.le_trans (Nat.le_add_right _ _) count.behind)
    · obtain ⟨connected, succeeds⟩ := not_or.mp fails
      obtain rfl := Bool.of_not_eq_false succeeds
      have one : sent ⟨s, .reader k true⟩ = [r.buffer] := by
        simp [sent, found, pc, Int.not_lt.mp connected]
      rw [if_neg fails]
      refine .loop (n + 1) (.inl rfl) ?_ ?_ (fun enough => ?_) (fed dry feed)
      · rw [rs]
        exact ⟨count.rate.trans rate.symm, count.cntr, count.i_lt, count.there⟩
      · rw [Shown, ps, rs, rate, one, sends, whole, count.rate, List.range_succ, List.map_append]
        rfl
      · exact absurd (zero ▸ enough) (by decide)
  | done n pc there sends =>
    have run : readHandler div s r ok = r := by rw [readHandler, pc]
    rw [run]
    refine .done n pc ?_ (shown (quiet (by simp [pc])) sends)
    rw [rs, rate]
    exact there

/-! ### The stages of a sweep -/

theorem Stage.same {c : Tick F} (stage : Stage div past s) (same : sweeps c = false)
    (none : taken c = []) (quiet : sent c = []) : Stage div (past ++ [c]) s := by
  cases stage with
  | none done empty low late rs ps =>
    exact .none done empty low late ((since_same same none).trans rs)
      ((since_same same quiet).trans ps)
  | one earlier r all done late place =>
    exact .one earlier r all done late
      (place.keep same none quiet rfl (fun _ => rfl) fun _ feed => feed)

theorem stage_result {words : VnaResult F} (stage : Stage div past s) :
    Stage div (past ++ [⟨s, .result words⟩]) (s.result words) := by
  cases takes : s.takes with
  | false =>
    have next : s.result words = s := by simp [result, takes]
    rw [next]
    exact stage.same (by simp [sweeps]) (by simp [taken, takes]) (by simp [sent])
  | true =>
    cases stage with
    | none _ _ low =>
      rw [Vna.takes, low] at takes
      cases takes
    | one earlier r all done late place =>
      have next : s.result words = { s with fifo := s.fifo ++ List.ofFn words } := by
        rw [result, if_pos takes]
      refine .one earlier r ?_ done ?_ (place.result takes)
      · rw [next]
        exact all
      · rw [next]
        exact late

theorem move_done {k : Nat} {ok : Bool} (found : s.readers[k]? = some r) (done : r.pc = .done) :
    s.move div k ok = s := by
  have run : readHandler div s r ok = r := by rw [readHandler, done]
  have dry : isWords r.pc = false := by
    rw [done]
    rfl
  obtain ⟨below, here⟩ := List.getElem?_eq_some_iff.mp found
  have same : s.readers.set k r = s.readers := by
    rw [← here]
    exact List.set_getElem_self below
  rw [move, found]
  dsimp only
  rw [run, same, dry]
  rfl

theorem stage_reader {k : Nat} {ok : Bool} (stage : Stage div past s) :
    Stage div (past ++ [⟨s, .reader k ok⟩]) (s.move div k ok) := by
  cases found : s.readers[k]? with
  | none =>
    have next : s.move div k ok = s := by rw [move, found]
    rw [next]
    refine stage.same (by simp [sweeps]) (by simp [taken]) ?_
    cases ok <;> simp [sent, found]
  | some r' =>
    by_cases ended : r'.pc = .done
    · rw [move_done found ended]
      refine stage.same (by simp [sweeps]) (by simp [taken]) ?_
      cases ok <;> simp [sent, found, ended]
    · cases stage with
      | none done => exact absurd (done r' (List.mem_of_getElem? found)) ended
      | one earlier r all done late place =>
        have last : earlier.length = k := by
          rw [all] at found
          by_contra other
          rcases Nat.lt_or_gt_of_ne other with more | less
          · rw [List.getElem?_eq_none (by simpa using Nat.succ_le_of_lt more)] at found
            cases found
          · rw [List.getElem?_append_left less] at found
            exact ended (done r' (List.mem_of_getElem? found))
        subst last
        obtain rfl : r = r' := by simpa [all] using found
        refine .one earlier (readHandler div s r ok) ?_ done ?_ (place.move found ok)
        · rw [move, found]
          simp [all]
        · rw [move, found]
          exact late

section Main

variable {command : Option (BitVec 32)} {accepted : Nat}

/-- A step with no reader at work. -/
theorem Stage.idle (done : ∀ r ∈ s'.readers, r.pc = .done) (empty : s'.fifo = [])
    (low : s'.rst.getLsbD 0 = false) (early : starts s'.pc = false)
    (same : sweeps ⟨s, .main command accepted⟩ = false) (rs : results past = [])
    (ps : points past = []) : Stage div (past ++ [⟨s, .main command accepted⟩]) s' :=
  .none done empty low early ((since_same same rfl).trans rs) ((since_same same rfl).trans ps)

/-- A step that leaves the FIFO to the newest reader. -/
theorem Stage.onward {earlier : List (ReadHandler F)} (place : Place div past s r)
    (all : s'.readers = earlier ++ [r]) (done : ∀ r ∈ earlier, r.pc = .done)
    (same : sweeps ⟨s, .main command accepted⟩ = false) (late : setsUp s'.pc = false)
    (rate : s'.rateThread = s.rateThread) (fifo : s'.fifo = s.fifo)
    (feed : s.rst.getLsbD 0 = false → starts s.pc = false →
      s'.rst.getLsbD 0 = false ∧ starts s'.pc = false) :
    Stage div (past ++ [⟨s, .main command accepted⟩]) s' := by
  refine .one earlier r all done late (place.keep same rfl rfl rate (fun _ => fifo) ?_)
  intro m fed
  cases fed with
  | flows flows => exact .flows (fifo.trans flows)
  | cut empty low early =>
    obtain ⟨low', early'⟩ := feed low early
    exact .cut (fifo.trans empty) low' early'

/-- A step that resets the FIFO, with no reader in the middle of a result. -/
theorem Stage.halted {earlier : List (ReadHandler F)} (place : Place div past s r)
    (all : s'.readers = earlier ++ [r]) (done : ∀ r ∈ earlier, r.pc = .done)
    (same : sweeps ⟨s, .main command accepted⟩ = false) (late : setsUp s'.pc = false)
    (rate : s'.rateThread = s.rateThread) (whole : isWords r.pc = false) (empty : s'.fifo = [])
    (low : s'.rst.getLsbD 0 = false) (early : starts s'.pc = false) :
    Stage div (past ++ [⟨s, .main command accepted⟩]) s' := by
  refine .one earlier r all done late (place.keep same rfl rfl rate (fun inside => ?_) ?_)
  · rw [whole] at inside
    cases inside
  · exact fun _ _ => .cut empty low early

theorem stage_recv (stage : Stage div past s) (recv : s.pc = .recv)
    (orderly : Orderly past ⟨s, .main command accepted⟩) :
    Stage div (past ++ [⟨s, .main command accepted⟩]) (s.main command accepted) := by
  have next : s.main command accepted = command.elim { s.halt with pc := .disconnect } s.obey := by
    rw [main, recv]
  rw [next]
  cases command with
  | none =>
    have same : sweeps (⟨s, .main none accepted⟩ : Tick F) = false := by simp [sweeps]
    cases stage with
    | none done _ _ _ rs ps =>
      exact Stage.idle done rfl (halt_low s) rfl same rs ps
    | one earlier r all done _ place =>
      have whole := orderly.whole (by simp [resets, recv]) r (by simp [all])
      exact Stage.halted place all done same rfl rfl whole rfl (halt_low s) rfl
  | some command =>
    rw [Option.elim_some]
    rcases obey_cases s command with ⟨sweep, obeys⟩ | ⟨cancel, obeys⟩ | ⟨other, size, rate, obeys⟩
    · have begins : sweeps (⟨s, .main (some command) accepted⟩ : Tick F) = true := by
        simp [sweeps, recv, sweep]
      rw [obeys]
      refine .none (orderly.joined begins) rfl (halt_low s) rfl ?_ ?_
      · rw [results, since_snoc, if_pos begins]
      · rw [points, since_snoc, if_pos begins]
    · have same : sweeps (⟨s, .main (some command) accepted⟩ : Tick F) = false := by
        simp [sweeps, cancel]
      rw [obeys]
      cases stage with
      | none done _ _ _ rs ps =>
        exact Stage.idle done rfl (halt_low s) rfl same rs ps
      | one earlier r all done _ place =>
        have whole := orderly.whole (by simp [resets, recv, cancel]) r (by simp [all])
        exact Stage.halted place all done same rfl rfl whole rfl (halt_low s) rfl
    · have same : sweeps (⟨s, .main (some command) accepted⟩ : Tick F) = false := by
        simp [sweeps, other]
      rw [obeys]
      cases stage with
      | none done empty low early rs ps =>
        exact Stage.idle done empty low early same rs ps
      | one earlier r all done late place =>
        exact Stage.onward place all done same late rfl rfl fun low early => ⟨low, early⟩

theorem stage_create (stage : Stage div past s) (pc : s.pc = .create) :
    Stage div (past ++ [⟨s, .main command accepted⟩]) (s.main command accepted) := by
  have same : sweeps ⟨s, .main command accepted⟩ = false := sweeps_other (by simp [pc])
  have next : s.main command accepted =
      { s with readers := s.readers ++ [spawned], pc := .freqs 0 } := by
    rw [main, pc]
  cases stage with
  | none done empty _ _ rs ps =>
    have rs' : results (past ++ [⟨s, .main command accepted⟩]) = [] :=
      (since_same same rfl).trans rs
    have ps' : points (past ++ [⟨s, .main command accepted⟩]) = [] :=
      (since_same same rfl).trans ps
    rw [next]
    refine .one s.readers spawned rfl done rfl (.rate rfl ps' (.flows ?_))
    rw [rs']
    exact empty
  | one _ _ _ _ late =>
    rw [pc] at late
    cases late

/-- The steps of the set-up before the thread is created. -/
theorem stage_setsUp (stage : Stage div past s) (setUp : setsUp s.pc = true) (pc : s.pc ≠ .create) :
    Stage div (past ++ [⟨s, .main command accepted⟩]) (s.main command accepted) := by
  have same : sweeps ⟨s, .main command accepted⟩ = false :=
    sweeps_other fun recv => by simp [recv, setsUp] at setUp
  cases stage with
  | one _ _ _ _ late =>
    rw [setUp] at late
    cases late
  | none done empty low _ rs ps =>
    rw [main]
    cases step : s.pc with
    | release =>
      refine Stage.idle done empty ?_ rfl same rs ps
      simpa using low
    | rateThread => exact Stage.idle done empty low rfl same rs ps
    | sizeThread => exact Stage.idle done empty low rfl same rs ps
    | sockThread => exact Stage.idle done empty low rfl same rs ps
    | create => exact absurd step pc
    | _ =>
      rw [step] at setUp
      cases setUp

/-- The other steps of the main loop. -/
theorem stage_after (stage : Stage div past s) (setUp : setsUp s.pc = false) (pc : s.pc ≠ .recv) :
    Stage div (past ++ [⟨s, .main command accepted⟩]) (s.main command accepted) := by
  have same : sweeps ⟨s, .main command accepted⟩ = false := sweeps_other pc
  rw [main]
  cases stage with
  | none done empty low early rs ps =>
    cases step : s.pc with
    | recv => exact absurd step pc
    | cancel => exact Stage.idle done empty low rfl same rs ps
    | disconnect => exact Stage.idle done empty low rfl same rs ps
    | accept => exact Stage.idle done empty low rfl same rs ps
    | freqs _ =>
      rw [step] at early
      cases early
    | start =>
      rw [step] at early
      cases early
    | _ =>
      rw [step] at setUp
      cases setUp
  | one earlier r all done _ place =>
    cases step : s.pc with
    | recv => exact absurd step pc
    | cancel => exact Stage.onward place all done same rfl rfl rfl fun low _ => ⟨low, rfl⟩
    | disconnect => exact Stage.onward place all done same rfl rfl rfl fun low _ => ⟨low, rfl⟩
    | accept => exact Stage.onward place all done same rfl rfl rfl fun low _ => ⟨low, rfl⟩
    | freqs i =>
      dsimp only
      split
      · refine Stage.onward place all done same rfl rfl rfl fun _ early => ?_
        rw [step] at early
        cases early
      · refine Stage.onward place all done same rfl rfl rfl fun _ early => ?_
        rw [step] at early
        cases early
    | start =>
      refine Stage.onward place all done same rfl rfl rfl fun _ early => ?_
      rw [step] at early
      cases early
    | _ =>
      rw [step] at setUp
      cases setUp

end Main

theorem run_stage (run : (circuit div).Run past s) (orderly : Held Orderly past) :
    Stage div past s := by
  refine run.invariant (P := Stage div) ?_ ?_ orderly
  · rintro s ⟨pc, low, -, -, -, -, -, -, none, empty⟩
    refine .none (by simp [none]) empty low ?_ rfl rfl
    rw [pc]
    rfl
  · intro past s i _ stage orderly
    cases i with
    | result words => exact stage_result stage
    | reader k ok => exact stage_reader stage
    | main command accepted =>
      show Stage div _ (s.main command accepted)
      by_cases recv : s.pc = .recv
      · exact stage_recv stage recv orderly
      · cases setUp : setsUp s.pc with
        | false => exact stage_after stage setUp recv
        | true =>
          by_cases create : s.pc = .create
          · exact stage_create stage create
          · exact stage_setsUp stage setUp create

theorem Place.consecutive (place : Place div past s r) : Consecutive div past s := by
  cases place with
  | rate _ none => exact ⟨0, by simp, none⟩
  | size _ _ none => exact ⟨0, by simp, none⟩
  | loop n _ count sends => exact ⟨n, Nat.le_trans (Nat.le_add_right _ _) count.behind, sends⟩
  | words n _ _ _ count sends => exact ⟨n, Nat.le_trans (Nat.le_add_right _ _) count.behind, sends⟩
  | send n _ count _ sends =>
    refine ⟨n, Nat.le_trans (Nat.mul_le_mul_right _ (Nat.le_succ n)) ?_, sends⟩
    exact Nat.le_trans (Nat.le_add_right _ _) count.behind
  | done n _ there sends => exact ⟨n, there, sends⟩

/-- In every run whose sweep commands find every reader done and whose FIFO is not reset in the
middle of a result, no reader is left but the newest, and the points sent since the newest sweep
command are those of its results, one after another; of all it has produced, if they found room. -/
theorem run_oneReader (run : (circuit div).Run past s) (orderly : Held Orderly past) :
    Alone s ∧ Consecutive div past s ∧ (Held Room past → results past = since produced past) := by
  refine ⟨?_, ?_, since_taken⟩
  · cases run_stage run orderly with
    | none done => exact fun r member => done r (List.dropLast_subset _ member)
    | one earlier r all done =>
      rw [Alone, all, List.dropLast_concat]
      exact done
  · cases run_stage run orderly with
    | none _ _ _ _ rs ps => exact ⟨0, by simp, ps⟩
    | one _ _ _ _ _ place => exact place.consecutive

instance (s : Vna F) : Decidable (Alone s) :=
  inferInstanceAs (Decidable (∀ r ∈ s.readers.dropLast, r.pc = .done))

instance (past : List (Tick F)) (c : Tick F) : Decidable (Orderly past c) :=
  decidable_of_iff ((sweeps c = true → ∀ r ∈ c.regs.readers, r.pc = .done) ∧
      (resets c = true → ∀ r ∈ c.regs.readers, isWords r.pc = false))
    ⟨fun ⟨joined, whole⟩ => ⟨joined, whole⟩, fun ⟨joined, whole⟩ => ⟨joined, whole⟩⟩

def start : Vna Nat := ⟨.accept, 0, 5000, 10, 0, -1, 10, 5000, [], []⟩

theorem start_reset (div : Nat → Nat → Nat) : (circuit div).Reset start :=
  ⟨rfl, rfl, rfl, rfl, rfl, rfl, rfl, rfl, rfl, rfl⟩

/-- A client that asks for sweeps of one frequency. -/
def connects : List (VnaMove Nat) := [.main none 4, .main (some 0x20000001) 0]

def sweep : List (VnaMove Nat) := .main (some 0xa0000000) 0 :: List.replicate 8 (.main none 0)

def cancel : List (VnaMove Nat) := [.main (some 0xb0000000) 0, .main none 0]

/-- The twenty results of a point, each read when it comes. -/
def onePoint : List (VnaMove Nat) :=
  connects ++ sweep ++ List.replicate 2 (.reader 0 true) ++
    (List.range 20).flatMap (fun k => .result (fun _ => k) :: List.replicate 6 (.reader 0 true)) ++
    [.reader 0 true]

theorem run_oneReader_onePoint : Consecutive (· / ·) ((circuit (· / ·)).trace start onePoint)
      ((circuit (· / ·)).after start onePoint) ∧
    (points ((circuit (· / ·)).trace start onePoint)).map (· 3) = [14] := by
  have one := run_oneReader (run_trace (start_reset (· / ·)) onePoint) (by decide +kernel)
  exact ⟨one.2.1, by decide +kernel⟩

/-- A sweep after a cancel: the reader of the first has not looked at the socket in between. -/
theorem cancelled_twoReaders : ¬ ∀ (past : List (Tick Nat)) (s : Vna Nat),
    (circuit (· / ·)).Run past s → Alone s ∧ Consecutive (· / ·) past s := by
  intro claim
  have alone := (claim _ _ (run_trace (start_reset _) (connects ++ sweep ++ cancel ++ sweep))).1
  exact absurd alone (by decide +kernel)

end Vna

end Switcheck
