import Mathlib.Tactic.IntervalCases
import Switcheck.Server.HpsdrKeyer

/-!
# The audio index of `handler_ep6`

`handler_ep6` takes the samples of the codec from a buffer of 512 words, each as often as the
receivers are faster than the codec. It goes by the `rate` and the `receivers` that `process_ep2`
changes meanwhile. A step is one access of one of them to what they share.
-/

namespace Switcheck

open Sync Circuit

open HpsdrKeyer (Frame)

namespace HpsdrEp6

inductive Store where
  | receivers (value : Nat)
  | rate (value : Nat)
  deriving DecidableEq

def processEp2 (frame : Frame) : List Store :=
  match (frame ⟨0, by decide⟩).toNat with
  | 0 | 1 => [.receivers (((frame ⟨4, by decide⟩ >>> 3) &&& 7).toNat + 1),
      .rate (frame ⟨1, by decide⟩ &&& 3).toNat]
  | _ => []

/-- Where the loop is: `count` is the test of `rate_counter`, with `reload` and `clear` after it
where it comes to zero; the datagrams are filled in `outer` and `inner`. -/
inductive Pc where
  | setCounter
  | setIndex
  | top
  | waits
  | count
  | reload
  | clear
  | outer
  | inner
  | ended
  deriving DecidableEq

inductive Move where
  | frame (frame : Frame)
  | store
  | handler (enableThread : Bool) (rxCntr : BitVec 16)

end HpsdrEp6

open HpsdrEp6 in
/-- The stores still to be made, what is shared, and the locals of `handler_ep6`. -/
structure HpsdrEp6 where
  stores : List Store
  receivers : Nat
  rate : Nat
  pc : Pc
  rateCounter : Int
  k : Nat
  n : Nat
  m : Nat
  i : Nat
  j : Nat
  deriving DecidableEq

namespace HpsdrEp6

def store (s : HpsdrEp6) : HpsdrEp6 :=
  match s.stores with
  | [] => s
  | .receivers value :: rest => { s with stores := rest, receivers := value }
  | .rate value :: rest => { s with stores := rest, rate := value }

def handler (codec : Bool) (s : HpsdrEp6) (enableThread : Bool) (rxCntr : BitVec 16) : HpsdrEp6 :=
  match s.pc with
  | .setCounter => { s with rateCounter := (2 ^ s.rate : Nat), pc := .setIndex }
  | .setIndex => { s with k := 0, pc := .top }
  | .top =>
    if enableThread then
      let size := s.receivers * 6 + 2
      { s with n := 504 / size, m := 256 / (504 / size), pc := .waits }
    else { s with pc := .ended }
  | .waits => if rxCntr.toNat < s.m * s.n * 16 then s else { s with pc := .count }
  | .count =>
    if codec then
      { s with
        rateCounter := s.rateCounter - 1
        i := 0
        pc := if s.rateCounter - 1 = 0 then .reload else .outer }
    else { s with i := 0, pc := .outer }
  | .reload => { s with rateCounter := (2 ^ s.rate : Nat), pc := .clear }
  | .clear => { s with k := 0, pc := .outer }
  | .outer => if s.i < s.m * 2 then { s with j := 0, pc := .inner } else { s with pc := .top }
  | .inner =>
    if s.j < s.n then { s with j := s.j + 1, k := if codec then s.k + 1 else s.k }
    else { s with i := s.i + 1, pc := .outer }
  | .ended => s

def step (codec : Bool) (s : HpsdrEp6) : Move → HpsdrEp6
  | .frame frame => { s with stores := s.stores ++ processEp2 frame }
  | .store => s.store
  | .handler enableThread rxCntr => s.handler codec enableThread rxCntr

/-- The thread is created between two frames, with the settings that some frames have left. -/
def circuit (codec : Bool) : Circuit HpsdrEp6 Move where
  Reset s := s.pc = .setCounter ∧ s.stores = [] ∧ s.rate ≤ 3 ∧ 1 ≤ s.receivers ∧ s.receivers ≤ 8
  tick := step codec

abbrev Tick := Clock HpsdrEp6 Move

/-! ### What a run reads -/

def handles (c : Tick) : Bool :=
  match c.pins with
  | .handler .. => true
  | _ => false

/-- `(k++) >> rate`, in the steps that read the buffer. -/
def audioIndex (c : Tick) : Option Nat :=
  if handles c = true ∧ c.regs.pc = .inner ∧ c.regs.j < c.regs.n then
    some (c.regs.k >>> c.regs.rate)
  else none

/-- The iterations begun since the buffer was filled, the one that fills it included. -/
def begunNext (n : Nat) (c : Tick) : Nat :=
  match handles c, c.regs.pc with
  | true, .setIndex => 0
  | true, .count => n + 1
  | true, .clear => 1
  | _, _ => n

def begun (past : List Tick) : Nat := past.foldl begunNext 0

/-- The rate when `rate_counter` was last set. -/
def setRateNext (r : Nat) (c : Tick) : Nat :=
  match handles c, c.regs.pc with
  | true, .setCounter => c.regs.rate
  | true, .reload => c.regs.rate
  | _, _ => r

def setRate (past : List Tick) : Nat := past.foldl setRateNext 0

def InRange (_ : List Tick) (c : Tick) : Prop := ∀ index ∈ audioIndex c, index < 512

/-- A read comes in one of as many iterations as the rate gives the samples of a buffer for. -/
def Lasts (before : List Tick) (c : Tick) : Prop :=
  (audioIndex c).isSome = true → begun before ≤ 2 ^ c.regs.rate

/-- That condition at the last read of each iteration. -/
def LastsToEnd (before : List Tick) (c : Tick) : Prop :=
  (audioIndex c).isSome = true → c.regs.i + 1 = c.regs.m * 2 → c.regs.j + 1 = c.regs.n →
    begun before ≤ 2 ^ c.regs.rate

/-- A read finds a rate no lower than the one that `rate_counter` was set for. -/
def NotLowered (before : List Tick) (c : Tick) : Prop :=
  (audioIndex c).isSome = true → setRate before ≤ c.regs.rate

variable {past : List Tick} {s : HpsdrEp6} {enableThread : Bool} {rxCntr : BitVec 16}

theorem begun_snoc (past : List Tick) (c : Tick) :
    begun (past ++ [c]) = begunNext (begun past) c := by
  simp [begun]

theorem setRate_snoc (past : List Tick) (c : Tick) :
    setRate (past ++ [c]) = setRateNext (setRate past) c := by
  simp [setRate]

/-! ### Settings -/

def Store.Valid : Store → Prop
  | .receivers value => 1 ≤ value ∧ value ≤ 8
  | .rate value => value ≤ 3

structure Settings (s : HpsdrEp6) : Prop where
  rate : s.rate ≤ 3
  receivers : 1 ≤ s.receivers ∧ s.receivers ≤ 8
  stores : ∀ store ∈ s.stores, store.Valid

theorem processEp2_valid (frame : Frame) : ∀ store ∈ processEp2 frame, store.Valid := by
  have receivers : ((frame 4 >>> 3) &&& 7).toNat ≤ 7 := Nat.and_le_right
  have rate : (frame 1 &&& 3).toNat ≤ 3 := Nat.and_le_right
  unfold processEp2
  split
  · refine List.forall_mem_cons.mpr ⟨⟨Nat.le_add_left _ _, ?_⟩, List.forall_mem_singleton.mpr rate⟩
    exact Nat.succ_le_succ receivers
  · refine List.forall_mem_cons.mpr ⟨⟨Nat.le_add_left _ _, ?_⟩, List.forall_mem_singleton.mpr rate⟩
    exact Nat.succ_le_succ receivers
  · exact List.forall_mem_nil _

theorem settings_store (settings : Settings s) : Settings s.store := by
  obtain ⟨rate, receivers, stores⟩ := settings
  unfold store
  split
  · exact ⟨rate, receivers, stores⟩
  · rename_i value rest pending
    rw [pending] at stores
    exact ⟨rate, (List.forall_mem_cons.mp stores).1, (List.forall_mem_cons.mp stores).2⟩
  · rename_i value rest pending
    rw [pending] at stores
    exact ⟨(List.forall_mem_cons.mp stores).1, receivers, (List.forall_mem_cons.mp stores).2⟩

theorem settings_handler (codec : Bool) (settings : Settings s) :
    Settings (s.handler codec enableThread rxCntr) := by
  obtain ⟨rate, receivers, stores⟩ := settings
  unfold handler
  split <;> try split
  all_goals exact ⟨rate, receivers, stores⟩

theorem run_settings {codec : Bool} (run : (circuit codec).Run past s) : Settings s := by
  induction run with
  | reset start =>
    obtain ⟨-, stores, rate, receivers⟩ := start
    exact ⟨rate, receivers, stores ▸ List.forall_mem_nil _⟩
  | tick run move ih =>
    cases move with
    | frame frame =>
      exact ⟨ih.rate, ih.receivers,
        List.forall_mem_append.mpr ⟨ih.stores, processEp2_valid frame⟩⟩
    | store => exact settings_store ih
    | handler enableThread rxCntr => exact settings_handler codec ih

/-! ### The counters -/

/-- An iteration takes nearly all, and no more than all, of the 512 words. -/
structure Fits (m n : Nat) : Prop where
  least : 494 ≤ 2 * (m * n)
  most : m * n ≤ 256

theorem fits_of_receivers {receivers : Nat} (low : 1 ≤ receivers) (high : receivers ≤ 8) :
    Fits (256 / (504 / (receivers * 6 + 2))) (504 / (receivers * 6 + 2)) := by
  interval_cases receivers <;> exact ⟨by decide, by decide⟩

/-- After `b` iterations the index is at `k`, and as many more are to come as `rateCounter` says. -/
structure Counts (r : Nat) (rateCounter : Int) (b k : Nat) : Prop where
  rate : r ≤ 3
  positive : 1 ≤ rateCounter
  total : rateCounter + b ≤ (2 ^ r : Nat) + 1
  least : 494 * b ≤ k
  most : k ≤ 512 * b

/-- In iteration `b + 1`, which has begun with the index at `base`. -/
structure Sends (r : Nat) (rateCounter : Int) (b base m n : Nat) : Prop where
  fits : Fits m n
  rate : r ≤ 3
  positive : 1 ≤ rateCounter
  total : rateCounter + (b + 1 : Nat) ≤ (2 ^ r : Nat) + 1
  least : 494 * b ≤ base
  most : base ≤ 512 * b

inductive Phase (past : List Tick) (s : HpsdrEp6) : Prop where
  | setCounter : s.pc = .setCounter → Phase past s
  | setIndex : s.pc = .setIndex → setRate past ≤ 3 → s.rateCounter = (2 ^ setRate past : Nat) →
      Phase past s
  | top : s.pc = .top → Counts (setRate past) s.rateCounter (begun past) s.k → Phase past s
  | counts : s.pc = .waits ∨ s.pc = .count → Fits s.m s.n →
      Counts (setRate past) s.rateCounter (begun past) s.k → Phase past s
  | reload : s.pc = .reload → Fits s.m s.n → s.i = 0 → Phase past s
  | clear : s.pc = .clear → Fits s.m s.n → s.i = 0 → setRate past ≤ 3 →
      s.rateCounter = (2 ^ setRate past : Nat) → Phase past s
  | outer (b base : Nat) : s.pc = .outer → begun past = b + 1 →
      Sends (setRate past) s.rateCounter b base s.m s.n → s.i ≤ s.m * 2 → s.k = base + s.i * s.n →
      Phase past s
  | inner (b base : Nat) : s.pc = .inner → begun past = b + 1 →
      Sends (setRate past) s.rateCounter b base s.m s.n → s.i < s.m * 2 → s.j ≤ s.n →
      s.k = base + s.i * s.n + s.j → Phase past s
  | ended : s.pc = .ended → Phase past s

/-- Steps of the main loop leave the counters alone. -/
theorem Phase.frame {past past' : List Tick} {s' : HpsdrEp6} (phase : Phase past s)
    (begun' : begun past' = begun past) (setRate' : setRate past' = setRate past)
    (locals : ∃ stores receivers rate,
      s' = { s with stores := stores, receivers := receivers, rate := rate }) : Phase past' s' := by
  obtain ⟨stores, receivers, rate, rfl⟩ := locals
  cases phase with
  | setCounter pc => exact .setCounter pc
  | setIndex pc r counter => exact .setIndex pc (setRate' ▸ r) (setRate' ▸ counter)
  | top pc counts => exact .top pc (by rw [setRate', begun']; exact counts)
  | counts pc fits counts => exact .counts pc fits (by rw [setRate', begun']; exact counts)
  | reload pc fits i => exact .reload pc fits i
  | clear pc fits i r counter => exact .clear pc fits i (setRate' ▸ r) (setRate' ▸ counter)
  | outer b base pc n sends i k =>
    obtain ⟨fits, r, positive, total, least, most⟩ := sends
    exact .outer b base pc (begun'.trans n)
      ⟨fits, setRate' ▸ r, positive, setRate' ▸ total, least, most⟩ i k
  | inner b base pc n sends i j k =>
    obtain ⟨fits, r, positive, total, least, most⟩ := sends
    exact .inner b base pc (begun'.trans n)
      ⟨fits, setRate' ▸ r, positive, setRate' ▸ total, least, most⟩ i j k
  | ended pc => exact .ended pc

/-- One step of `handler_ep6`, with what it does to the two counts of the run. -/
theorem phase_handler (settings : Settings s) (phase : Phase past s) :
    Phase (past ++ [⟨s, .handler enableThread rxCntr⟩]) (s.handler true enableThread rxCntr) := by
  have begun' := begun_snoc past ⟨s, .handler enableThread rxCntr⟩
  have setRate' := setRate_snoc past ⟨s, .handler enableThread rxCntr⟩
  simp only [begunNext, setRateNext, handles] at begun' setRate'
  cases phase with
  | setCounter pc =>
    simp only [pc] at begun' setRate'
    simp only [handler, pc]
    exact .setIndex rfl (setRate' ▸ settings.rate) (by rw [setRate'])
  | setIndex pc r counter =>
    simp only [pc] at begun' setRate'
    simp only [handler, pc]
    have power : 0 < 2 ^ setRate past := Nat.two_pow_pos _
    have counts : Counts (setRate past) s.rateCounter 0 0 :=
      ⟨r, by omega, by omega, Nat.le_refl 0, Nat.le_refl 0⟩
    refine .top rfl ?_
    rw [begun', setRate']
    exact counts
  | top pc counts =>
    simp only [pc] at begun' setRate'
    simp only [handler, pc]
    split
    · refine .counts (.inl rfl) (fits_of_receivers settings.receivers.1 settings.receivers.2) ?_
      rw [begun', setRate']
      exact counts
    · exact .ended rfl
  | counts pc fits counts =>
    rcases pc with pc | pc
    · simp only [pc] at begun' setRate'
      simp only [handler, pc]
      split
      · refine .counts (.inl pc) fits ?_
        rw [begun', setRate']
        exact counts
      · refine .counts (.inr rfl) fits ?_
        rw [begun', setRate']
        exact counts
    · simp only [pc] at begun' setRate'
      simp only [handler, pc, if_true]
      split
      · exact .reload rfl fits rfl
      · rename_i more
        obtain ⟨r, positive, total, least, most⟩ := counts
        refine .outer (begun past) s.k rfl begun' ⟨fits, setRate' ▸ r, ?_, ?_, least, most⟩
          (Nat.zero_le _) ?_
        · dsimp only
          omega
        · dsimp only
          rw [setRate']
          omega
        · rw [Nat.zero_mul, Nat.add_zero]
  | reload pc fits i =>
    simp only [pc] at begun' setRate'
    simp only [handler, pc]
    exact .clear rfl fits i (setRate' ▸ settings.rate) (by rw [setRate'])
  | clear pc fits i r counter =>
    simp only [pc] at begun' setRate'
    simp only [handler, pc]
    have power : 0 < 2 ^ setRate past := Nat.two_pow_pos _
    have sends : Sends (setRate past) s.rateCounter 0 0 s.m s.n :=
      ⟨fits, r, by omega, by omega, Nat.le_refl 0, Nat.le_refl 0⟩
    refine .outer 0 0 rfl begun' (setRate' ▸ sends) ?_ ?_
    · rw [i]
      exact Nat.zero_le _
    · rw [i, Nat.zero_mul]
  | outer b base pc n sends i k =>
    simp only [pc] at begun' setRate'
    simp only [handler, pc]
    split
    · rename_i more
      exact .inner b base rfl (begun'.trans n) (setRate' ▸ sends) more (Nat.zero_le _) k
    · rename_i all
      have last : s.i = s.m * 2 := by omega
      obtain ⟨⟨few, many⟩, r, positive, total, least, most⟩ := sends
      have words : s.k = base + 2 * (s.m * s.n) := by
        rw [k, last, Nat.mul_right_comm, Nat.mul_comm _ 2]
      have counts : Counts (setRate past) s.rateCounter (b + 1) s.k :=
        ⟨r, positive, total, by omega, by omega⟩
      refine .top rfl ?_
      rw [begun', setRate', n]
      exact counts
  | inner b base pc n sends i j k =>
    simp only [pc] at begun' setRate'
    simp only [handler, pc, if_true]
    split
    · rename_i more
      refine .inner b base rfl (begun'.trans n) (setRate' ▸ sends) i more ?_
      dsimp only
      omega
    · rename_i all
      refine .outer b base rfl (begun'.trans n) (setRate' ▸ sends) i ?_
      dsimp only
      rw [k, Nat.succ_mul]
      omega
  | ended pc =>
    simp only [handler, pc]
    exact .ended pc

theorem phase_store (phase : Phase past s) : Phase (past ++ [⟨s, .store⟩]) s.store := by
  refine phase.frame (begun_snoc past _) (setRate_snoc past _) ?_
  unfold store
  split
  · exact ⟨s.stores, s.receivers, s.rate, rfl⟩
  · rename_i value rest pending
    exact ⟨rest, value, s.rate, rfl⟩
  · rename_i value rest pending
    exact ⟨rest, s.receivers, value, rfl⟩

theorem run_phase (run : (circuit true).Run past s) : Phase past s := by
  induction run with
  | reset start => exact .setCounter start.1
  | @tick past s run move ih =>
    cases move with
    | frame frame =>
      exact ih.frame (begun_snoc past _) (setRate_snoc past _) ⟨_, s.receivers, s.rate, rfl⟩
    | store => exact phase_store ih
    | handler enableThread rxCntr => exact phase_handler (run_settings run) ih

/-! ### The index -/

/-- The place of a read in its iteration. -/
theorem place_lt {m n i j : Nat} (outer : i < m * 2) (inner : j < n) :
    i * n + j < 2 * (m * n) := by
  have rows : (i + 1) * n ≤ m * 2 * n := Nat.mul_le_mul_right n outer
  rw [Nat.succ_mul, Nat.mul_right_comm, Nat.mul_comm _ 2] at rows
  omega

/-- A read is that of a word of iteration `b + 1`. -/
theorem read_phase (run : (circuit true).Run past s) {move : Move}
    (reads : (audioIndex ⟨s, move⟩).isSome = true) :
    ∃ b base, begun past = b + 1 ∧ Sends (setRate past) s.rateCounter b base s.m s.n ∧
      s.i < s.m * 2 ∧ s.j < s.n ∧ s.k = base + (s.i * s.n + s.j) := by
  have here : handles ⟨s, move⟩ = true ∧ s.pc = .inner ∧ s.j < s.n := by
    by_contra other
    rw [audioIndex, if_neg other] at reads
    cases reads
  obtain ⟨-, pc, inside⟩ := here
  cases run_phase run with
  | inner b base _ n sends i j k => exact ⟨b, base, n, sends, i, inside, k.trans (Nat.add_assoc ..)⟩
  | counts other => simp [pc] at other
  | setCounter other | setIndex other | top other | reload other | clear other | outer _ _ other
  | ended other => simp [pc] at other

theorem mem_audioIndex {c : Tick} {index : Nat} (reads : index ∈ audioIndex c) :
    (audioIndex c).isSome = true ∧ index = c.regs.k >>> c.regs.rate := by
  have some : audioIndex c = some index := reads
  refine ⟨Option.isSome_iff_exists.mpr ⟨index, some⟩, ?_⟩
  unfold audioIndex at some
  split at some
  · exact (Option.some.inj some).symm
  · cases some

theorem inRange_of_lasts (run : (circuit true).Run past s) {move : Move}
    (lasts : Lasts past ⟨s, move⟩) : InRange past ⟨s, move⟩ := by
  rintro index member
  obtain ⟨reads, rfl⟩ := mem_audioIndex member
  obtain ⟨b, base, n, sends, outer, inner, k⟩ := read_phase run reads
  have few := lasts reads
  have place := place_lt outer inner
  have words := sends.fits.most
  have base_le := sends.most
  rw [n] at few
  dsimp only at few ⊢
  rw [Nat.shiftRight_eq_div_pow]
  refine Nat.div_lt_of_lt_mul ?_
  omega

theorem lastsToEnd_of_inRange (run : (circuit true).Run past s) {move : Move}
    (inRange : InRange past ⟨s, move⟩) : LastsToEnd past ⟨s, move⟩ := by
  intro reads lastRow lastWord
  obtain ⟨index, some⟩ := Option.isSome_iff_exists.mp reads
  have small := inRange index some
  obtain ⟨-, rfl⟩ := mem_audioIndex some
  obtain ⟨b, base, n, sends, outer, inner, k⟩ := read_phase run reads
  have rate : 2 ^ s.rate ≤ 2 ^ 3 := Nat.pow_le_pow_right Nat.two_pos (run_settings run).rate
  dsimp only at small lastRow lastWord ⊢
  rw [Nat.shiftRight_eq_div_pow, Nat.div_lt_iff_lt_mul (Nat.two_pow_pos _)] at small
  have words : s.i * s.n + s.j + 1 = 2 * (s.m * s.n) := by
    calc s.i * s.n + s.j + 1 = (s.i + 1) * s.n := by rw [Nat.succ_mul, Nat.add_assoc, lastWord]
      _ = 2 * (s.m * s.n) := by rw [lastRow, Nat.mul_right_comm, Nat.mul_comm]
  have many := sends.fits.least
  have base_ge := sends.least
  rw [n]
  omega

theorem lasts_of_notLowered (run : (circuit true).Run past s) {move : Move}
    (notLowered : NotLowered past ⟨s, move⟩) : Lasts past ⟨s, move⟩ := by
  intro reads
  obtain ⟨b, base, n, sends, -⟩ := read_phase run reads
  have higher : 2 ^ setRate past ≤ 2 ^ s.rate :=
    Nat.pow_le_pow_right Nat.two_pos (notLowered reads)
  have positive := sends.positive
  have total := sends.total
  rw [n]
  dsimp only
  omega

/-- No index is past the buffer while every read comes in one of the iterations that the rate
leaves it samples for; so it is if the rate is never lowered while samples are left. Where it does
not hold to the end of an iteration, an index is past the buffer. -/
theorem run_inRange (run : (circuit true).Run past s) :
    (Held Lasts past → Held InRange past) ∧ (Held InRange past → Held LastsToEnd past) ∧
      (Held NotLowered past → Held Lasts past) := by
  refine ⟨fun held => ?_, fun held => ?_, fun held => ?_⟩
  · exact run.derive (fun _ _ _ run _ => inRange_of_lasts run) held
  · exact run.derive (fun _ _ _ run _ => lastsToEnd_of_inRange run) held
  · exact run.derive (fun _ _ _ run _ => lasts_of_notLowered run) held

instance (before : List Tick) (c : Tick) : Decidable (NotLowered before c) :=
  inferInstanceAs (Decidable (_ → _))

def start : HpsdrEp6 := ⟨[], 1, 3, .setCounter, 0, 0, 0, 0, 0, 0⟩

theorem start_reset (codec : Bool) : (circuit codec).Reset start :=
  ⟨rfl, rfl, Nat.le_refl 3, Nat.le_refl 1, by decide⟩

/-- A number of steps of `handler_ep6`, with words in the FIFO. -/
def steps (n : Nat) : List Move := List.replicate n (.handler true 8191)

theorem run_inRange_steady : Held InRange ((circuit true).trace start (steps 12)) :=
  have whole := run_inRange (run_trace (start_reset true) (steps 12))
  whole.1 (whole.2.2 (by decide +kernel))

/-- The slowest rate, set after the counter was set for the fastest. -/
def lowers : List Move := [.handler true 0, .frame ![0, 0, 0, 0, 0], .store, .store]

/-- The second iteration goes past the buffer with its ninth word. -/
theorem loweredRate_past : ¬ ∀ (past : List Tick) (s : HpsdrEp6),
    (circuit true).Run past s → Held InRange past := by
  intro claim
  have run := run_trace (start_reset true) (lowers ++ steps 537 ++ [.handler true 8191])
  have inRange := claim _ _ run
  rw [trace_snoc, held_snoc] at inRange
  exact absurd (inRange.2 512 (by decide +kernel)) (Nat.lt_irrefl 512)

end HpsdrEp6

end Switcheck
