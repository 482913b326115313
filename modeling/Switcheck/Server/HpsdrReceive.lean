import Switcheck.Server.HpsdrPayload
import Switcheck.Server.HpsdrEp6
import Switcheck.Sync.Fifo

/-!
# The receive samples of `sdr-transceiver-hpsdr`

The main loop starts and stops `handler_ep6` by two flags, and the thread takes the samples of a pass
from the RX FIFO, which it resets when it is full. A step is one access of one of them to what they
share, or a sample that the FPGA writes.
-/

namespace Switcheck

open Sync Circuit

open HpsdrKeyer (Frame)

namespace HpsdrReceive

/-- The samples of the eight receivers of one moment, as they are written to the FIFO. -/
abbrev Sample := BitVec 256

/-- The steps of the main loop: `starts` tells a start from a stop, which ends with `join`. -/
inductive MainPc where
  | recv
  | disable (starts : Bool)
  | join (starts : Bool)
  | enable
  | activate
  | create
  deriving DecidableEq

/-- The FIFO is reset before the loop and in it. -/
inductive Pc where
  | hold (first : Bool)
  | release (first : Bool)
  | top
  | size
  | full
  | waits
  | read
  | send
  | ended
  deriving DecidableEq

inductive Command where
  | frame (frame : Frame)
  | discovery
  | stop
  | start

/-- `handler_ep6`: the receivers of the pass, and the words of `data` that it has read. -/
structure Handler where
  pc : Pc
  receivers : Nat
  data : List (BitVec 32)

/-- `m * n * 16`. -/
def need (receivers : Nat) : Nat :=
  let n := 504 / (receivers * 6 + 2)
  256 / n * n * 16

end HpsdrReceive

open HpsdrReceive in
structure HpsdrReceive where
  pc : MainPc
  receivers : Nat
  enableThread : Bool
  activeThread : Bool
  /-- The threads that have not returned. -/
  threads : List Handler
  /-- Bit 0 of `rx_rst`. -/
  live : Bool
  queue : List (BitVec 32)

namespace HpsdrReceive

/-- The RX FIFO is written by samples and read by words. -/
def words : Packing Sample (BitVec 32) (BitVec 32) where
  wrLanes := 8
  rdLanes := 1
  lanes x := (List.range 8).map fun j => x.extractLsb' (32 * j) 32
  word q := q.headD 0
  lanes_length _ := rfl
  wrLanes_pos := Nat.succ_pos _
  rdLanes_pos := Nat.one_pos

def depth : Nat := 1024

def rxCntr (s : HpsdrReceive) : BitVec 16 := BitVec.ofNat 16 (words.count s.queue)

/-- `reply[2]`, which tells a client whether samples are sent. -/
def reply (s : HpsdrReceive) : Nat := 2 + s.activeThread.toNat

def receiversNext (frame : Frame) (old : Nat) : Nat :=
  (HpsdrEp6.processEp2 frame).foldl (fun old store =>
    match store with
    | .receivers value => value
    | .rate _ => old) old

def obey (s : HpsdrReceive) : Command → HpsdrReceive
  | .frame frame => { s with receivers := receiversNext frame s.receivers }
  | .discovery => s
  | .stop => { s with pc := .disable false }
  | .start => { s with pc := .disable true }

def spawned : Handler := ⟨.hold true, 0, []⟩

def main (s : HpsdrReceive) (command : Option Command) : HpsdrReceive :=
  match s.pc with
  | .recv => command.elim s s.obey
  | .disable starts => { s with enableThread := false, pc := .join starts }
  | .join starts =>
    if s.activeThread then s else { s with pc := if starts then .enable else .recv }
  | .enable => { s with enableThread := true, pc := .activate }
  | .activate => { s with activeThread := true, pc := .create }
  | .create => { s with threads := s.threads ++ [spawned], pc := .recv }

/-- A step of a thread, and the thread unless it returns; `adcFull` is what the loop finds of the
FIFO of the codec. -/
def handler (s : HpsdrReceive) (t : Handler) (adcFull : Bool) : HpsdrReceive × Option Handler :=
  match t.pc with
  | .hold first => ({ s with live := false, queue := [] }, some { t with pc := .release first })
  | .release first =>
    ({ s with live := true }, some { t with pc := if first then .top else .waits })
  | .top => (s, some { t with pc := if s.enableThread then .size else .ended })
  | .size => (s, some { t with receivers := s.receivers, pc := .full })
  | .full =>
    (s, some { t with pc :=
      if adcFull || decide (s.rxCntr.toNat ≥ 8192) then .hold false else .waits })
  | .waits =>
    (s, some { t with pc := if s.rxCntr.toNat < need t.receivers then .waits else .read })
  | .read =>
    if t.data.length < need t.receivers then
      ({ s with queue := s.queue.tail }, some { t with data := t.data ++ [s.queue.headD 0] })
    else (s, some { t with pc := .send })
  | .send => (s, some { t with pc := .top, data := [] })
  | .ended => ({ s with activeThread := false }, none)

inductive Move where
  | main (command : Option Command)
  | handler (k : Nat) (adcFull : Bool)
  | sample (x : Sample)

def step (s : HpsdrReceive) : Move → HpsdrReceive
  | .main command => s.main command
  | .handler k adcFull =>
    match s.threads[k]? with
    | none => s
    | some t =>
      let (s', t') := s.handler t adcFull
      { s' with threads := t'.elim (s.threads.eraseIdx k) (s.threads.set k) }
  | .sample x => { s with queue := s.queue ++ words.pushed depth s.queue s.live x }

def circuit : Circuit HpsdrReceive Move where
  Reset s := s.pc = .recv ∧ s.enableThread = false ∧ s.activeThread = false ∧ s.threads = [] ∧
    s.queue = []
  tick := step

abbrev Tick := Clock HpsdrReceive Move

/-! ### What a run takes and sends -/

def accepted (c : Tick) : List Sample :=
  match c.pins with
  | .sample x =>
    if c.regs.live = true ∧ words.full depth c.regs.queue = false then [x] else []
  | _ => []

/-- The receivers of a pass that is sent, and the words that it has taken. -/
def sent (c : Tick) : List (Nat × List (BitVec 32)) :=
  match c.pins with
  | .handler k _ =>
    match c.regs.threads[k]? with
    | some t => if t.pc = .send then [(t.receivers, t.data)] else []
    | none => []
  | _ => []

def spread (xs : List Sample) : List (BitVec 32) := xs.flatMap words.lanes

/-- Each pass is a block of samples that follow each other, and the blocks are in order. -/
def Blocks (passes : List (Nat × List (BitVec 32))) (samples : List Sample) : Prop :=
  ∃ blocks : List (List Sample), blocks.flatten.Sublist samples ∧
    List.Forall₂ (fun pass block => pass.2 = spread block ∧
      32 * block.length = HpsdrPayload.taking pass.1 ∧ block <:+: samples) passes blocks

variable {past : List Tick} {s : HpsdrReceive} {i : Move} {t : Handler}

/-! ### One thread -/

inductive Phase (s : HpsdrReceive) : Prop where
  | quiet : (s.pc = .recv ∨ (∃ b, s.pc = .disable b) ∨ (∃ b, s.pc = .join b) ∨ s.pc = .enable) →
      s.enableThread = false → s.activeThread = false → s.threads = [] → Phase s
  | enables : s.pc = .activate → s.enableThread = true → s.activeThread = false →
      s.threads = [] → Phase s
  | starts : s.pc = .create → s.enableThread = true → s.activeThread = true →
      s.threads = [] → Phase s
  | runs (t : Handler) : (s.pc = .recv ∨ ∃ b, s.pc = .disable b) → s.enableThread = true →
      s.activeThread = true → s.threads = [t] → t.pc ≠ .ended → Phase s
  | stops (t : Handler) (b : Bool) : s.pc = .join b → s.enableThread = false →
      s.activeThread = true → s.threads = [t] → Phase s

theorem phase_main (phase : Phase s) (command : Option Command) : Phase (s.main command) := by
  have obeys (pc : s.pc = .recv) (keep : ∀ s' : HpsdrReceive, (s'.pc = .recv ∨ ∃ b, s'.pc = .disable b) →
      s'.enableThread = s.enableThread → s'.activeThread = s.activeThread →
      s'.threads = s.threads → Phase s') : Phase (s.main command) := by
    rw [main, pc]
    cases command with
    | none => exact phase
    | some command =>
      cases command with
      | frame frame => exact keep _ (.inl pc) rfl rfl rfl
      | discovery => exact phase
      | stop => exact keep _ (.inr ⟨false, rfl⟩) rfl rfl rfl
      | start => exact keep _ (.inr ⟨true, rfl⟩) rfl rfl rfl
  cases phase with
  | quiet at_pc off idle none =>
    rcases at_pc with pc | ⟨b, pc⟩ | ⟨b, pc⟩ | pc
    · refine obeys pc fun s' pc' same same' same'' => ?_
      refine .quiet ?_ (same.trans off) (same'.trans idle) (same''.trans none)
      exact pc'.elim .inl fun disables => .inr (.inl disables)
    · rw [main, pc]
      exact .quiet (.inr (.inr (.inl ⟨b, rfl⟩))) rfl idle none
    · rw [main, pc]
      dsimp only
      rw [idle, if_neg Bool.false_ne_true]
      cases b with
      | false => exact .quiet (.inl rfl) off rfl none
      | true => exact .quiet (.inr (.inr (.inr rfl))) off rfl none
    · rw [main, pc]
      exact .enables rfl rfl idle none
  | enables pc on idle none =>
    rw [main, pc]
    exact .starts rfl on rfl none
  | starts pc on active none =>
    rw [main, pc]
    refine .runs spawned (.inl rfl) on active ?_ (fun ended => by cases ended)
    show s.threads ++ [spawned] = [spawned]
    rw [none]
    rfl
  | runs t at_pc on active one running =>
    rcases at_pc with pc | ⟨b, pc⟩
    · refine obeys pc fun s' pc' same same' same'' => ?_
      exact .runs t pc' (same.trans on) (same'.trans active) (same''.trans one) running
    · rw [main, pc]
      exact .stops t b rfl rfl active one
  | stops t b pc off active one =>
    rw [main, pc]
    dsimp only
    rw [active, if_pos rfl]
    exact .stops t b pc off active one

theorem step_none {k : Nat} {adcFull : Bool} (none : s.threads[k]? = none) :
    s.step (.handler k adcFull) = s := by
  simp [step, none]

theorem step_one {adcFull : Bool} (one : s.threads = [t]) : s.step (.handler 0 adcFull) =
    { (s.handler t adcFull).1 with threads := (s.handler t adcFull).2.toList } := by
  have front : s.threads[0]? = some t := by simp [one]
  rw [step]
  dsimp only
  rw [front]
  cases next : (s.handler t adcFull).2 <;> simp [next, one]

def Rests (t : Handler) : Prop := t.pc ≠ .read ∧ t.pc ≠ .send

inductive Handled (s : HpsdrReceive) (t : Handler) : HpsdrReceive × Option Handler → Prop where
  | holds (first : Bool) : t.pc = .hold first →
      Handled s t ({ s with live := false, queue := [] }, some { t with pc := .release first })
  | releases (t' : Handler) : Rests t → Rests t' → t.pc ≠ .ended → t'.pc ≠ .ended →
      t'.data = t.data → Handled s t ({ s with live := true }, some t')
  | moves (t' : Handler) : Rests t → Rests t' → t.pc ≠ .ended →
      (t'.pc = .ended → s.enableThread = false) → t'.data = t.data → Handled s t (s, some t')
  | begins : t.pc = .waits → need t.receivers ≤ s.rxCntr.toNat →
      Handled s t (s, some { t with pc := .read })
  | reads : t.pc = .read → t.data.length < need t.receivers →
      Handled s t
        ({ s with queue := s.queue.tail }, some { t with data := t.data ++ [s.queue.headD 0] })
  | fills : t.pc = .read → need t.receivers ≤ t.data.length →
      Handled s t (s, some { t with pc := .send })
  | sends : t.pc = .send → Handled s t (s, some { t with pc := .top, data := [] })
  | returns : t.pc = .ended → Handled s t ({ s with activeThread := false }, none)

theorem handled (s : HpsdrReceive) (t : Handler) (adcFull : Bool) :
    Handled s t (s.handler t adcFull) := by
  have rests {pc : Pc} (at_pc : t.pc = pc) (other : pc ≠ .read) (other' : pc ≠ .send) : Rests t :=
    ⟨at_pc ▸ other, at_pc ▸ other'⟩
  unfold handler
  split
  · rename_i first pc
    exact .holds first pc
  · rename_i first pc
    refine .releases _ (rests pc (by simp) (by simp)) ?_ (by simp [pc]) ?_ rfl
    · cases first <;> exact ⟨by simp, by simp⟩
    · cases first <;> simp
  · rename_i pc
    refine .moves _ (rests pc (by simp) (by simp)) ?_ (by simp [pc]) (fun ended => ?_) rfl
    · cases s.enableThread <;> exact ⟨by simp, by simp⟩
    · cases on : s.enableThread with
      | false => rfl
      | true => simp [on] at ended
  · rename_i pc
    exact .moves _ (rests pc (by simp) (by simp)) ⟨by simp, by simp⟩ (by simp [pc])
      (fun ended => by cases ended) rfl
  · rename_i pc
    refine .moves _ (rests pc (by simp) (by simp)) ?_ (by simp [pc]) (fun ended => ?_) rfl
    · refine ⟨?_, ?_⟩ <;> dsimp only <;> split <;> simp
    · dsimp only at ended
      split at ended <;> cases ended
  · rename_i pc
    by_cases few : s.rxCntr.toNat < need t.receivers
    · rw [if_pos few]
      exact .moves _ (rests pc (by simp) (by simp)) ⟨by simp, by simp⟩ (by simp [pc])
        (fun ended => by cases ended) rfl
    · rw [if_neg few]
      exact .begins pc (Nat.le_of_not_lt few)
  · rename_i pc
    split
    · rename_i more
      exact .reads pc more
    · rename_i all
      exact .fills pc (Nat.le_of_not_lt all)
  · rename_i pc
    exact .sends pc
  · rename_i pc
    exact .returns pc

/-- A thread leaves the main loop and its flags alone until it returns. -/
theorem handler_flags (s : HpsdrReceive) (t : Handler) (adcFull : Bool) :
    (s.handler t adcFull).1.pc = s.pc ∧
      (s.handler t adcFull).1.enableThread = s.enableThread ∧
      (t.pc = .ended → (s.handler t adcFull).1.activeThread = false ∧
        (s.handler t adcFull).2 = none) ∧
      (t.pc ≠ .ended → (s.handler t adcFull).1.activeThread = s.activeThread ∧
        ∃ t', (s.handler t adcFull).2 = some t' ∧
          (t'.pc = .ended → s.enableThread = false)) := by
  have step := handled s t adcFull
  generalize s.handler t adcFull = next at step
  cases step with
  | holds first pc =>
    exact ⟨rfl, rfl, by simp [pc], fun _ => ⟨rfl, _, rfl, fun ended => by cases ended⟩⟩
  | releases t' rests rests' other other' =>
    exact ⟨rfl, rfl, fun ended => absurd ended other,
      fun _ => ⟨rfl, t', rfl, fun ended => absurd ended other'⟩⟩
  | moves t' rests rests' other ends =>
    exact ⟨rfl, rfl, fun ended => absurd ended other, fun _ => ⟨rfl, t', rfl, ends⟩⟩
  | begins pc | fills pc | sends pc =>
    exact ⟨rfl, rfl, by simp [pc], fun _ => ⟨rfl, _, rfl, fun ended => by cases ended⟩⟩
  | reads pc =>
    refine ⟨rfl, rfl, by simp [pc], fun _ => ⟨rfl, _, rfl, fun ended => ?_⟩⟩
    exact absurd (pc.symm.trans ended) (by decide)
  | returns pc => exact ⟨rfl, rfl, fun _ => ⟨rfl, rfl⟩, fun other => absurd pc other⟩

theorem phase_handler (phase : Phase s) (k : Nat) (adcFull : Bool) :
    Phase (s.step (.handler k adcFull)) := by
  cases phase with
  | quiet at_pc off idle none =>
    rw [step_none (by simp [none])]
    exact .quiet at_pc off idle none
  | enables pc on idle none =>
    rw [step_none (by simp [none])]
    exact .enables pc on idle none
  | starts pc on active none =>
    rw [step_none (by simp [none])]
    exact .starts pc on active none
  | runs t at_pc on active one running =>
    cases k with
    | succ k =>
      rw [step_none (by simp [one])]
      exact .runs t at_pc on active one running
    | zero =>
      obtain ⟨same, same', -, goes⟩ := handler_flags s t adcFull
      obtain ⟨still, t', next, ends⟩ := goes running
      rw [step_one one, next]
      refine .runs t' ?_ (same'.trans on) (still.trans active) rfl fun ended => ?_
      · rcases at_pc with pc | ⟨b, pc⟩
        · exact .inl (same.trans pc)
        · exact .inr ⟨b, same.trans pc⟩
      · exact absurd ((ends ended).symm.trans on) (by decide)
  | stops t b pc off active one =>
    cases k with
    | succ k =>
      rw [step_none (by simp [one])]
      exact .stops t b pc off active one
    | zero =>
      obtain ⟨same, same', returns, goes⟩ := handler_flags s t adcFull
      rw [step_one one]
      by_cases ended : t.pc = .ended
      · obtain ⟨idle, none⟩ := returns ended
        rw [none]
        exact .quiet (.inr (.inr (.inl ⟨b, same.trans pc⟩))) (same'.trans off) idle rfl
      · obtain ⟨still, t', next, -⟩ := goes ended
        rw [next]
        exact .stops t' b (same.trans pc) (same'.trans off) (still.trans active) rfl

theorem run_phase (run : circuit.Run past s) : Phase s := by
  induction run with
  | reset start =>
    obtain ⟨pc, off, idle, none, -⟩ := start
    exact .quiet (.inl pc) off idle none
  | @tick past s run i phase =>
    cases i with
    | main command => exact phase_main phase command
    | handler k adcFull => exact phase_handler phase k adcFull
    | sample x =>
      cases phase with
      | quiet at_pc off idle none => exact .quiet at_pc off idle none
      | enables pc on idle none => exact .enables pc on idle none
      | starts pc on active none => exact .starts pc on active none
      | runs t at_pc on active one running => exact .runs t at_pc on active one running
      | stops t b pc off active one => exact .stops t b pc off active one

/-! ### The samples of a pass -/

theorem spread_length (xs : List Sample) : (spread xs).length = 8 * xs.length := by
  induction xs with
  | nil => rfl
  | cons x xs ih =>
    rw [spread, List.flatMap_cons, List.length_append, ← spread, ih, words.lanes_length,
      List.length_cons, Nat.mul_succ, Nat.add_comm]
    rfl

theorem spread_append (xs ys : List Sample) : spread (xs ++ ys) = spread xs ++ spread ys :=
  List.flatMap_append

theorem Blocks.grow {passes : List (Nat × List (BitVec 32))} {samples : List Sample}
    (blocks : Blocks passes samples) (more : List Sample) : Blocks passes (samples ++ more) := by
  obtain ⟨parts, order, each⟩ := blocks
  refine ⟨parts, order.trans (List.sublist_append_left _ _), each.imp ?_⟩
  exact fun pass block ⟨data, size, inside⟩ =>
    ⟨data, size, inside.trans (List.prefix_append _ _).isInfix⟩

theorem Blocks.next {passes : List (Nat × List (BitVec 32))} {samples block : List Sample}
    {receivers : Nat} (blocks : Blocks passes samples)
    (size : 32 * block.length = HpsdrPayload.taking receivers) :
    Blocks (passes ++ [(receivers, spread block)]) (samples ++ block) := by
  obtain ⟨parts, order, each⟩ := blocks.grow block
  obtain ⟨parts', order', each'⟩ := blocks
  refine ⟨parts' ++ [block], ?_, ?_⟩
  · rw [List.flatten_append, List.flatten_singleton]
    exact order'.append (List.Sublist.refl _)
  · refine List.rel_append (each'.imp ?_) ?_
    · exact fun pass block ⟨data, size, inside⟩ =>
        ⟨data, size, inside.trans (List.prefix_append _ _).isInfix⟩
    · exact .cons ⟨rfl, size, (List.suffix_append _ _).isInfix⟩ .nil

/-- The words that a thread has read and those in the FIFO are those of the last samples accepted,
behind the samples that have been sent or cleared away. -/
structure Inv (past : List Tick) (s : HpsdrReceive) : Prop where
  capacity : s.queue.length ≤ 8192
  rests : ∀ t ∈ s.threads, Rests t → t.data = []
  reads : ∀ t ∈ s.threads, t.pc = .read → t.data.length ≤ need t.receivers ∧
    need t.receivers ≤ t.data.length + s.queue.length
  sends : ∀ t ∈ s.threads, t.pc = .send → t.data.length = need t.receivers
  parts : ∃ gone kept, past.flatMap accepted = gone ++ kept ∧
    spread kept = s.threads.flatMap (·.data) ++ s.queue ∧ Blocks (past.flatMap sent) gone

theorem rxCntr_toNat (fits : s.queue.length ≤ 8192) : s.rxCntr.toNat = s.queue.length := by
  have count : words.count s.queue = s.queue.length := Nat.div_one _
  rw [rxCntr, BitVec.toNat_ofNat, count, Nat.mod_eq_of_lt (Nat.lt_of_le_of_lt fits (by decide))]

/-- A step that takes no sample and sends none leaves the samples in their parts. -/
theorem Inv.silent {s' : HpsdrReceive} {c : Tick} (inv : Inv past s) (none : accepted c = [])
    (silent : sent c = []) (same : s'.threads.flatMap (·.data) ++ s'.queue =
      s.threads.flatMap (·.data) ++ s.queue) :
    ∃ gone kept, (past ++ [c]).flatMap accepted = gone ++ kept ∧
      spread kept = s'.threads.flatMap (·.data) ++ s'.queue ∧
      Blocks ((past ++ [c]).flatMap sent) gone := by
  obtain ⟨gone, kept, all, spreads, blocks⟩ := inv.parts
  refine ⟨gone, kept, ?_, spreads.trans same.symm, ?_⟩
  · rw [flatMap_snoc, none, List.append_nil, all]
  · rw [flatMap_snoc, silent, List.append_nil]
    exact blocks

theorem inv_main (inv : Inv past s) (command : Option Command) :
    Inv (past ++ [⟨s, .main command⟩]) (s.main command) := by
  have keep {s' : HpsdrReceive} (queue : s'.queue = s.queue) (threads : s'.threads = s.threads) :
      Inv (past ++ [⟨s, .main command⟩]) s' := by
    refine ⟨queue ▸ inv.capacity, threads ▸ inv.rests, ?_, threads ▸ inv.sends,
      inv.silent rfl rfl (by rw [threads, queue])⟩
    rw [threads, queue]
    exact inv.reads
  unfold main
  split
  · cases command with
    | none => exact keep rfl rfl
    | some command => cases command <;> exact keep rfl rfl
  · exact keep rfl rfl
  · split
    · exact keep rfl rfl
    · exact keep rfl rfl
  · exact keep rfl rfl
  · exact keep rfl rfl
  · have resting : Rests spawned := ⟨by simp [spawned], by simp [spawned]⟩
    refine ⟨inv.capacity, ?_, ?_, ?_, inv.silent rfl rfl (by simp [spawned])⟩
    · intro t member rest
      rcases List.mem_append.mp member with old | new
      · exact inv.rests t old rest
      · rw [List.mem_singleton.mp new]
        rfl
    · intro t member pc
      rcases List.mem_append.mp member with old | new
      · exact inv.reads t old pc
      · rw [List.mem_singleton.mp new] at pc
        exact absurd pc resting.1
    · intro t member pc
      rcases List.mem_append.mp member with old | new
      · exact inv.sends t old pc
      · rw [List.mem_singleton.mp new] at pc
        exact absurd pc resting.2

theorem pushed_eq (x : Sample) : words.pushed depth s.queue s.live x =
    spread (accepted ⟨s, .sample x⟩) := by
  unfold Packing.pushed accepted
  cases s.live <;> cases words.full depth s.queue <;> simp [spread]

theorem inv_sample (inv : Inv past s) (x : Sample) :
    Inv (past ++ [⟨s, .sample x⟩]) (s.step (.sample x)) := by
  obtain ⟨capacity, rests, reads, sends, gone, kept, all, spreads, blocks⟩ := inv
  refine ⟨?_, rests, fun t member pc => ?_, sends, gone,
    kept ++ accepted ⟨s, .sample x⟩, ?_, ?_, ?_⟩
  · have fits := @Packing.next_length_le _ _ _ words depth _ s.live x false capacity
    rw [Packing.next, words.popped_length, if_neg (fun both => Bool.false_ne_true both.1)] at fits
    exact fits
  · obtain ⟨less, enough⟩ := reads t member pc
    refine ⟨less, enough.trans ?_⟩
    show t.data.length + s.queue.length ≤ t.data.length + (s.queue ++ _).length
    rw [List.length_append]
    omega
  · rw [flatMap_snoc, all, List.append_assoc]
  · show _ = s.threads.flatMap (·.data) ++ (s.queue ++ words.pushed depth s.queue s.live x)
    rw [spread_append, spreads, pushed_eq, List.append_assoc]
  · rw [flatMap_snoc]
    exact (List.append_nil (past.flatMap sent)).symm ▸ blocks

theorem sent_one {adcFull : Bool} (one : s.threads = [t]) : sent ⟨s, .handler 0 adcFull⟩ =
    if t.pc = .send then [(t.receivers, t.data)] else [] := by
  simp [sent, one]

theorem Inv.onward {s' : HpsdrReceive} {t' : Handler} {adcFull : Bool} (inv : Inv past s)
    (one : s.threads = [t]) (silent : t.pc ≠ .send) (one' : s'.threads = [t'])
    (capacity : s'.queue.length ≤ 8192) (rests : Rests t' → t'.data = [])
    (reads : t'.pc = .read → t'.data.length ≤ need t'.receivers ∧
      need t'.receivers ≤ t'.data.length + s'.queue.length)
    (sends : t'.pc = .send → t'.data.length = need t'.receivers)
    (same : t'.data ++ s'.queue = t.data ++ s.queue) :
    Inv (past ++ [⟨s, .handler 0 adcFull⟩]) s' := by
  have nothing : sent ⟨s, .handler 0 adcFull⟩ = [] := by rw [sent_one one, if_neg silent]
  refine ⟨capacity, ?_, ?_, ?_, inv.silent rfl nothing (by simp [one, one', same])⟩
  · simpa [one'] using rests
  · simpa [one'] using reads
  · simpa [one'] using sends

theorem take_spread (n : Nat) (xs : List Sample) :
    (spread xs).take (8 * n) = spread (xs.take n) ∧ (spread xs).drop (8 * n) = spread (xs.drop n) := by
  by_cases short : n ≤ xs.length
  · have parts : spread (xs.take n) ++ spread (xs.drop n) = spread xs := by
      rw [← spread_append, List.take_append_drop]
    have length : (spread (xs.take n)).length = 8 * n := by
      rw [spread_length, List.length_take_of_le short]
    rw [← parts, ← length]
    exact ⟨List.take_left, List.drop_left⟩
  · have long : (spread xs).length ≤ 8 * n := by
      rw [spread_length]
      omega
    rw [List.take_of_length_le long, List.drop_eq_nil_of_le long,
      List.take_of_length_le (Nat.le_of_not_le short),
      List.drop_eq_nil_of_le (Nat.le_of_not_le short)]
    exact ⟨rfl, rfl⟩

theorem need_eight (receivers : Nat) : 8 ∣ need receivers :=
  Nat.dvd_mul_left_of_dvd (by decide) _

/-- The bytes of a pass are those of its words. -/
theorem taking_eq (receivers : Nat) : HpsdrPayload.taking receivers = 4 * need receivers := by
  unfold HpsdrPayload.taking need
  dsimp only
  omega

theorem inv_sends {adcFull : Bool} (inv : Inv past s) (one : s.threads = [t]) (pc : t.pc = .send) :
    Inv (past ++ [⟨s, .handler 0 adcFull⟩])
      { s with threads := [{ t with pc := .top, data := [] }] } := by
  obtain ⟨capacity, -, -, sends, gone, kept, all, spreads, blocks⟩ := inv
  have whole := sends t (by simp [one]) pc
  obtain ⟨n, size⟩ := need_eight t.receivers
  rw [one, List.flatMap_singleton] at spreads
  obtain ⟨taken, left⟩ := take_spread n kept
  rw [spreads, ← size, ← whole, List.take_left] at taken
  rw [spreads, ← size, ← whole, List.drop_left] at left
  have enough : n ≤ kept.length := by
    have lengths := congrArg List.length spreads
    rw [spread_length, List.length_append, whole, size] at lengths
    omega
  refine ⟨capacity, by simp, by simp, by simp, gone ++ kept.take n, kept.drop n, ?_, ?_, ?_⟩
  · rw [flatMap_snoc, List.append_assoc, List.take_append_drop]
    exact (List.append_nil _).trans all
  · rw [← left]
    simp
  · rw [flatMap_snoc, sent_one one, if_pos pc, taken]
    refine blocks.next ?_
    rw [List.length_take_of_le enough, taking_eq, size]
    omega

theorem inv_holds {adcFull first : Bool} (inv : Inv past s) (one : s.threads = [t])
    (pc : t.pc = .hold first) : Inv (past ++ [⟨s, .handler 0 adcFull⟩])
      { s with live := false, queue := [], threads := [{ t with pc := .release first }] } := by
  obtain ⟨-, rests, -, -, gone, kept, all, spreads, blocks⟩ := inv
  have none : t.data = [] := rests t (by simp [one]) ⟨by simp [pc], by simp [pc]⟩
  refine ⟨Nat.zero_le _, by simp [none], by simp, by simp, gone ++ kept, [], ?_, ?_, ?_⟩
  · rw [flatMap_snoc, List.append_nil]
    exact (List.append_nil _).trans all
  · simp [none, spread]
  · rw [flatMap_snoc, sent_one one, if_neg (by simp [pc]), List.append_nil]
    exact blocks.grow kept

theorem inv_begins {adcFull : Bool} (inv : Inv past s) (one : s.threads = [t]) (pc : t.pc = .waits)
    (enough : need t.receivers ≤ s.rxCntr.toNat) : Inv (past ++ [⟨s, .handler 0 adcFull⟩])
      { s with threads := [{ t with pc := .read }] } := by
  have none : t.data = [] := inv.rests t (by simp [one]) ⟨by simp [pc], by simp [pc]⟩
  rw [rxCntr_toNat inv.capacity] at enough
  refine inv.onward one (by simp [pc]) rfl inv.capacity (fun rests => absurd rfl rests.1)
    (fun _ => ?_) (fun pc => by cases pc) rfl
  rw [none]
  refine ⟨Nat.zero_le _, ?_⟩
  show need t.receivers ≤ 0 + s.queue.length
  omega

theorem inv_reads {adcFull : Bool} (inv : Inv past s) (one : s.threads = [t]) (pc : t.pc = .read)
    (more : t.data.length < need t.receivers) : Inv (past ++ [⟨s, .handler 0 adcFull⟩])
      { s with queue := s.queue.tail
               threads := [{ t with data := t.data ++ [s.queue.headD 0] }] } := by
  obtain ⟨less, enough⟩ := inv.reads t (by simp [one]) pc
  have capacity := inv.capacity
  cases queue : s.queue with
  | nil =>
    -- the thread reads only what it has found in the FIFO
    rw [queue, List.length_nil] at enough
    omega
  | cons w rest =>
    rw [queue, List.length_cons] at enough capacity
    refine inv.onward one (by simp [pc]) rfl (Nat.le_of_succ_le capacity)
      (fun rests => absurd pc rests.1) (fun _ => ?_)
      (fun other => absurd (pc.symm.trans other) (by decide)) (by simp [queue])
    simp only [List.length_append, List.length_singleton, List.tail_cons]
    omega

theorem inv_returns {adcFull : Bool} (inv : Inv past s) (one : s.threads = [t])
    (pc : t.pc = .ended) : Inv (past ++ [⟨s, .handler 0 adcFull⟩])
      { s with activeThread := false, threads := [] } := by
  have none : t.data = [] := inv.rests t (by simp [one]) ⟨by simp [pc], by simp [pc]⟩
  have nothing : sent ⟨s, .handler 0 adcFull⟩ = [] := by
    rw [sent_one one, if_neg (by simp [pc])]
  exact ⟨inv.capacity, by simp, by simp, by simp, inv.silent rfl nothing (by simp [one, none])⟩

theorem inv_handler (inv : Inv past s) (phase : Phase s) (k : Nat) (adcFull : Bool) :
    Inv (past ++ [⟨s, .handler k adcFull⟩]) (s.step (.handler k adcFull)) := by
  have still (none : s.threads[k]? = none) :
      Inv (past ++ [⟨s, .handler k adcFull⟩]) (s.step (.handler k adcFull)) := by
    have nothing : sent ⟨s, .handler k adcFull⟩ = [] := by simp [sent, none]
    rw [step_none none]
    exact ⟨inv.capacity, inv.rests, inv.reads, inv.sends, inv.silent rfl nothing rfl⟩
  have alone : s.threads = [] ∨ ∃ t, s.threads = [t] := by
    cases phase with
    | quiet _ _ _ none | enables _ _ _ none | starts _ _ _ none => exact .inl none
    | runs t _ _ _ one | stops t _ _ _ _ one => exact .inr ⟨t, one⟩
  rcases alone with none | ⟨t, one⟩
  · exact still (by simp [none])
  · cases k with
    | succ k => exact still (by simp [one])
    | zero =>
      have member : t ∈ s.threads := by simp [one]
      have step := handled s t adcFull
      rw [step_one one]
      generalize s.handler t adcFull = next at step
      cases step with
      | holds first pc => exact inv_holds inv one pc
      | releases t' rests rests' _ _ same =>
        exact inv.onward one rests.2 rfl inv.capacity (fun _ => same.trans (inv.rests t member rests))
          (fun pc => absurd pc rests'.1) (fun pc => absurd pc rests'.2) (by rw [same])
      | moves t' rests rests' _ _ same =>
        exact inv.onward one rests.2 rfl inv.capacity (fun _ => same.trans (inv.rests t member rests))
          (fun pc => absurd pc rests'.1) (fun pc => absurd pc rests'.2) (by rw [same])
      | begins pc enough => exact inv_begins inv one pc enough
      | reads pc more => exact inv_reads inv one pc more
      | fills pc all =>
        obtain ⟨less, -⟩ := inv.reads t member pc
        exact inv.onward one (by simp [pc]) rfl inv.capacity (fun rests => absurd rfl rests.2)
          (fun other => by cases other) (fun _ => Nat.le_antisymm less all) rfl
      | sends pc => exact inv_sends inv one pc
      | returns pc => exact inv_returns inv one pc

theorem run_inv (run : circuit.Run past s) : Inv past s := by
  induction run with
  | reset start =>
    obtain ⟨-, -, -, threads, queue⟩ := start
    refine ⟨by simp [queue], by simp [threads], by simp [threads], by simp [threads], [], [], rfl,
      by simp [threads, queue, spread], [], ?_, ?_⟩
    · exact List.Sublist.refl _
    · exact .nil
  | @tick past s run i inv =>
    cases i with
    | main command => exact inv_main inv command
    | handler k adcFull => exact inv_handler inv (run_phase run) k adcFull
    | sample x => exact inv_sample inv x

/-! ### A pass comes about -/

/-- What moves make of a state, and the passes sent meanwhile. -/
structure Makes (s : HpsdrReceive) (moves : List Move) (s' : HpsdrReceive)
    (passes : List (Nat × List (BitVec 32))) : Prop where
  state : circuit.after s moves = s'
  sent : (circuit.trace s moves).flatMap sent = passes

theorem Makes.append {s' s'' : HpsdrReceive} {moves moves' : List Move}
    {passes passes' : List (Nat × List (BitVec 32))} (first : Makes s moves s' passes)
    (second : Makes s' moves' s'' passes') : Makes s (moves ++ moves') s'' (passes ++ passes') := by
  obtain ⟨rfl, rfl⟩ := first
  obtain ⟨rfl, rfl⟩ := second
  exact ⟨after_append _ _ _ _, by rw [trace_append, List.flatMap_append]⟩

theorem makes_sample (live : s.live = true) (room : s.queue.length + 8 ≤ 8192) (x : Sample) :
    Makes s [.sample x] { s with queue := s.queue ++ words.lanes x } [] ∧
      accepted ⟨s, .sample x⟩ = [x] := by
  have space : words.full depth s.queue = false := by
    have fits : ¬ depth * words.wrLanes < s.queue.length + words.wrLanes := by
      show ¬ 1024 * 8 < s.queue.length + 8
      omega
    exact decide_eq_false fits
  have takes : accepted ⟨s, .sample x⟩ = [x] := by simp [accepted, live, space]
  have pushed := pushed_eq (s := s) x
  rw [takes, spread, List.flatMap_singleton] at pushed
  refine ⟨⟨?_, rfl⟩, takes⟩
  show { s with queue := s.queue ++ words.pushed depth s.queue s.live x } = _
  rw [pushed]

theorem makes_samples (live : s.live = true) {xs : List Sample}
    (room : s.queue.length + 8 * xs.length ≤ 8192) :
    Makes s (xs.map .sample) { s with queue := s.queue ++ spread xs } [] ∧
      (circuit.trace s (xs.map .sample)).flatMap accepted = xs := by
  induction xs generalizing s with
  | nil => exact ⟨⟨by simp [after, spread], rfl⟩, rfl⟩
  | cons x xs ih =>
    rw [List.length_cons] at room
    obtain ⟨first, takes⟩ := makes_sample live (by omega) x
    obtain ⟨rest, accepts⟩ := ih (s := { s with queue := s.queue ++ words.lanes x }) live (by
      rw [List.length_append, words.lanes_length]
      show s.queue.length + 8 + 8 * xs.length ≤ 8192
      omega)
    have next : circuit.tick s (.sample x) = { s with queue := s.queue ++ words.lanes x } :=
      first.state
    refine ⟨?_, ?_⟩
    · have both := first.append rest
      rw [List.append_assoc] at both
      exact both
    · rw [List.map_cons, trace, next, List.flatMap_cons, takes, accepts]
      rfl

/-- A step of the only thread, which does not return. -/
theorem makes_step (one : s.threads = [t]) (s' : HpsdrReceive) (t' : Handler)
    (next : s.handler t false = (s', some t')) : Makes s [.handler 0 false]
      { s' with threads := [t'] } (if t.pc = .send then [(t.receivers, t.data)] else []) := by
  refine ⟨?_, ?_⟩
  · show s.step (.handler 0 false) = _
    rw [step_one one, next]
    rfl
  · have sends : sent ⟨s, .handler 0 false⟩ = _ := sent_one one
    rw [← sends]
    exact List.append_nil _

theorem makes_reads (one : s.threads = [t]) (pc : t.pc = .read) {k : Nat}
    (few : t.data.length + k ≤ need t.receivers) (stock : k ≤ s.queue.length) :
    Makes s (List.replicate k (.handler 0 false))
      { s with queue := s.queue.drop k
               threads := [{ t with data := t.data ++ s.queue.take k }] } [] := by
  induction k generalizing s t with
  | zero => exact ⟨by simp [after, ← one], rfl⟩
  | succ k ih =>
    cases queue : s.queue with
    | nil => simp [queue] at stock
    | cons w rest =>
      rw [queue, List.length_cons] at stock
      have more : t.data.length < need t.receivers := by omega
      have next : s.handler t false =
          ({ s with queue := rest }, some { t with data := t.data ++ [w] }) := by
        simp [handler, pc, more, queue]
      have first := makes_step one _ _ next
      rw [if_neg (by simp [pc])] at first
      have later := ih (s := { s with queue := rest, threads := [{ t with data := t.data ++ [w] }] })
        (t := { t with data := t.data ++ [w] }) rfl pc
        (by dsimp only; rw [List.length_append, List.length_singleton]; omega)
        (Nat.le_of_succ_le_succ stock)
      have both := first.append later
      rw [List.append_assoc] at both
      exact both

theorem accepted_steps (s : HpsdrReceive) (k : Nat) :
    (circuit.trace s (List.replicate k (.handler 0 false))).flatMap accepted = [] := by
  induction k generalizing s with
  | zero => rfl
  | succ k ih =>
    rw [List.replicate_succ, trace, List.flatMap_cons, ih]
    rfl

theorem need_le (receivers : Nat) : need receivers ≤ 4096 := by
  have whole := Nat.div_mul_le_self 256 (504 / (receivers * 6 + 2))
  unfold need
  dsimp only
  omega

/-- The samples come, and the thread takes the words it waits for and sends them. -/
def pass (receivers : Nat) (xs : List Sample) : List Move :=
  xs.map .sample ++ List.replicate (1 + (need receivers + (1 + 1))) (.handler 0 false)

/-- A thread that waits at an empty FIFO sends the samples that come as a pass. -/
theorem sends_pass (one : s.threads = [t]) (pc : t.pc = .waits) (none : t.data = [])
    (live : s.live = true) (empty : s.queue = []) {xs : List Sample}
    (whole : 8 * xs.length = need t.receivers) :
    (circuit.trace s (pass t.receivers xs)).flatMap accepted = xs ∧
      (circuit.trace s (pass t.receivers xs)).flatMap sent = [(t.receivers, spread xs)] := by
  have bound := need_le t.receivers
  obtain ⟨fills, accepts⟩ := makes_samples (s := s) live (show s.queue.length + 8 * xs.length ≤ 8192 by
    rw [empty, List.length_nil]
    omega)
  rw [empty, List.nil_append] at fills
  have length : (spread xs).length = need t.receivers := by rw [spread_length, whole]
  have count : (rxCntr { s with queue := spread xs }).toNat = need t.receivers :=
    (rxCntr_toNat (by dsimp only; omega)).trans length
  have begins := makes_step (s := { s with queue := spread xs }) one
    { s with queue := spread xs } { t with pc := .read } (by simp [handler, pc, count])
  have reads := makes_reads
    (s := { s with queue := spread xs, threads := [{ t with pc := .read }] }) rfl rfl
    (k := need t.receivers) (by simp [none]) (Nat.le_of_eq length.symm)
  have all : t.data ++ (spread xs).take (need t.receivers) = spread xs := by
    rw [none, List.nil_append, List.take_of_length_le (Nat.le_of_eq length)]
  dsimp only at reads
  rw [all] at reads
  let filled (t' : Handler) : HpsdrReceive :=
    { s with queue := (spread xs).drop (need t.receivers), threads := [t'] }
  have ends := makes_step (s := filled { t with pc := .read, data := spread xs }) rfl
    (filled { t with pc := .read, data := spread xs }) { t with pc := .send, data := spread xs }
    (by simp [handler, length])
  have sends := makes_step (s := filled { t with pc := .send, data := spread xs }) rfl
    (filled { t with pc := .send, data := spread xs }) { t with pc := .top, data := [] }
    (by simp [handler])
  rw [if_neg (by simp [pc])] at begins
  refine ⟨?_, ?_⟩
  · rw [pass, trace_append, List.flatMap_append, accepts, accepted_steps, List.append_nil]
  · have made := fills.append (begins.append (reads.append (ends.append sends)))
    simp only [← List.replicate_one, List.replicate_append_replicate] at made
    exact made.sent

/-! ### Starts, stops and passes -/

/-- At most one thread runs. While the main loop waits for a command, it tells its clients that
samples are sent exactly when one does, and none does once it has stopped. Whatever is reset and
restarted meanwhile, each pass sends samples that the FIFO has accepted one after the other, whole
and in order. -/
theorem run_receives (run : circuit.Run past s) :
    s.threads.length ≤ 1 ∧
    (s.pc = .recv → (s.reply = 3 ↔ s.threads ≠ []) ∧
      (s.enableThread = false ↔ s.threads = [])) ∧
    Blocks (past.flatMap sent) (past.flatMap accepted) := by
  refine ⟨?_, fun pc => ?_, ?_⟩
  · cases run_phase run with
    | quiet _ _ _ none | enables _ _ _ none | starts _ _ _ none => simp [none]
    | runs t _ _ _ one | stops t _ _ _ _ one => simp [one]
  · cases run_phase run with
    | quiet _ off idle none => simp [reply, off, idle, none]
    | runs t _ on active one => simp [reply, on, active, one]
    | enables at_pc | starts at_pc => simp [pc] at at_pc
    | stops t b at_pc => simp [pc] at at_pc
  · obtain ⟨gone, kept, all, -, blocks⟩ := (run_inv run).parts
    rw [all]
    exact blocks.grow kept

def start : HpsdrReceive := ⟨.recv, 1, false, false, [], true, []⟩

theorem start_reset : circuit.Reset start := ⟨rfl, rfl, rfl, rfl, rfl⟩

/-- A start, and a stop before the thread comes to its loop; a sample comes in between. -/
def startsAndStops : List Move :=
  [.main (some .start), .main none, .main none, .main none, .main none, .main none,
    .main (some .stop), .main none, .handler 0 false, .sample 5, .handler 0 false, .sample 6,
    .handler 0 false, .handler 0 false, .main none]

/-- A start, and the thread on its way to the first pass. -/
def starts : List Move :=
  .main (some .start) :: List.replicate 5 (.main none) ++ List.replicate 5 (.handler 0 false)

theorem starts_pass {xs : List Sample} (whole : 8 * xs.length = need 1) :
    (circuit.trace start (starts ++ pass 1 xs)).flatMap accepted = xs ∧
      (circuit.trace start (starts ++ pass 1 xs)).flatMap sent = [(1, spread xs)] := by
  have waits : (circuit.after start starts).threads = [⟨.waits, 1, []⟩] := rfl
  obtain ⟨accepts, sends⟩ := sends_pass waits rfl rfl rfl rfl whole
  rw [trace_append, List.flatMap_append, List.flatMap_append]
  exact ⟨accepts, sends⟩

/-- The samples of a pass for one receiver. -/
def counted : List Sample := (List.range 504).map (BitVec.ofNat 256)

theorem counted_whole : 8 * counted.length = need 1 := by
  rw [counted, List.length_map, List.length_range]
  rfl

theorem run_receives_startsAndStops :
    ((circuit.after start startsAndStops).reply = 3 ↔
      (circuit.after start startsAndStops).threads ≠ []) ∧
    (circuit.after start startsAndStops).reply = 2 ∧
    (circuit.trace start startsAndStops).flatMap accepted = [6] ∧
    Blocks [(1, spread counted)] counted := by
  have receives := run_receives (run_trace start_reset startsAndStops)
  refine ⟨(receives.2.1 (by decide +kernel)).1, by decide +kernel, by decide +kernel, ?_⟩
  have blocks := (run_receives (run_trace start_reset (starts ++ pass 1 counted))).2.2
  rwa [(starts_pass counted_whole).1, (starts_pass counted_whole).2] at blocks

end HpsdrReceive

end Switcheck
