import Switcheck.Server.HpsdrKeyer
import Switcheck.Sync.ResetFifo

/-!
# The transmit samples of `sdr-transceiver-hpsdr`

The main loop writes the samples of a datagram to the TX FIFO, two words each. The FPGA reads whole
samples; the keyer resets the FIFO when it hands the transmitter back. A step is one access of one of
them to what they share.
-/

namespace Switcheck

open Sync Circuit

open HpsdrKeyer (Frame processEp2)

namespace HpsdrTransmit

inductive Pc where
  | recv
  | room
  | empty
  | fill
  | ptt
  | words
  deriving DecidableEq

abbrev Buffer := Nat → BitVec 8

/-- A sample of the transmitter: the envelope, and I and Q. -/
abbrev Sample := BitVec 32 × BitVec 32

end HpsdrTransmit

open HpsdrTransmit in
structure HpsdrTransmit where
  keyer : HpsdrKeyer
  pc : Pc
  buffer : Buffer
  txEerData : BitVec 8
  /-- What the loop has still to write. -/
  todo : List (BitVec 32)
  queue : List (BitVec 32)

namespace HpsdrTransmit

/-- `*(uint32_t *)(buffer[i] + k)`. -/
def word (buffer : Buffer) (k : Nat) : BitVec 32 :=
  buffer (k + 3) ++ buffer (k + 2) ++ buffer (k + 1) ++ buffer k

def frame (buffer : Buffer) (k : Nat) : Frame := fun j => buffer (k + j)

def half (buffer : Buffer) (eer : Bool) (first : Nat) : List Sample :=
  (List.range 63).map fun j =>
    (if eer then word buffer (first + 8 * j) else 0, word buffer (first + 4 + 8 * j))

def silence (n : Nat) : List Sample := List.replicate n (0, 0)

/-- The samples of a datagram: silence unless the transmitter is keyed. -/
def samples (s : HpsdrTransmit) (ptt : Bool) : List Sample :=
  if ptt then
    half s.buffer (s.txEerData != 0) 16 ++ half s.buffer (s.txEerData != 0) 528
  else silence 126

def spread (samples : List Sample) : List (BitVec 32) := samples.flatMap fun x => [x.1, x.2]

/-- The TX FIFO reads two words at a time. -/
def pair : Packing (BitVec 32) (BitVec 32) Sample :=
  { Packing.single 0 with
    rdLanes := 2
    word := fun q => (q.getD 0 0, q.getD 1 0)
    rdLanes_pos := Nat.two_pos }

def depth : Nat := 4096

/-- `tx_eer_data = frame[2] & 1`, for the frame from `buffer[i] + k` on. -/
def eerNext (buffer : Buffer) (k : Nat) (old : BitVec 8) : BitVec 8 :=
  match (buffer k).toNat with
  | 0 | 1 => buffer (k + 2) &&& 1
  | _ => old

section

variable (s : HpsdrTransmit)

/-- Bit 0 of `tx_rst` is the reset of the FIFO. -/
def released : Bool := s.keyer.keyer.vars.txRst.getLsbD 0

def fifo : ResetFifo (BitVec 32) := ⟨s.released, s.queue⟩

def txCntr : BitVec 16 := BitVec.ofNat 16 (pair.wrCount s.queue)

/-- The two frames of the datagram are processed, and the next one is awaited. -/
def frames (codec : Bool) : HpsdrTransmit :=
  { s with
    pc := .recv
    keyer := (s.keyer.step codec (.frame (frame s.buffer 11))).step codec
      (.frame (frame s.buffer 523))
    txEerData := eerNext s.buffer 523 (eerNext s.buffer 11 s.txEerData) }

/-- `*fifo = w`. -/
def put (w : BitVec 32) : HpsdrTransmit :=
  { s with queue := s.queue ++ pair.pushed depth s.queue s.released w }

end

/-- What a step meets: a datagram with samples, if one has come, and what `*gpio_out` and `*gpio_in`
say of the key. -/
structure Access where
  datagram : Option Buffer
  ptt : Bool

def server (codec : Bool) (s : HpsdrTransmit) (i : Access) : HpsdrTransmit :=
  match s.pc with
  | .recv =>
    -- the stores of the last frames come first
    if s.keyer.stores.isEmpty then
      i.datagram.elim s fun buffer =>
        if s.keyer.keyer.vars.txMuxData = 0 then { s with buffer := buffer, pc := .room }
        else { s with buffer := buffer }.frames codec
    else s
  | .room => if s.txCntr.toNat > 3844 then s else { s with pc := .empty }
  | .empty =>
    if s.txCntr = 0 then { s with pc := .fill, todo := spread (silence 1260) }
    else { s with pc := .ptt }
  | .fill =>
    match s.todo with
    | [] => { s with pc := .ptt }
    | w :: rest => { s.put w with todo := rest }
  | .ptt => { s with pc := .words, todo := spread (s.samples i.ptt) }
  | .words =>
    match s.todo with
    | [] => s.frames codec
    | w :: rest => { s.put w with todo := rest }

inductive Move where
  | server (i : Access)
  | store
  | keyer (gpioIn : BitVec 8)
  | read

/-- A FIFO in reset is empty. -/
def step (codec : Bool) (s : HpsdrTransmit) : Move → HpsdrTransmit
  | .server i => s.server codec i
  | .store => { s with keyer := s.keyer.step codec .store }
  | .keyer gpioIn =>
    let keyer := s.keyer.step codec (.keyer gpioIn)
    { s with keyer := keyer, queue := if keyer.keyer.vars.txRst.getLsbD 0 then s.queue else [] }
  | .read => { s with queue := s.queue.drop (pair.popped s.queue true).length }

def circuit (codec : Bool) : Circuit HpsdrTransmit Move where
  Reset s := s.keyer = HpsdrKeyer.start ∧ s.pc = .recv ∧ s.todo = [] ∧ s.queue = []
  tick := step codec

abbrev Tick := Clock HpsdrTransmit Move

/-! ### What a run writes and reads -/

def written (c : Tick) : List (BitVec 32) :=
  match c.pins with
  | .server _ => if c.regs.pc = .fill ∨ c.regs.pc = .words then c.regs.todo.take 1 else []
  | _ => []

/-- The samples that the loop sets out to write. -/
def begun (c : Tick) : List Sample :=
  match c.pins, c.regs.pc with
  | .server _, .empty => if c.regs.txCntr = 0 then silence 1260 else []
  | .server i, .ptt => c.regs.samples i.ptt
  | _, _ => []

/-- The sample that the FPGA reads; it is zero while there is none. -/
def sent (c : Tick) : List Sample :=
  match c.pins with
  | .read => if 0 < pair.count c.regs.queue then [pair.dout c.regs.queue] else []
  | _ => []

def NeverFull (_ : List Tick) (c : Tick) : Prop :=
  written c ≠ [] → pair.full depth c.regs.queue = false

/-- The keyer lets the FIFO go while the loop is not between the words of a sample. -/
def ReleasesBetween (codec : Bool) (_ : List Tick) (c : Tick) : Prop :=
  c.regs.released = false → (c.regs.step codec c.pins).released = true → 2 ∣ c.regs.todo.length

/-- The words in the FIFO are those of whole samples, and the first of the next one perhaps. -/
def Whole (past : List Tick) (s : HpsdrTransmit) : Prop :=
  s.released = true → ∃ k, k * 2 ≤ (past.flatMap written).length ∧
    s.queue = (past.flatMap written).drop (k * 2)

variable {codec : Bool} {past : List Tick} {s : HpsdrTransmit} {i : Move}

/-! ### Samples as words -/

theorem spread_length (xs : List Sample) : (spread xs).length = xs.length * 2 := by
  induction xs with
  | nil => rfl
  | cons x xs ih =>
    rw [spread, List.flatMap_cons, List.length_append, ← spread, ih, List.length_cons]
    simp only [List.length_cons, List.length_nil]
    omega

theorem words_spread (xs : List Sample) : pair.words (spread xs) = xs := by
  induction xs with
  | nil => exact pair.words_nil
  | cons x xs ih =>
    have whole : pair.rdLanes ∣ [x.1, x.2].length := Nat.dvd_refl 2
    have two : [x.1, x.2].length = pair.rdLanes := rfl
    rw [spread, List.flatMap_cons, pair.words_append _ whole, ← spread, ih,
      pair.words_whole two]
    rfl

theorem samples_length (ptt : Bool) : (s.samples ptt).length = 126 := by
  cases ptt <;> simp [samples, half, silence]

/-! ### The room in the FIFO -/

/-- The words that the loop may still write for what it has found in `*tx_cntr`. -/
def claim (s : HpsdrTransmit) : Nat :=
  match s.pc with
  | .recv | .room => 0
  | .empty | .ptt => 252
  | .fill => s.todo.length + 252
  | .words => s.todo.length

structure Inv (past : List Tick) (s : HpsdrTransmit) : Prop where
  written : past.flatMap HpsdrTransmit.written ++ s.todo = spread (past.flatMap begun)
  idle : s.pc ≠ .fill → s.pc ≠ .words → s.todo = []
  room : s.claim + s.queue.length ≤ depth

theorem full_eq_false {q : List (BitVec 32)} (room : q.length < depth) :
    pair.full depth q = false := by
  rw [Packing.full, decide_eq_false_iff_not]
  show ¬ depth * 1 < q.length + 1
  omega

theorem txCntr_toNat (room : s.queue.length ≤ depth) : s.txCntr.toNat = s.queue.length := by
  have count : pair.wrCount s.queue = s.queue.length := Nat.div_one _
  have small : s.queue.length < 2 ^ 16 := Nat.lt_of_le_of_lt room (by decide)
  rw [txCntr, BitVec.toNat_ofNat, count, Nat.mod_eq_of_lt small]

theorem server_writes {i : Access} {w : BitVec 32} {rest : List (BitVec 32)}
    (busy : s.pc = .fill ∨ s.pc = .words) (next : s.todo = w :: rest) :
    s.server codec i = { s.put w with todo := rest } := by
  rcases busy with pc | pc <;> simp [server, pc, next]

theorem server_fill {i : Access} (pc : s.pc = .fill) (spent : s.todo = []) :
    s.server codec i = { s with pc := .ptt } := by
  simp [server, pc, spent]

theorem server_words {i : Access} (pc : s.pc = .words) (spent : s.todo = []) :
    s.server codec i = s.frames codec := by
  simp [server, pc, spent]

theorem put_length (w : BitVec 32) : (s.put w).queue.length ≤ s.queue.length + 1 := by
  show (s.queue ++ pair.pushed depth s.queue s.released w).length ≤ _
  rw [List.length_append]
  unfold Packing.pushed
  split
  · exact Nat.le_refl _
  · exact Nat.le_succ _

theorem spread_append (xs ys : List Sample) : spread (xs ++ ys) = spread xs ++ spread ys :=
  List.flatMap_append

theorem Inv.quiet {t : HpsdrTransmit} {c : Tick} (inv : Inv past s)
    (silent : HpsdrTransmit.written c = []) (none : begun c = []) (todo : t.todo = s.todo)
    (idle : t.pc ≠ .fill → t.pc ≠ .words → s.todo = [])
    (room : t.claim + t.queue.length ≤ depth) : Inv (past ++ [c]) t := by
  refine ⟨?_, todo ▸ idle, room⟩
  rw [flatMap_snoc, flatMap_snoc, silent, none, List.append_nil, List.append_nil, todo]
  exact inv.written

/-- The loop sets out to write samples when it has written all before. -/
theorem Inv.begins {t : HpsdrTransmit} {c : Tick} {xs : List Sample} (inv : Inv past s)
    (silent : HpsdrTransmit.written c = []) (begins : begun c = xs) (spent : s.todo = [])
    (todo : t.todo = spread xs) (busy : t.pc = .fill ∨ t.pc = .words)
    (room : t.claim + t.queue.length ≤ depth) : Inv (past ++ [c]) t := by
  refine ⟨?_, fun other other' => (busy.elim other other').elim, room⟩
  rw [flatMap_snoc, flatMap_snoc, silent, begins, List.append_nil, spread_append, todo,
    ← inv.written, spent, List.append_nil]

theorem Inv.writes {t : HpsdrTransmit} {c : Tick} {w : BitVec 32} {rest : List (BitVec 32)}
    (inv : Inv past s) (next : s.todo = w :: rest) (one : HpsdrTransmit.written c = [w])
    (none : begun c = []) (todo : t.todo = rest) (busy : t.pc = .fill ∨ t.pc = .words)
    (room : t.claim + t.queue.length ≤ depth) : Inv (past ++ [c]) t := by
  refine ⟨?_, fun other other' => (busy.elim other other').elim, room⟩
  have all := inv.written
  rw [next] at all
  rw [flatMap_snoc, flatMap_snoc, one, none, List.append_nil, todo, List.append_assoc]
  exact all

theorem inv_recv {i : Access} (inv : Inv past s) (pc : s.pc = .recv) :
    Inv (past ++ [⟨s, .server i⟩]) (s.server codec i) := by
  have spent : s.todo = [] := inv.idle (by simp [pc]) (by simp [pc])
  have fits := inv.room
  rw [claim, pc] at fits
  have silent : written ⟨s, .server i⟩ = [] := by simp [written, pc]
  have none : begun ⟨s, .server i⟩ = [] := by simp [begun, pc]
  have ends {t : HpsdrTransmit} (after : t.pc = .recv ∨ t.pc = .room) (todo : t.todo = s.todo)
      (queue : t.queue = s.queue) : Inv (past ++ [⟨s, .server i⟩]) t := by
    refine inv.quiet silent none todo (fun _ _ => spent) ?_
    rw [queue, claim]
    rcases after with at_recv | at_room
    · rwa [at_recv]
    · rwa [at_room]
  rw [server, pc]
  dsimp only
  split
  · cases i.datagram with
    | none => exact ends (.inl pc) rfl rfl
    | some buffer =>
      show Inv _ (if _ then _ else _)
      split
      · exact ends (.inr rfl) rfl rfl
      · exact ends (.inl rfl) rfl rfl
  · exact ends (.inl pc) rfl rfl

theorem inv_room {i : Access} (inv : Inv past s) (pc : s.pc = .room) :
    Inv (past ++ [⟨s, .server i⟩]) (s.server codec i) := by
  have spent : s.todo = [] := inv.idle (by simp [pc]) (by simp [pc])
  have fits := inv.room
  have silent : written ⟨s, .server i⟩ = [] := by simp [written, pc]
  have none : begun ⟨s, .server i⟩ = [] := by simp [begun, pc]
  rw [server, pc]
  dsimp only
  split
  · exact inv.quiet silent none rfl (fun _ _ => spent) fits
  · rename_i few
    refine inv.quiet silent none rfl (fun _ _ => spent) ?_
    rw [txCntr_toNat (by omega)] at few
    show 252 + s.queue.length ≤ 4096
    omega

theorem inv_empty {i : Access} (inv : Inv past s) (pc : s.pc = .empty) :
    Inv (past ++ [⟨s, .server i⟩]) (s.server codec i) := by
  have spent : s.todo = [] := inv.idle (by simp [pc]) (by simp [pc])
  have fits := inv.room
  rw [claim, pc] at fits
  have silent : written ⟨s, .server i⟩ = [] := by simp [written, pc]
  rw [server, pc]
  dsimp only
  split
  · rename_i zero
    have begins : begun ⟨s, .server i⟩ = silence 1260 := by simp only [begun, pc, if_pos zero]
    refine inv.begins silent begins spent rfl (.inl rfl) ?_
    have count := congrArg BitVec.toNat zero
    rw [txCntr_toNat (by omega)] at count
    have none : s.queue.length = 0 := count
    show (spread (silence 1260)).length + 252 + s.queue.length ≤ 4096
    rw [spread_length, silence, List.length_replicate, none]
    decide
  · rename_i some
    have none : begun ⟨s, .server i⟩ = [] := by simp only [begun, pc, if_neg some]
    exact inv.quiet silent none rfl (fun _ _ => spent) fits

theorem inv_ptt {i : Access} (inv : Inv past s) (pc : s.pc = .ptt) :
    Inv (past ++ [⟨s, .server i⟩]) (s.server codec i) := by
  have spent : s.todo = [] := inv.idle (by simp [pc]) (by simp [pc])
  have fits := inv.room
  rw [claim, pc] at fits
  have silent : written ⟨s, .server i⟩ = [] := by simp [written, pc]
  rw [server, pc]
  have begins : begun ⟨s, .server i⟩ = s.samples i.ptt := by simp only [begun, pc]
  refine inv.begins silent begins spent rfl (.inr rfl) ?_
  show (spread (s.samples i.ptt)).length + s.queue.length ≤ depth
  rw [spread_length, samples_length]
  exact fits

/-- A word that is written is one that the loop may write no more. -/
theorem claim_writes {w : BitVec 32} {rest : List (BitVec 32)}
    (busy : s.pc = .fill ∨ s.pc = .words) (next : s.todo = w :: rest) :
    claim { s.put w with todo := rest } + 1 = s.claim := by
  unfold claim
  rcases busy with pc | pc
  · rw [show (s.put w).pc = .fill from pc, pc, next]
    show rest.length + 252 + 1 = rest.length + 1 + 252
    omega
  · rw [show (s.put w).pc = .words from pc, pc, next]
    rfl

theorem inv_writes {i : Access} {w : BitVec 32} {rest : List (BitVec 32)} (inv : Inv past s)
    (busy : s.pc = .fill ∨ s.pc = .words) (next : s.todo = w :: rest) :
    Inv (past ++ [⟨s, .server i⟩]) (s.server codec i) := by
  have fits := inv.room
  have less := claim_writes busy next
  have grows := put_length (s := s) w
  have one : written ⟨s, .server i⟩ = [w] := by
    rcases busy with pc | pc <;> simp [written, pc, next]
  have none : begun ⟨s, .server i⟩ = [] := by rcases busy with pc | pc <;> simp [begun, pc]
  rw [server_writes busy next]
  refine inv.writes next one none rfl busy ?_
  show _ + (s.put w).queue.length ≤ depth
  omega

theorem inv_fill {i : Access} (inv : Inv past s) (pc : s.pc = .fill) :
    Inv (past ++ [⟨s, .server i⟩]) (s.server codec i) := by
  cases next : s.todo with
  | nil =>
    have fits := inv.room
    rw [claim, pc, next] at fits
    rw [server_fill pc next]
    refine inv.quiet (by simp [written, next]) (by simp [begun, pc]) rfl (fun _ _ => next) ?_
    show 252 + s.queue.length ≤ depth
    simpa using fits
  | cons w rest => exact inv_writes inv (.inl pc) next

theorem inv_words {i : Access} (inv : Inv past s) (pc : s.pc = .words) :
    Inv (past ++ [⟨s, .server i⟩]) (s.server codec i) := by
  cases next : s.todo with
  | nil =>
    have fits := inv.room
    rw [claim, pc, next] at fits
    rw [server_words pc next]
    exact inv.quiet (by simp [written, next]) (by simp [begun, pc]) rfl (fun _ _ => next) fits
  | cons w rest => exact inv_writes inv (.inr pc) next

theorem run_inv (run : (circuit codec).Run past s) : Inv past s := by
  induction run with
  | reset start =>
    obtain ⟨-, pc, todo, queue⟩ := start
    refine ⟨by rw [todo]; rfl, fun _ _ => todo, ?_⟩
    rw [claim, pc, queue]
    exact Nat.zero_le _
  | @tick past s run i inv =>
    have shorter {t : HpsdrTransmit} {c : Tick} (silent : written c = []) (none : begun c = [])
        (pc : t.pc = s.pc) (todo : t.todo = s.todo) (queue : t.queue.length ≤ s.queue.length) :
        Inv (past ++ [c]) t := by
      refine inv.quiet silent none todo (pc ▸ inv.idle) ?_
      have fits := inv.room
      rw [claim] at fits ⊢
      rw [pc, todo]
      omega
    cases i with
    | server i =>
      cases pc : s.pc with
      | recv => exact inv_recv inv pc
      | room => exact inv_room inv pc
      | empty => exact inv_empty inv pc
      | fill => exact inv_fill inv pc
      | ptt => exact inv_ptt inv pc
      | words => exact inv_words inv pc
    | store => exact shorter rfl rfl rfl rfl (Nat.le_refl _)
    | keyer gpioIn =>
      refine shorter rfl rfl rfl rfl ?_
      show (if _ then _ else _ : List _).length ≤ _
      split
      · exact Nat.le_refl _
      · exact Nat.zero_le _
    | read =>
      refine shorter rfl rfl rfl rfl ?_
      show (s.queue.drop _).length ≤ _
      rw [List.length_drop]
      exact Nat.sub_le _ _

theorem held_neverFull (run : (circuit codec).Run past s) : Held NeverFull past := by
  refine run.derive (E := fun _ _ => True) ?_ (held_of_forall (fun _ _ => trivial) _)
  intro past s i run _ _ some
  have fits := (run_inv run).room
  refine full_eq_false ?_
  cases i with
  | server i =>
    simp only [written] at some
    split at some
    · rename_i busy
      cases next : s.todo with
      | nil => simp [next] at some
      | cons w rest =>
        have less := claim_writes busy next
        show s.queue.length < depth
        omega
    · exact absurd rfl some
  | _ => exact absurd rfl some

/-! ### The FIFO alone -/

def move (codec : Bool) (s : HpsdrTransmit) : Move → ResetFifo.Move (BitVec 32)
  | .server _ =>
    if s.pc = .fill ∨ s.pc = .words then s.todo.head?.elim .idle .write else .idle
  | .store => .idle
  | .keyer gpioIn => if (s.step codec (.keyer gpioIn)).released then .release else .hold
  | .read => .read

theorem released_store : (s.step codec .store).released = s.released := by
  show (s.keyer.store).keyer.vars.txRst.getLsbD 0 = _
  unfold HpsdrKeyer.store
  split <;> rfl

theorem fifo_server (i : Access) : (s.server codec i).fifo =
    ResetFifo.step pair depth s.fifo (s.move codec (.server i)) := by
  by_cases busy : s.pc = .fill ∨ s.pc = .words
  · rw [move, if_pos busy]
    cases next : s.todo with
    | nil =>
      rcases busy with pc | pc
      · rw [server_fill pc next]
        rfl
      · rw [server_words pc next]
        rfl
    | cons w rest =>
      rw [server_writes busy next]
      rfl
  · rw [move, if_neg busy]
    have same : (s.server codec i).released = s.released ∧ (s.server codec i).queue = s.queue := by
      cases pc : s.pc with
      | recv =>
        rw [server, pc]
        dsimp only
        split
        · cases i.datagram with
          | none => exact ⟨rfl, rfl⟩
          | some buffer =>
            rw [Option.elim_some]
            split <;> exact ⟨rfl, rfl⟩
        · exact ⟨rfl, rfl⟩
      | room | empty =>
        rw [server, pc]
        dsimp only
        split <;> exact ⟨rfl, rfl⟩
      | ptt =>
        rw [server, pc]
        exact ⟨rfl, rfl⟩
      | fill => exact absurd (.inl pc) busy
      | words => exact absurd (.inr pc) busy
    rw [fifo, same.1, same.2]
    rfl

theorem fifo_step (i : Move) :
    (s.step codec i).fifo = ResetFifo.step pair depth s.fifo (s.move codec i) := by
  cases i with
  | server i => exact fifo_server i
  | store => rw [fifo, released_store]; rfl
  | keyer gpioIn =>
    rw [move]
    split
    · rename_i on
      rw [fifo, on]
      have kept : (s.step codec (.keyer gpioIn)).queue = s.queue := if_pos on
      rw [kept]
      rfl
    · rename_i off
      have none : (s.step codec (.keyer gpioIn)).queue = [] := if_neg off
      rw [fifo, none, Bool.eq_false_iff.mpr off]
      rfl
  | read => rfl

def view (codec : Bool) (c : Tick) : ResetFifo.Tick (BitVec 32) (BitVec 32) :=
  ⟨c.regs.fifo, c.regs.move codec c.pins⟩

theorem run_fifo (run : (circuit codec).Run past s) :
    (ResetFifo.circuit pair depth).Run (past.map (view codec)) s.fifo := by
  have tick (s : HpsdrTransmit) (i : Move) : ((circuit codec).tick s i).fifo =
      (ResetFifo.circuit pair depth).tick s.fifo (s.move codec i) := fifo_step i
  refine run.map fifo (move codec) ?_ tick
  rintro s ⟨keyer, -, -, queue⟩
  show ResetFifo.mk s.released s.queue = ⟨true, []⟩
  rw [queue, released, keyer]
  rfl

theorem ports_view (c : Tick) : ResetFifo.written pair (view codec c) = written c ∧
    ResetFifo.taken pair (view codec c) = sent c := by
  obtain ⟨s, i⟩ := c
  cases i with
  | server i =>
    by_cases busy : s.pc = .fill ∨ s.pc = .words
    · cases next : s.todo <;>
        simp [ResetFifo.written, ResetFifo.taken, view, move, written, sent, busy, next, pair,
          Packing.single]
    · simp [ResetFifo.written, ResetFifo.taken, view, move, written, sent, busy]
  | keyer gpioIn =>
    by_cases on : (s.step codec (.keyer gpioIn)).released = true <;>
      simp [ResetFifo.written, ResetFifo.taken, view, move, written, sent, on]
  | store | read => exact ⟨rfl, rfl⟩

theorem flatMap_written (past : List Tick) :
    (past.map (view codec)).flatMap (ResetFifo.written pair) = past.flatMap written := by
  rw [List.flatMap_map]
  exact congrArg (past.flatMap ·) (funext fun c => (ports_view c).1)

theorem flatMap_sent (past : List Tick) :
    (past.map (view codec)).flatMap (ResetFifo.taken pair) = past.flatMap sent := by
  rw [List.flatMap_map]
  exact congrArg (past.flatMap ·) (funext fun c => (ports_view c).2)

theorem neverFull_view (run : (circuit codec).Run past s) :
    Held (ResetFifo.NeverFull pair depth) (past.map (view codec)) := by
  rw [held_map]
  refine (held_neverFull run).mono fun before c room w writes => room ?_
  rw [← (ports_view c).1, ResetFifo.written, writes]
  exact List.cons_ne_nil w []

theorem whole_view : ResetFifo.Whole pair (past.map (view codec)) s.fifo ↔ Whole past s := by
  rw [ResetFifo.Whole, flatMap_written]
  rfl

/-- The words written make up samples exactly when those still to be written do. -/
theorem dvd_written (run : (circuit codec).Run past s) :
    2 ∣ (past.flatMap written).length ↔ 2 ∣ s.todo.length := by
  have all := congrArg List.length (run_inv run).written
  rw [List.length_append, spread_length] at all
  omega

theorem between_view (run : (circuit codec).Run past s) :
    Held (ResetFifo.ReleasesBetween pair) (past.map (view codec)) ↔
      Held (ReleasesBetween codec) past := by
  rw [held_map]
  refine run.held_congr (G := fun _ => True) (fun _ _ _ => trivial) ?_ trivial
  intro past s i run _
  rw [ResetFifo.ReleasesBetween, flatMap_written]
  show (s.move codec i = .release → s.released = false → 2 ∣ _) ↔
    (s.released = false → (s.step codec i).released = true → 2 ∣ s.todo.length)
  rw [dvd_written run]
  have after : (s.step codec i).released =
      (ResetFifo.step pair depth s.fifo (s.move codec i)).live := by
    rw [← fifo_step]
    rfl
  constructor
  · intro between held let_go
    refine between ?_ held
    rw [after] at let_go
    cases moved : s.move codec i with
    | release => rfl
    | hold => rw [moved] at let_go; cases let_go
    | write | read | idle =>
      rw [moved] at let_go
      exact absurd (held.symm.trans let_go) (by decide)
  · intro between moved held
    refine between held ?_
    rw [after, moved]
    rfl

/-- The loop never writes to a full FIFO. The FPGA finds whole samples throughout exactly when the
keyer lets the FIFO go only between samples of the loop; it then sends samples that the loop has set
out to write, in order, and all of them but those in the FIFO if this has never been in reset. -/
theorem run_sends (run : (circuit codec).Run past s) :
    Held NeverFull past ∧
    ((Whole past s ∧ Held (fun before c => Whole before c.regs) past) ↔
      Held (ReleasesBetween codec) past) ∧
    (Held (ReleasesBetween codec) past → (past.flatMap sent).Sublist (past.flatMap begun) ∧
      (Held (fun _ c => c.regs.released = true) past → s.released = true →
        past.flatMap sent ++ pair.words (s.queue ++ s.todo) = past.flatMap begun)) := by
  refine ⟨held_neverFull run, ?_, fun between => ?_⟩
  · have same := ResetFifo.run_whole_iff (run_fifo run) (neverFull_view run)
    rw [whole_view, held_map, between_view run] at same
    rw [← same]
    refine and_congr_right fun _ => ?_
    exact ⟨Held.mono fun before c whole => whole_view.mpr whole,
      Held.mono fun before c whole => whole_view.mp whole⟩
  · obtain ⟨k, le, taken, kept, queue⟩ := ResetFifo.run_through (run_fifo run)
      (neverFull_view run) ((between_view run).mpr between)
    rw [flatMap_written] at le taken kept queue
    rw [flatMap_sent] at taken kept
    have all := (run_inv run).written
    have parts : past.flatMap begun =
        pair.words ((past.flatMap written).take (k * pair.rdLanes)) ++
          pair.words ((past.flatMap written).drop (k * pair.rdLanes) ++ s.todo) := by
      have long : k * pair.rdLanes ≤ (past.flatMap written ++ s.todo).length := by
        rw [List.length_append]
        omega
      rw [← words_spread (past.flatMap begun), ← all, ResetFifo.words_take long,
        List.take_append_of_le_length le, List.drop_append_of_le_length le]
    rw [parts]
    refine ⟨taken.trans (List.sublist_append_left _ _), fun held live => ?_⟩
    have out : s.queue = (past.flatMap written).drop (k * pair.rdLanes) := by
      rw [show s.fifo.live = true from live, if_pos rfl] at queue
      exact queue
    rw [kept ((held_map _ _ _).mpr held) live, out]

/-! ### A keyed sample behind a reset -/

def start : HpsdrTransmit := ⟨HpsdrKeyer.start, .recv, fun _ => 0, 0, [], []⟩

theorem start_reset : (circuit codec).Reset start := ⟨rfl, rfl, rfl, rfl⟩

/-- The loop writes on while there is room. -/
theorem after_writes {access : Access} (busy : s.pc = .fill ∨ s.pc = .words)
    (live : s.released = true) {k : Nat} (few : k ≤ s.todo.length)
    (room : s.queue.length + k ≤ depth) :
    (circuit codec).after s (List.replicate k (.server access)) =
      { s with queue := s.queue ++ s.todo.take k, todo := s.todo.drop k } := by
  induction k generalizing s with
  | zero => simp [after]
  | succ k ih =>
    cases next : s.todo with
    | nil => simp [next] at few
    | cons w rest =>
      rw [next, List.length_cons] at few
      have space := full_eq_false (show s.queue.length < depth by omega)
      have puts : pair.pushed depth s.queue s.released w = [w] := by
        rw [Packing.pushed, live, if_pos ⟨rfl, by simp [space]⟩]
        rfl
      have first : (circuit codec).tick s (.server access) =
          { s with queue := s.queue ++ [w], todo := rest } := by
        show s.server codec access = _
        rw [server_writes busy next, put, puts]
      rw [List.replicate_succ]
      show (circuit codec).after ((circuit codec).tick s (.server access)) _ = _
      have less : (s.queue ++ [w]).length + k ≤ depth := by
        rw [List.length_append, List.length_singleton]
        omega
      rw [first, ih (s := { s with queue := s.queue ++ [w], todo := rest }) busy live
        (Nat.le_of_succ_le_succ few) less]
      simp

theorem released_other (other : ∀ gpioIn, i ≠ .keyer gpioIn) :
    (s.step codec i).released = s.released := by
  have live := congrArg ResetFifo.live (@fifo_step codec s i)
  cases i with
  | keyer gpioIn => exact absurd rfl (other gpioIn)
  | server access =>
    refine live.trans ?_
    rw [move]
    split
    · cases s.todo <;> rfl
    · rfl
  | store | read => exact live

theorem releasesBetween_of {before : List Tick}
    (other : (∀ gpioIn, i ≠ .keyer gpioIn) ∨ s.todo = []) :
    ReleasesBetween codec before ⟨s, i⟩ := by
  intro low high
  rcases other with other | empty
  · exact absurd (low.symm.trans ((released_other other).symm.trans high)) Bool.false_ne_true
  · rw [show (Clock.mk s i).regs.todo = [] from empty]
    exact Nat.dvd_zero 2

/-- The FIFO stays as it is where the keyer makes no step. -/
theorem heldFrom_of_pins {moves : List Move} (before : List Tick)
    (none : ∀ gpioIn, .keyer gpioIn ∉ moves) :
    HeldFrom (ReleasesBetween codec) before ((circuit codec).trace s moves) :=
  heldFrom_of_mem (fun _ member _ => releasesBetween_of <| .inl fun gpioIn same =>
    none gpioIn (same ▸ pins_of_mem_trace member)) before

/-- These steps lead from `s` to `t`. They send no sample, and let the FIFO go only between samples. -/
structure Silent (codec : Bool) (s : HpsdrTransmit) (moves : List Move) (t : HpsdrTransmit) : Prop where
  leads : (circuit codec).after s moves = t
  sends : ((circuit codec).trace s moves).flatMap sent = []
  between : ∀ before, HeldFrom (ReleasesBetween codec) before ((circuit codec).trace s moves)

theorem Silent.append {t u : HpsdrTransmit} {first rest : List Move} (one : Silent codec s first t)
    (two : Silent codec t rest u) : Silent codec s (first ++ rest) u := by
  refine ⟨?_, ?_, fun before => ?_⟩
  · rw [after_append, one.leads, two.leads]
  · rw [trace_append, List.flatMap_append, one.sends, one.leads, two.sends, List.append_nil]
  · rw [trace_append, heldFrom_append, one.leads]
    exact ⟨one.between before, two.between _⟩

/-- The FIFO is out of reset through these steps of the keyer. -/
def staysOut (codec : Bool) : HpsdrKeyer → List (BitVec 8) → Bool
  | _, [] => true
  | keyer, gpioIn :: rest =>
    let next := keyer.step codec (.keyer gpioIn)
    next.keyer.vars.txRst.getLsbD 0 && staysOut codec next rest

theorem after_keyer (gpioIns : List (BitVec 8)) :
    (circuit codec).after s (gpioIns.map .keyer) =
      { s with
        keyer := (HpsdrKeyer.circuit codec).after s.keyer (gpioIns.map .keyer)
        queue := if staysOut codec s.keyer gpioIns then s.queue else [] } := by
  induction gpioIns generalizing s with
  | nil => rfl
  | cons gpioIn rest ih =>
    show (circuit codec).after (s.step codec (.keyer gpioIn)) (rest.map .keyer) = _
    rw [ih]
    have queue (on out : Bool) : (if out then if on then s.queue else [] else []) =
        if on && out then s.queue else [] := by
      cases on <;> cases out <;> rfl
    show HpsdrTransmit.mk _ _ _ _ _ _ = HpsdrTransmit.mk _ _ _ _ _ _
    congr 1
    exact queue _ _

theorem todo_keyer (gpioIns : List (BitVec 8)) :
    ∀ c ∈ (circuit codec).trace s (gpioIns.map .keyer), c.regs.todo = s.todo := by
  induction gpioIns generalizing s with
  | nil => exact fun c member => absurd member List.not_mem_nil
  | cons gpioIn rest ih =>
    intro c member
    rcases List.mem_cons.mp member with rfl | later
    · rfl
    · exact (ih c later).trans rfl

theorem sent_of_pins {moves : List Move} (none : Move.read ∉ moves) :
    ((circuit codec).trace s moves).flatMap sent = [] := by
  refine List.flatMap_eq_nil_iff.mpr fun c member => ?_
  have pins := pins_of_mem_trace member
  obtain ⟨regs, move⟩ := c
  cases move with
  | read => exact absurd pins none
  | _ => rfl

/-- A stretch of the loop and of the keyer's stores. -/
theorem silent_server {t : HpsdrTransmit} {moves : List Move}
    (other : ∀ i ∈ moves, i = .store ∨ ∃ access, i = .server access)
    (leads : (circuit codec).after s moves = t) : Silent codec s moves t := by
  refine ⟨leads, sent_of_pins fun member => ?_, fun before =>
    heldFrom_of_pins before fun gpioIn member => ?_⟩
  · rcases other _ member with same | ⟨access, same⟩ <;> cases same
  · rcases other _ member with same | ⟨access, same⟩ <;> cases same

/-- A stretch of the keyer while the loop has nothing to write. -/
theorem silent_keyer {t : HpsdrTransmit} {gpioIns : List (BitVec 8)} (spent : s.todo = [])
    (leads : (circuit codec).after s (gpioIns.map .keyer) = t) :
    Silent codec s (gpioIns.map .keyer) t := by
  refine ⟨leads, sent_of_pins fun member => ?_, heldFrom_of_mem fun c member before => ?_⟩
  · obtain ⟨gpioIn, -, same⟩ := List.mem_map.mp member
    cases same
  · exact releasesBetween_of (.inr ((todo_keyer gpioIns c member).trans spent))

/-- A datagram of sevens, with a frame that turns the keyer on. -/
def sevens : Buffer := fun k =>
  if k = 11 then 30 else if k = 12 then 1 else if 16 ≤ k ∧ k < 520 then 7 else 0

def access (ptt : Bool) : Move := .server ⟨some sevens, ptt⟩

/-- The loop at `pc`, before the frames of the first datagram. -/
def first (pc : Pc) (todo queue : List (BitVec 32)) : HpsdrTransmit :=
  ⟨HpsdrKeyer.start, pc, sevens, 0, todo, queue⟩

/-- The keyer after these frames. -/
def enabled : HpsdrKeyer :=
  (HpsdrKeyer.circuit false).after ((first .words [] []).frames false).keyer
    (List.replicate 3 .store)

def second (pc : Pc) (keyer : HpsdrKeyer) (queue : List (BitVec 32)) : HpsdrTransmit :=
  ⟨keyer, pc, sevens, 0, [], queue⟩

/-- The key goes down and up, and the transmitter is handed back. -/
def gpioIns : List (BitVec 8) := List.replicate 8 2 ++ List.replicate 110 0

def keyed : HpsdrKeyer := (HpsdrKeyer.circuit false).after enabled (gpioIns.map .keyer)

/-- The silence of the first datagram. -/
def filled : List (BitVec 32) := spread (silence 1260) ++ spread (silence 126)

theorem spread_silence_length (n : Nat) : (spread (silence n)).length = n * 2 := by
  rw [spread_length, silence, List.length_replicate]

theorem filled_length : filled.length = 2772 := by
  rw [filled, List.length_append, spread_silence_length, spread_silence_length]

theorem access_mem {ptt : Bool} {n : Nat} {i : Move} (member : i ∈ List.replicate n (access ptt)) :
    i = .store ∨ ∃ access, i = .server access :=
  .inr ⟨_, List.eq_of_mem_replicate member⟩

theorem first_released (pc : Pc) (todo queue : List (BitVec 32)) :
    (first pc todo queue).released = true := by
  show HpsdrKeyer.start.keyer.vars.txRst.getLsbD 0 = true
  decide

theorem silent_writes (ptt : Bool) {pc : Pc} (busy : pc = .fill ∨ pc = .words)
    (todo queue : List (BitVec 32)) (room : queue.length + todo.length ≤ depth) :
    Silent false (first pc todo queue) (List.replicate todo.length (access ptt))
      (first pc [] (queue ++ todo)) := by
  refine silent_server (fun i => access_mem) ?_
  refine (after_writes busy (first_released pc todo queue) (Nat.le_refl _) room).trans ?_
  show first pc (todo.drop todo.length) (queue ++ todo.take todo.length) = _
  rw [List.take_length, List.drop_length]

theorem silent_fill : Silent false start (List.replicate 3 (access false))
    (first .fill (spread (silence 1260)) []) :=
  silent_server (fun _ => access_mem) rfl

theorem silent_ptt (queue : List (BitVec 32)) :
    Silent false (first .fill [] queue) (List.replicate 2 (access false))
      (first .words (spread (silence 126)) queue) :=
  silent_server (fun _ => access_mem) rfl

theorem eerNext_sevens : eerNext sevens 523 (eerNext sevens 11 0) = 0 := by decide

theorem silent_frames (queue : List (BitVec 32)) :
    Silent false (first .words [] queue) (access false :: List.replicate 3 .store)
      (second .recv enabled queue) := by
  refine silent_server ?_ ?_
  · rintro i (_ | ⟨_, member⟩)
    · exact .inr ⟨_, rfl⟩
    · exact .inl (List.eq_of_mem_replicate member)
  · show HpsdrTransmit.mk enabled .recv sevens (eerNext sevens 523 (eerNext sevens 11 0)) [] queue = _
    rw [eerNext_sevens]
    rfl

/-- The first datagram is silent, and fills the FIFO. -/
def firstDatagram : List Move :=
  List.replicate 3 (access false) ++
    (List.replicate (spread (silence 1260)).length (access false) ++
      (List.replicate 2 (access false) ++
        (List.replicate (spread (silence 126)).length (access false) ++
          (access false :: List.replicate 3 .store))))

theorem silent_firstDatagram :
    Silent false start firstDatagram (second .recv enabled filled) := by
  have fill := silent_writes false (.inl rfl : Pc.fill = .fill ∨ _) (spread (silence 1260)) []
    (by rw [spread_silence_length]; decide)
  rw [List.nil_append] at fill
  have more := silent_writes false (.inr rfl : _ ∨ Pc.words = .words) (spread (silence 126))
    (spread (silence 1260)) (by rw [spread_silence_length, spread_silence_length]; decide)
  exact silent_fill.append (fill.append ((silent_ptt _).append (more.append (silent_frames _))))

/-- The second datagram finds some room, and words in the FIFO. -/
theorem silent_secondDatagram {keyer : HpsdrKeyer} {queue : List (BitVec 32)} {ptt : Bool}
    (stored : keyer.stores = []) (receives : keyer.keyer.vars.txMuxData = 0)
    (waits : 0 < queue.length) (room : queue.length ≤ 3844) :
    Silent false (second .recv keyer queue) (List.replicate 3 (access ptt))
      (second .ptt keyer queue) := by
  have fits (pc : Pc) : (second pc keyer queue).txCntr.toNat = queue.length :=
    txCntr_toNat (s := second pc keyer queue) (Nat.le_trans room (by decide))
  have recv : (second .recv keyer queue).server false ⟨some sevens, ptt⟩ =
      second .room keyer queue := by
    simp [server, second, stored, receives]
  have space : (second .room keyer queue).server false ⟨some sevens, ptt⟩ =
      second .empty keyer queue := if_neg (by rw [fits]; omega)
  have ready : (second .empty keyer queue).server false ⟨some sevens, ptt⟩ =
      second .ptt keyer queue :=
    if_neg fun zero => by
      have none := congrArg BitVec.toNat zero
      rw [fits] at none
      exact absurd none (Nat.ne_of_gt waits)
  refine silent_server (fun _ => access_mem) ?_
  show (((second .recv keyer queue).server false _).server false _).server false _ = _
  rw [recv, space, ready]

theorem silent_gpioIns (queue : List (BitVec 32)) :
    Silent false (second .ptt enabled queue) (gpioIns.map .keyer) (second .ptt keyed []) := by
  refine silent_keyer rfl ((after_keyer gpioIns).trans ?_)
  have reset : staysOut false enabled gpioIns = false := by decide +kernel
  show second .ptt keyed (if staysOut false enabled gpioIns then queue else []) = _
  rw [reset]
  rfl

def keyedSample : List Move :=
  firstDatagram ++ (List.replicate 3 (access true) ++ gpioIns.map .keyer)

theorem silent_keyedSample : Silent false start keyedSample (second .ptt keyed []) := by
  have length : filled.length = 2772 := filled_length
  refine silent_firstDatagram.append (.append ?_ (silent_gpioIns filled))
  exact silent_secondDatagram (by decide +kernel) (by decide +kernel) (by omega) (by omega)

/-- The loop writes the first sample of the second datagram, and the FPGA reads it. -/
def afterReset : List Move := [access true, access true, access true, .read]

/-- A datagram comes and the FIFO is empty; the first two samples of the silence are written, and
the first of them is sent. -/
def firstSilence : List Move :=
  let access := access true
  [access, access, access, access, access, .read, access, .read, .read, access]

theorem run_sends_keyedSample :
    (((circuit false).trace start firstSilence).flatMap sent = [(0, 0)] ∧
      ((circuit false).trace start firstSilence).flatMap sent ++
        pair.words (((circuit false).after start firstSilence).queue ++
          ((circuit false).after start firstSilence).todo) =
        ((circuit false).trace start firstSilence).flatMap begun) ∧
    ((circuit false).trace start (keyedSample ++ afterReset)).flatMap sent = [(0, 0x07070707)] ∧
    [(0, 0x07070707)].Sublist
      (((circuit false).trace start (keyedSample ++ afterReset)).flatMap begun) := by
  constructor
  · have sends := (@run_sends false _ _ (run_trace start_reset firstSilence)).2.2
      (heldFrom_of_pins [] (by simp [firstSilence, access]))
    exact ⟨by decide +kernel, sends.2 (by decide +kernel) (by decide +kernel)⟩
  · have sends := (@run_sends false _ _ (run_trace start_reset (keyedSample ++ afterReset))).2.2
    rw [trace_append, silent_keyedSample.leads] at sends ⊢
    have one : ((circuit false).trace (second .ptt keyed []) afterReset).flatMap sent =
        [(0, 0x07070707)] := by decide +kernel
    rw [List.flatMap_append, silent_keyedSample.sends, one] at sends ⊢
    refine ⟨rfl, (sends ((held_append _ _ _).mpr ⟨silent_keyedSample.between [], ?_⟩)).1⟩
    exact heldFrom_of_pins _ (by simp [afterReset, access])

end HpsdrTransmit

end Switcheck
