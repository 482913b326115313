import Switcheck.Streams.Alex
import Switcheck.Sync.Fifo

/-!
# From the FIFO to the relays

`axis_fifo` in front of `axis_alex`, and on its pins the boards: one shift register on the clock and
data lines, and the relays of the receivers and of the transmitter, which take the word over on the
load lines.
-/

namespace Switcheck

open Sync Circuit

open AxisAlex (serial wave plays sending)

/-- The registers of the boards, with the levels of the lines at the clock before. -/
structure Relays where
  clock : Bool
  load0 : Bool
  load1 : Bool
  shift : BitVec 16
  rx : BitVec 16
  tx : BitVec 16
  deriving DecidableEq

namespace Relays

def pushed (x : BitVec 16) (bit : Bool) : BitVec 16 := x.extractLsb' 0 15 ++ BitVec.ofBool bit

/-- What the boards make of the lines in a clock: each register goes by the rising edge of its
line. -/
def see (r : Relays) (pins : AlexData) : Relays where
  clock := pins.clock
  load0 := pins.load0
  load1 := pins.load1
  shift := if pins.clock && !r.clock then pushed r.shift pins.data else r.shift
  rx := if pins.load0 && !r.load0 then r.shift else r.rx
  tx := if pins.load1 && !r.load1 then r.shift else r.tx

def loaded (r : Relays) (word : BitVec 32) : Relays where
  clock := false
  load0 := false
  load1 := false
  shift := word.extractLsb' 0 16
  rx := if word.getLsbD 16 then word.extractLsb' 0 16 else r.rx
  tx := if word.getLsbD 17 then word.extractLsb' 0 16 else r.tx

variable {r : Relays}

theorem foldl_see_replicate {pins : AlexData} (n : Nat) :
    (List.replicate (n + 1) pins).foldl see r = r.see pins := by
  induction n with
  | zero => rfl
  | succ n ih =>
    rw [List.replicate_succ', List.foldl_append, ih, List.foldl_cons, List.foldl_nil]
    cases pins with | mk data clock load0 load1 => simp [see]

theorem foldl_see_bitPulse (bit : Bool) :
    (AxisAlex.bitPulse bit).foldl see r = ⟨true, false, false, pushed r.shift bit, r.rx, r.tx⟩ := by
  rw [AxisAlex.bitPulse, List.foldl_append, foldl_see_replicate 63, foldl_see_replicate 63]
  simp [see]

theorem foldl_see_bits (bits : List Bool) (some : bits ≠ []) :
    (bits.flatMap AxisAlex.bitPulse).foldl see r =
      ⟨true, false, false, bits.foldl pushed r.shift, r.rx, r.tx⟩ := by
  induction bits using List.reverseRecOn with
  | nil => exact absurd rfl some
  | append_singleton bits bit ih =>
    rw [flatMap_snoc, List.foldl_append, foldl_see_bitPulse, List.foldl_append]
    cases bits with
    | nil => rfl
    | cons first bits => rw [ih (List.cons_ne_nil _ _)]; rfl

/-- Sixteen bits from the most significant one on are the word, whatever was there before. -/
theorem foldl_pushed (word : BitVec 32) (x : BitVec 16) :
    ((List.range 16).map fun k => word.getLsbD (15 - k)).foldl pushed x = word.extractLsb' 0 16 := by
  have bits (n : Nat) (few : n ≤ 16) (j : Nat) (low : j < n) :
      (((List.range n).map fun k => word.getLsbD (15 - k)).foldl pushed x).getLsbD j =
        word.getLsbD (16 - n + j) := by
    induction n generalizing j with
    | zero => omega
    | succ n ih =>
      rw [List.range_succ, List.map_append, List.foldl_append, List.map_singleton, List.foldl_cons,
        List.foldl_nil, pushed, BitVec.getLsbD_append]
      by_cases newest : j = 0
      · have last : 15 - n = 16 - (n + 1) := by omega
        rw [newest, Nat.add_zero, ← last]
        simp
      · have older := ih (by omega) (j - 1) (by omega)
        have same : 16 - n + (j - 1) = 16 - (n + 1) + j := by omega
        rw [if_neg (show ¬ j < 1 by omega), BitVec.getLsbD_extractLsb', Nat.zero_add,
          decide_eq_true (show j - 1 < 15 by omega), Bool.true_and, older, same]
  refine BitVec.eq_of_getLsbD_eq fun j low => ?_
  rw [bits 16 (by decide) j low, BitVec.getLsbD_extractLsb']
  simp [low]

/-- The sixteen bits with the half of the last period before the load pulse. -/
def quietPart (word : BitVec 32) : List AlexData :=
  (((List.range 16).map fun k => word.getLsbD (15 - k)).flatMap AxisAlex.bitPulse) ++
    List.replicate 64 ⟨false, false, false, false⟩

/-- The load pulse up to the clock in which the lines are low again. -/
def loadPart (word : BitVec 32) : List AlexData :=
  List.replicate 64 ⟨false, false, word.getLsbD 16, word.getLsbD 17⟩ ++
    [⟨false, false, false, false⟩]

theorem serial_parts (word : BitVec 32) : serial word = quietPart word ++ loadPart word := by
  rw [serial, AxisAlex.loadPulse, quietPart, loadPart, List.flatMap_map]
  simp only [List.append_assoc]

theorem foldl_see_quietPart (word : BitVec 32) :
    (quietPart word).foldl see r = ⟨false, false, false, word.extractLsb' 0 16, r.rx, r.tx⟩ := by
  rw [quietPart, List.foldl_append, foldl_see_bits _ (by simp), foldl_pushed, foldl_see_replicate 63]
  simp [see]

/-- A whole word takes its place in the relays it is for. -/
theorem foldl_see_serial (word : BitVec 32) : (serial word).foldl see r = r.loaded word := by
  rw [serial_parts, List.foldl_append, foldl_see_quietPart, loadPart, List.foldl_append,
    foldl_see_replicate 63]
  simp [see, loaded]

/-- No relay moves before the load pulse. -/
theorem foldl_see_unloaded {pins : List AlexData}
    (low : ∀ p ∈ pins, p.load0 = false ∧ p.load1 = false) :
    (pins.foldl see r).rx = r.rx ∧ (pins.foldl see r).tx = r.tx := by
  induction pins generalizing r with
  | nil => exact ⟨rfl, rfl⟩
  | cons first rest ih =>
    obtain ⟨load0, load1⟩ := low first List.mem_cons_self
    obtain ⟨rx, tx⟩ := ih (r := r.see first) fun p member => low p (List.mem_cons_of_mem _ member)
    rw [List.foldl_cons, rx, tx]
    simp [see, load0, load1]

/-- A part of a word leaves each pair of relays as it was or puts the whole word there. -/
theorem foldl_see_take (word : BitVec 32) (n : Nat) :
    let now := ((serial word).take n).foldl see r
    (now.rx = r.rx ∧ now.tx = r.tx) ∨
      (now.rx = (r.loaded word).rx ∧ now.tx = (r.loaded word).tx) := by
  have quiet : ∀ p ∈ quietPart word, p.load0 = false ∧ p.load1 = false := by
    intro p member
    rcases List.mem_append.mp member with bit | half
    · obtain ⟨_, _, inside⟩ := List.mem_flatMap.mp bit
      rcases List.mem_append.mp inside with low | high
      · exact (List.eq_of_mem_replicate low).symm ▸ ⟨rfl, rfl⟩
      · exact (List.eq_of_mem_replicate high).symm ▸ ⟨rfl, rfl⟩
    · exact (List.eq_of_mem_replicate half).symm ▸ ⟨rfl, rfl⟩
  dsimp only
  rw [serial_parts, List.take_append]
  by_cases early : n ≤ (quietPart word).length
  · have none : (loadPart word).take (n - (quietPart word).length) = [] := by
      rw [Nat.sub_eq_zero_of_le early, List.take_zero]
    rw [none, List.append_nil]
    exact .inl (foldl_see_unloaded fun p member => quiet p (List.mem_of_mem_take member))
  · obtain ⟨m, late⟩ : ∃ m, n - (quietPart word).length = m + 1 :=
      ⟨n - (quietPart word).length - 1, by omega⟩
    rw [List.take_of_length_le (by omega), List.foldl_append, foldl_see_quietPart, late]
    refine .inr ?_
    rw [loadPart, List.take_append, List.take_replicate, List.foldl_append]
    obtain ⟨k, pulse⟩ : ∃ k, min (m + 1) 64 = k + 1 := ⟨min (m + 1) 64 - 1, by omega⟩
    rw [pulse, foldl_see_replicate]
    have after : ∀ p ∈ ([⟨false, false, false, false⟩] : List AlexData).take
        (m + 1 - (List.replicate 64 (⟨false, false, word.getLsbD 16, word.getLsbD 17⟩ :
          AlexData)).length), p.load0 = false ∧ p.load1 = false := fun p member =>
      List.mem_singleton.mp (List.mem_of_mem_take member) ▸ ⟨rfl, rfl⟩
    obtain ⟨rx, tx⟩ := foldl_see_unloaded after
      (r := see ⟨false, false, false, word.extractLsb' 0 16, r.rx, r.tx⟩
        ⟨false, false, word.getLsbD 16, word.getLsbD 17⟩)
    rw [rx, tx]
    simp [see, loaded]

end Relays

/-- `fifo_0` of `sdr_transceiver_hpsdr`, `alex_0` behind it, and the boards. -/
structure AlexLink where
  fifo : List (BitVec 32)
  alex : AxisAlex
  relays : Relays

namespace AlexLink

/-- `WRITE_DEPTH`. -/
def depth : Nat := 1024

def queue : Packing (BitVec 32) (BitVec 32) (BitVec 32) := Packing.single 0

def offer (s : AlexLink) : AlexPins where
  sAxisTdata := queue.dout s.fifo
  sAxisTvalid := decide (0 < queue.count s.fifo)

def tick (s : AlexLink) (i : AlexPins) : AlexLink where
  fifo := queue.next depth s.fifo i.sAxisTvalid i.sAxisTdata s.alex.intTreadyReg
  alex := AxisAlex.posedge true s.alex s.offer
  relays := s.relays.see s.alex.alexData

/-- Out of reset, with whatever the boards hold. -/
def circuit (relays : Relays) : Circuit AlexLink AlexPins where
  Reset s := s.fifo = [] ∧ (∃ s₀ i, s.alex = AxisAlex.posedge false s₀ i) ∧ s.relays = relays
  tick := tick

abbrev Tick := Clock AlexLink AlexPins

def offered (c : Tick) : List (BitVec 32) :=
  if c.pins.sAxisTvalid then [c.pins.sAxisTdata] else []

def accepted (c : Tick) : List (BitVec 32) :=
  queue.pushed depth c.regs.fifo c.pins.sAxisTvalid c.pins.sAxisTdata

def taken (c : Tick) : List (BitVec 32) := queue.popped c.regs.fifo c.regs.alex.intTreadyReg

variable {relays : Relays} {past : List Tick} {s : AlexLink}

theorem accepted_of_room {c : Tick}
    (room : c.pins.sAxisTvalid = true → c.regs.fifo.length < depth) : accepted c = offered c := by
  unfold accepted offered Packing.pushed
  cases valid : c.pins.sAxisTvalid with
  | false => rfl
  | true =>
    have space : ¬ queue.full depth c.regs.fifo = true := by
      rw [Packing.full, decide_eq_true_iff]
      have small := room valid
      show ¬ depth * 1 < c.regs.fifo.length + 1
      omega
    rw [if_pos ⟨rfl, space⟩]
    rfl

/-- The relays are where these words leave them. -/
def Shows (relays : Relays) (words : List (BitVec 32)) (r : Relays) : Prop :=
  r.rx = (words.foldl Relays.loaded relays).rx ∧ r.tx = (words.foldl Relays.loaded relays).tx

theorem Shows.loaded {words : List (BitVec 32)} {r : Relays} (shows : Shows relays words r)
    (word : BitVec 32) : Shows relays (words ++ [word]) (r.loaded word) := by
  obtain ⟨rx, tx⟩ := shows
  rw [Shows, List.foldl_append, List.foldl_cons, List.foldl_nil]
  simp [Relays.loaded, rx, tx]

/-- The core is idle, has a word before it that it takes in this clock, or is sending one. -/
inductive Follows (relays : Relays) (words : List (BitVec 32)) : AlexLink → Prop where
  | idle (q : List (BitVec 32)) (r : Relays) :
      Shows relays words r → Follows relays words ⟨q, AxisAlex.idle, r⟩
  | loaded (word : BitVec 32) (q : List (BitVec 32)) (r : Relays) :
      Shows relays words r → Follows relays words ⟨word :: q, sending word 0, r⟩
  | sends (before : List (BitVec 32)) (word : BitVec 32) (n : Nat) (q : List (BitVec 32))
      (r : Relays) : words = before ++ [word] → 0 < n → n < 2177 → Shows relays before r →
      Follows relays words ⟨q, sending word n, ((serial word).take n).foldl Relays.see r⟩

theorem take_serial (word : BitVec 32) {n : Nat} (below : n < 2177) :
    (serial word).take (n + 1) = (serial word).take n ++ [wave word n] := by
  rw [AxisAlex.serial_eq, ← List.map_take, ← List.map_take, List.take_range, List.take_range,
    Nat.min_eq_left below, Nat.min_eq_left (Nat.le_of_lt below), List.range_succ, List.map_append]
  rfl

theorem offer_cons (word : BitVec 32) (q : List (BitVec 32)) (alex : AxisAlex) (r : Relays) :
    offer ⟨word :: q, alex, r⟩ = ⟨word, true⟩ := by
  simp [offer, queue, Packing.single, Packing.dout, Packing.count]

theorem next_kept (q : List (BitVec 32)) (valid : Bool) (data : BitVec 32) :
    queue.next depth q valid data false = q ++ queue.pushed depth q valid data := by
  rw [Packing.next, Packing.popped_length]
  rfl

theorem popped_cons (word : BitVec 32) (q : List (BitVec 32)) :
    queue.popped (word :: q) true = [word] := by
  simp [Packing.popped, Packing.count, queue, Packing.single]

theorem next_taken (word : BitVec 32) (q : List (BitVec 32)) (valid : Bool) (data : BitVec 32) :
    queue.next depth (word :: q) valid data true = q ++ queue.pushed depth (word :: q) valid data := by
  rw [Packing.next, popped_cons]
  rfl

/-- In the last clock of a word the core is idle again; before it goes on to the next place. -/
theorem Follows.sent {words before : List (BitVec 32)} {word : BitVec 32}
    (same : words = before ++ [word]) {r : Relays} (shows : Shows relays before r) {n : Nat}
    (below : n < 2177) (begun : 0 < n) (q : List (BitVec 32)) (i : AlexPins) :
    Follows relays words
      ⟨q, AxisAlex.posedge true (sending word n) i,
        (((serial word).take n).foldl Relays.see r).see (sending word n).alexData⟩ := by
  have onward : (((serial word).take n).foldl Relays.see r).see (sending word n).alexData =
      ((serial word).take (n + 1)).foldl Relays.see r := by
    rw [take_serial word below, List.foldl_append, AxisAlex.alexData_sending word below]
    rfl
  rw [onward]
  by_cases last : n = 2176
  · subst last
    have whole : (serial word).take 2177 = serial word :=
      List.take_of_length_le (AxisAlex.serial_length word).le
    rw [AxisAlex.posedge_last, whole, Relays.foldl_see_serial, same]
    exact .idle _ _ (shows.loaded word)
  · rw [AxisAlex.posedge_sending word (by omega)]
    exact .sends before word (n + 1) _ r same (Nat.succ_pos n) (by omega) shows

theorem Follows.step {words : List (BitVec 32)} (follows : Follows relays words s) (i : AlexPins) :
    Follows relays (words ++ taken ⟨s, i⟩) (tick s i) := by
  cases follows with
  | idle q r shows =>
    have none : taken ⟨⟨q, AxisAlex.idle, r⟩, i⟩ = [] := rfl
    have still : Shows relays words (r.see AxisAlex.idle.alexData) := by
      simpa [Shows, Relays.see, AxisAlex.idle, AxisAlex.alexData] using shows
    rw [none, List.append_nil, tick]
    dsimp only
    rw [AxisAlex.posedge_idle]
    cases q with
    | nil =>
      rw [if_neg (by simp [offer, queue, Packing.count])]
      exact .idle _ _ still
    | cons word q =>
      rw [offer_cons, show AxisAlex.idle.intTreadyReg = false from rfl, next_kept]
      exact .loaded word _ _ still
  | loaded word q r shows =>
    have ready : (sending word 0).intTreadyReg = true := rfl
    have takes : taken ⟨⟨word :: q, sending word 0, r⟩, i⟩ = [word] := by
      rw [taken, ready, popped_cons]
    have first : r.see (sending word 0).alexData = ((serial word).take 1).foldl Relays.see r := by
      rw [take_serial word (n := 0) (by decide), AxisAlex.alexData_sending word (by decide)]
      rfl
    rw [takes, tick]
    dsimp only
    rw [AxisAlex.posedge_sending word (by decide), ready, next_taken, first]
    exact .sends words word 1 _ r rfl Nat.one_pos (by decide) shows
  | sends before word n q r same begun below shows =>
    have busy : (sending word n).intTreadyReg = false := decide_eq_false (by omega)
    have none : taken ⟨⟨q, sending word n, ((serial word).take n).foldl Relays.see r⟩, i⟩ = [] := by
      rw [taken, busy]
      rfl
    rw [none, List.append_nil, tick]
    dsimp only
    rw [busy, next_kept]
    exact .sent same shows below begun _ _

theorem run_follows (run : (circuit relays).Run past s) :
    Follows relays (past.flatMap taken) s := by
  refine run.invariant (E := fun _ _ => True) (P := fun past s => Follows relays (past.flatMap taken) s)
    ?_ ?_ (held_of_forall (fun _ _ => trivial) _)
  · rintro ⟨_, _, _⟩ ⟨rfl, ⟨s₀, i, rfl⟩, rfl⟩
    exact .idle [] _ ⟨rfl, rfl⟩
  · intro past s i _ follows _
    rw [flatMap_snoc]
    exact follows.step i

/-- The words that were accepted are taken in order; what is not taken is in the FIFO. -/
theorem run_taken (run : (circuit relays).Run past s) :
    past.flatMap taken ++ s.fifo = past.flatMap accepted := by
  refine run.conserve fifo ?_ ?_
  · rintro s ⟨empty, _⟩
    exact empty
  · intro s i
    exact queue.popped_append_next depth s.fifo i.sAxisTvalid i.sAxisTdata s.alex.intTreadyReg

/-! ### The time that words take -/

/-- The clocks until all words are sent, where no more come. -/
def due (s : AlexLink) : Nat :=
  if !s.alex.intEnblReg then 2178 * s.fifo.length
  else if s.alex.intTreadyReg then 2178 * s.fifo.length - 1
  else 2178 * s.fifo.length + (2177 - s.alex.intCntrReg.toNat)

theorem due_idle (q : List (BitVec 32)) (r : Relays) : due ⟨q, AxisAlex.idle, r⟩ = 2178 * q.length :=
  rfl

theorem due_loaded (word : BitVec 32) (q : List (BitVec 32)) (r : Relays) :
    due ⟨q, sending word 0, r⟩ = 2178 * q.length - 1 := rfl

theorem due_sends (word : BitVec 32) {n : Nat} (begun : 0 < n) (below : n < 2177)
    (q : List (BitVec 32)) (r : Relays) :
    due ⟨q, sending word n, r⟩ = 2178 * q.length + (2177 - n) := by
  have cntr : (BitVec.ofNat 12 n).toNat = n := by
    rw [BitVec.toNat_ofNat]
    omega
  simp [due, sending, cntr, show n ≠ 0 by omega]

/-- A clock in which nothing is offered is one clock less. -/
theorem due_tick {words : List (BitVec 32)} (follows : Follows relays words s) {i : AlexPins}
    (quiet : i.sAxisTvalid = false) : due (tick s i) = due s - 1 := by
  have none (q : List (BitVec 32)) : queue.pushed depth q false i.sAxisTdata = [] := rfl
  unfold tick
  rw [quiet]
  cases follows with
  | idle q r _ =>
    dsimp only
    rw [show AxisAlex.idle.intTreadyReg = false from rfl, next_kept, none, List.append_nil,
      AxisAlex.posedge_idle, due_idle]
    cases q with
    | nil =>
      rw [if_neg (by simp [offer, queue, Packing.count])]
      rfl
    | cons word q =>
      rw [offer_cons]
      exact due_loaded _ _ _
  | loaded word q r _ =>
    dsimp only
    rw [show (sending word 0).intTreadyReg = true from rfl, next_taken, none, List.append_nil,
      AxisAlex.posedge_sending word (by decide), due_sends word (by decide) (by decide), due_loaded,
      List.length_cons]
    omega
  | sends before word n q r _ begun below _ =>
    have busy : (sending word n).intTreadyReg = false := decide_eq_false (by omega)
    dsimp only
    rw [busy, next_kept, none, List.append_nil, due_sends word begun below]
    by_cases last : n = 2176
    · subst last
      rw [AxisAlex.posedge_last, due_idle]
      rfl
    · rw [AxisAlex.posedge_sending word (by omega), due_sends word (by omega) (by omega)]
      omega

theorem due_le {words : List (BitVec 32)} (follows : Follows relays words s) :
    due s ≤ 2178 * (s.fifo.length + 1) := by
  cases follows with
  | idle q r _ =>
    rw [due_idle]
    dsimp only
    omega
  | loaded word q r _ =>
    rw [due_loaded]
    dsimp only
    omega
  | sends before word n q r _ begun below _ =>
    rw [due_sends word begun below]
    dsimp only
    omega

theorem fifo_le_due {words : List (BitVec 32)} (follows : Follows relays words s) :
    2178 * s.fifo.length ≤ due s + 1 := by
  cases follows with
  | idle q r _ =>
    rw [due_idle]
    dsimp only
    omega
  | loaded word q r _ =>
    rw [due_loaded]
    dsimp only
    omega
  | sends before word n q r _ begun below _ =>
    rw [due_sends word begun below]
    dsimp only
    omega

/-- Where nothing is due, nothing is left, and the relays show every word. -/
theorem Follows.shown {words : List (BitVec 32)} (follows : Follows relays words s)
    (done : due s = 0) : s.fifo = [] ∧ Shows relays words s.relays := by
  cases follows with
  | idle q r shows =>
    rw [due_idle] at done
    have empty : q.length = 0 := by omega
    exact ⟨List.length_eq_zero_iff.mp empty, shows⟩
  | loaded word q r _ =>
    rw [due_loaded, List.length_cons] at done
    omega
  | sends before word n q r _ begun below _ =>
    rw [due_sends word begun below] at done
    omega

theorem due_after (run : (circuit relays).Run past s) (quiet : List AlexPins)
    (none : ∀ i ∈ quiet, i.sAxisTvalid = false) :
    due ((circuit relays).after s quiet) = due s - quiet.length ∧
      ((circuit relays).trace s quiet).flatMap accepted = [] := by
  induction quiet using List.reverseRecOn with
  | nil => exact ⟨rfl, rfl⟩
  | append_singleton quiet i ih =>
    obtain ⟨before, nothing⟩ := ih fun j member => none j (List.mem_append_left _ member)
    have now : i.sAxisTvalid = false := none i (by simp)
    have follows := run_follows (run.extend quiet)
    have fewer := due_tick follows now
    rw [after_snoc, trace_snoc, flatMap_snoc, nothing, List.length_append, List.length_singleton]
    refine ⟨?_, ?_⟩
    · exact fewer.trans (by omega)
    · rw [accepted, now]
      rfl

/-! ### What the boards show -/

/-- At every clock the relays show whole words: those of the words taken so far, or of all of these
but the last, which is still on its way. -/
theorem run_shows (run : (circuit relays).Run past s) :
    past.flatMap taken ++ s.fifo = past.flatMap accepted ∧
    ∃ words, Shows relays words s.relays ∧
      (words = past.flatMap taken ∨ ∃ word, words ++ [word] = past.flatMap taken) := by
  refine ⟨run_taken run, ?_⟩
  cases run_follows run with
  | idle q r shows => exact ⟨_, shows, .inl rfl⟩
  | loaded word q r shows => exact ⟨_, shows, .inl rfl⟩
  | sends before word n q r same begun below shows =>
    rcases Relays.foldl_see_take (r := r) word n with ⟨rx, tx⟩ | ⟨rx, tx⟩
    · exact ⟨before, ⟨rx.trans shows.1, tx.trans shows.2⟩, .inr ⟨word, same.symm⟩⟩
    · obtain ⟨rx', tx'⟩ := shows.loaded word
      exact ⟨before ++ [word], ⟨rx.trans rx', tx.trans tx'⟩, .inl same.symm⟩

def twoWords : List AlexPins := [⟨0x11234, true⟩, ⟨0x25678, true⟩]

/-- Long enough for the first word, and for a part of the second. -/
def pause : List AlexPins := List.replicate 2278 ⟨0, false⟩

def cleared : AlexLink := ⟨[], AxisAlex.idle, ⟨false, false, false, 0, 0, 0⟩⟩

theorem cleared_reset : (circuit cleared.relays).Reset cleared :=
  ⟨rfl, ⟨AxisAlex.idle, ⟨0, false⟩, rfl⟩, rfl⟩

theorem run_shows_twoWords :
    ((circuit cleared.relays).trace cleared (twoWords ++ pause)).flatMap taken =
      [0x11234, 0x25678] ∧
    ((circuit cleared.relays).after cleared (twoWords ++ pause)).relays.rx = 0x1234 := by
  have run := run_trace cleared_reset (twoWords ++ pause)
  obtain ⟨whole, words, ⟨rx, -⟩, known⟩ := run_shows run
  obtain ⟨fewer, nothing⟩ := due_after (run_trace cleared_reset twoWords) pause
    fun _ member => List.eq_of_mem_replicate member ▸ rfl
  have waiting : due ((circuit cleared.relays).after cleared twoWords) = 4355 := by decide
  have length : pause.length = 2278 := List.length_replicate
  rw [waiting, length, ← after_append] at fewer
  have few := fifo_le_due (run_follows run)
  have empty : ((circuit cleared.relays).after cleared (twoWords ++ pause)).fifo = [] :=
    List.length_eq_zero_iff.mp (by omega)
  have both : ((circuit cleared.relays).trace cleared twoWords).flatMap accepted =
      [0x11234, 0x25678] := by decide
  have accept : ((circuit cleared.relays).trace cleared (twoWords ++ pause)).flatMap accepted =
      [0x11234, 0x25678] := by
    rw [trace_append, List.flatMap_append, nothing, both, List.append_nil]
  rw [empty, List.append_nil, accept] at whole
  refine ⟨whole, ?_⟩
  rw [whole] at known
  rw [rx]
  rcases known with rfl | ⟨last, all⟩
  · decide
  · obtain rfl : words = [0x11234] := by simpa using congrArg List.dropLast all
    decide

/-- Where no more words come, the relays show every word that was accepted, after the time of the
words that are waiting and of the one that is on its way. -/
theorem run_arrives (run : (circuit relays).Run past s) {quiet : List AlexPins}
    (none : ∀ i ∈ quiet, i.sAxisTvalid = false) (long : 2178 * (s.fifo.length + 1) ≤ quiet.length) :
    Shows relays (past.flatMap accepted) ((circuit relays).after s quiet).relays := by
  obtain ⟨fewer, nothing⟩ := due_after run quiet none
  have onward := run.extend quiet
  have follows := run_follows onward
  have little := due_le (run_follows run)
  obtain ⟨empty, shows⟩ := follows.shown (by omega)
  have all := run_taken onward
  rw [empty, List.append_nil, List.flatMap_append, List.flatMap_append, nothing, List.append_nil,
    ← List.flatMap_append] at all
  rwa [all] at shows

end AlexLink

end Switcheck
