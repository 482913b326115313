import Switcheck.Sync.Circuit
import Switcheck.Sync.Fifo
import Switcheck.Modules.Buffers
import Switcheck.Modules.Verilog

/-!
# `axis_ram_reader`

A burst of sixteen words is requested once the FIFO has room for it, and no other until its last
word has come. The words are taken whenever they come. The Xilinx FIFO is ideal.
-/

namespace Switcheck

open Sync Circuit

/-- Parameters; `packing` carries `AXI_DATA_WIDTH` and `AXIS_TDATA_WIDTH` as word types. -/
structure ReaderParams (W α R : Type) where
  addrWidth : Nat
  axiAddrWidth : Nat
  axiDataWidth : Nat
  fifoWriteDepth : Nat
  packing : Packing W α R
  /-- The least depth the FIFO comes in. -/
  depth_le : 16 ≤ fifoWriteDepth

def ReaderParams.addrSize {W α R : Type} (p : ReaderParams W α R) : Nat :=
  clog2 (p.axiDataWidth / 8)

structure RamReader {W α R : Type} (p : ReaderParams W α R) where
  intArvalidReg : Bool
  intRvalidReg : Bool
  intAddrReg : BitVec p.addrWidth
  fifo0 : List α
  buf0 : OutputBuffer (BitVec p.axiAddrWidth)

structure ReaderPins (W : Type) where
  mAxiArready : Bool
  mAxiRlast : Bool
  mAxiRdata : W
  mAxiRvalid : Bool
  mAxisTready : Bool

structure ReaderSettings {W α R : Type} (p : ReaderParams W α R) where
  minAddr : BitVec p.axiAddrWidth
  cfgData : BitVec p.addrWidth

namespace RamReader

variable {W α R : Type} {p : ReaderParams W α R}

section Wires

variable (g : ReaderSettings p) (s : RamReader p) (i : ReaderPins W)

def intCountWire : Nat := p.packing.wrCount s.fifo0

def intFullWire : Bool := p.packing.full p.fifoWriteDepth s.fifo0

def intEmptyWire : Bool := decide (p.packing.count s.fifo0 = 0)

def intValidWire : Bool := decide (s.intCountWire < p.fifoWriteDepth - 15) && !s.intRvalidReg

def intArvalidWire : Bool := s.intValidWire || s.intArvalidReg

def intArreadyWire : Bool := s.buf0.inReady i.mAxiArready

def araddrNext : BitVec p.axiAddrWidth :=
  g.minAddr + (s.intAddrReg ++ 0#4 ++ 0#p.addrSize).setWidth p.axiAddrWidth

def mAxisTvalid : Bool := !s.intEmptyWire

def stsData : BitVec p.addrWidth := s.intAddrReg

end Wires

/-- A clock that assigns a register twice keeps the later assignment. -/
def posedge (aresetn : Bool) (g : ReaderSettings p) (s : RamReader p) (i : ReaderPins W) :
    RamReader p where
  intArvalidReg :=
    if !aresetn then false
    else if s.intArvalidWire && s.intArreadyWire i then false
    else if s.intValidWire then true
    else s.intArvalidReg
  intRvalidReg :=
    if !aresetn then false
    else if i.mAxiRlast then false
    else if s.intValidWire then true
    else s.intRvalidReg
  intAddrReg :=
    if !aresetn then 0
    else if s.intArvalidWire && s.intArreadyWire i then
      if s.intAddrReg < g.cfgData then s.intAddrReg + 1 else 0
    else s.intAddrReg
  fifo0 :=
    if !aresetn then []
    else p.packing.next p.fifoWriteDepth s.fifo0 i.mAxiRvalid i.mAxiRdata i.mAxisTready
  buf0 := s.buf0.posedge aresetn (s.araddrNext g) s.intArvalidWire i.mAxiArready

def circuit (g : ReaderSettings p) : Circuit (RamReader p) (ReaderPins W) where
  Reset s := ∃ s₀ i, s = posedge false g s₀ i
  tick := posedge true g

abbrev Tick (p : ReaderParams W α R) := Clock (RamReader p) (ReaderPins W)

/-! ### The ports -/

def arAccepted (c : Tick p) : List (BitVec p.axiAddrWidth) := c.regs.buf0.taken c.pins.mAxiArready

def returned (past : List (Tick p)) : Nat := past.countP fun c => c.pins.mAxiRvalid

def read (c : Tick p) : List α := p.packing.popped c.regs.fifo0 c.pins.mAxisTready

def mAccepted (c : Tick p) : List R :=
  beat (c.regs.mAxisTvalid && c.pins.mAxisTready) (p.packing.dout c.regs.fifo0)

/-- The slave answers the accepted bursts in order, each with sixteen words of the memory from its
address on, and marks the sixteenth. -/
structure Answers (mem : BitVec p.axiAddrWidth → W) (before : List (Tick p)) (c : Tick p) :
    Prop where
  data : c.pins.mAxiRvalid = true →
    ((before ++ [c]).flatMap arAccepted)[returned before / 16]?.map (fun addr =>
      mem (addr + BitVec.ofNat _ (2 ^ p.addrSize * (returned before % 16)))) = some c.pins.mAxiRdata
  last : c.pins.mAxiRlast = (c.pins.mAxiRvalid && decide (returned before % 16 = 15))

instance [DecidableEq W] (mem : BitVec p.axiAddrWidth → W) (before : List (Tick p)) (c : Tick p) :
    Decidable (Answers mem before c) :=
  decidable_of_iff ((c.pins.mAxiRvalid = true →
      ((before ++ [c]).flatMap arAccepted)[returned before / 16]?.map (fun addr =>
        mem (addr + BitVec.ofNat _ (2 ^ p.addrSize * (returned before % 16)))) =
          some c.pins.mAxiRdata) ∧
      c.pins.mAxiRlast = (c.pins.mAxiRvalid && decide (returned before % 16 = 15)))
    ⟨fun ⟨data, last⟩ => ⟨data, last⟩, fun ⟨data, last⟩ => ⟨data, last⟩⟩

def burstAddr (g : ReaderSettings p) (k : Nat) : BitVec p.axiAddrWidth :=
  g.minAddr + BitVec.ofNat _ (16 * 2 ^ p.addrSize * (k % (g.cfgData.toNat + 1)))

/-- The address of word `k`, round the ring of `16 * (cfg_data + 1)` words. -/
def wordAddr (g : ReaderSettings p) (k : Nat) : BitVec p.axiAddrWidth :=
  g.minAddr + BitVec.ofNat _ (2 ^ p.addrSize * (k % (16 * (g.cfgData.toNat + 1))))

/-- The lanes of the first `n` words. -/
def memoryLanes (g : ReaderSettings p) (mem : BitVec p.axiAddrWidth → W) (n : Nat) : List α :=
  (List.range n).flatMap fun k => p.packing.lanes (mem (wordAddr g k))

variable {g : ReaderSettings p} {mem : BitVec p.axiAddrWidth → W} {past : List (Tick p)}
  {s : RamReader p} {i : ReaderPins W}

theorem burst_word (g : ReaderSettings p) (k : Nat) :
    burstAddr g (k / 16) + BitVec.ofNat _ (2 ^ p.addrSize * (k % 16)) = wordAddr g k := by
  unfold burstAddr wordAddr
  rw [BitVec.add_assoc, ← BitVec.ofNat_add, Nat.mod_mul, Nat.mul_add, Nat.add_comm (_ * (k % 16)),
    ← Nat.mul_assoc, Nat.mul_comm 16]

/-! ### Requests -/

/-- A burst is under way from the clock it is requested in until its last word: then, and only
then, its address stands in the buffer or has been accepted. -/
structure Requests (g : ReaderSettings p) (past : List (Tick p)) (s : RamReader p) : Prop where
  none : s.intArvalidReg = false
  idle : s.intRvalidReg = false → returned past % 16 = 0 ∧ s.buf0.held = []
  turn : s.intAddrReg.toNat =
    (returned past / 16 + s.intRvalidReg.toNat) % (g.cfgData.toNat + 1)
  asked : past.flatMap arAccepted ++ s.buf0.held =
    (List.range (returned past / 16 + s.intRvalidReg.toNat)).map (burstAddr g)

/-- A burst that is under way finds room for the words that are still to come. -/
def Room (past : List (Tick p)) (s : RamReader p) : Prop :=
  s.intRvalidReg = true →
    s.fifo0.length + (16 - returned past % 16) * p.packing.wrLanes ≤
      p.fifoWriteDepth * p.packing.wrLanes

@[simp] theorem returned_snoc (past : List (Tick p)) (c : Tick p) :
    returned (past ++ [c]) = returned past + c.pins.mAxiRvalid.toNat := countP_snoc _ past c

theorem araddrNext_eq (g : ReaderSettings p) (s : RamReader p) :
    s.araddrNext g = g.minAddr + BitVec.ofNat _ (16 * 2 ^ p.addrSize * s.intAddrReg.toNat) := by
  rw [araddrNext, setWidth_burst]

theorem valid_idle (valid : s.intValidWire = true) : s.intRvalidReg = false := by
  simpa using ((Bool.and_eq_true _ _).mp valid).2

theorem requests_reset (reset : (circuit g).Reset s) : Requests g [] s := by
  obtain ⟨s₀, i, rfl⟩ := reset
  refine ⟨rfl, fun _ => ⟨rfl, rfl⟩, by simp [posedge, returned], ?_⟩
  simp [posedge, returned, OutputBuffer.held, OutputBuffer.posedge]

theorem Requests.issues (inv : Requests g past s) (i : ReaderPins W) :
    (s.intArvalidWire && s.intArreadyWire i) = s.intValidWire := by
  cases valid : s.intValidWire with
  | true =>
    have free : s.intArreadyWire i = true :=
      s.buf0.inReady_of_empty (inv.idle (valid_idle valid)).2
    simp [intArvalidWire, valid, free]
  | false => simp [intArvalidWire, valid, inv.none]

theorem arAccepted_append_held (inv : Requests g past s) (i : ReaderPins W) :
    arAccepted ⟨s, i⟩ ++ (posedge true g s i).buf0.held =
      s.buf0.held ++ beat s.intValidWire (s.araddrNext g) := by
  have moves := s.buf0.taken_append_held (s.araddrNext g) s.intArvalidWire i.mAxiArready
  rw [← inv.issues i]
  exact moves

theorem Requests.quiet (inv : Requests g past s) (answers : Answers mem past ⟨s, i⟩)
    (idle : s.intRvalidReg = false) : i.mAxiRvalid = false := by
  cases comes : i.mAxiRvalid with
  | false => rfl
  | true =>
    obtain ⟨addr, found, -⟩ := Option.map_eq_some_iff.mp (answers.data comes)
    have empty := (inv.idle idle).2
    have none : arAccepted (⟨s, i⟩ : Tick p) = [] := by
      have taken := s.buf0.taken_append_held (s.araddrNext g) false i.mAxiArready
      rw [empty] at taken
      exact (List.append_eq_nil_iff.mp taken).1
    have all := inv.asked
    rw [empty, List.append_nil, idle] at all
    rw [flatMap_snoc, none, List.append_nil, all] at found
    simp at found

theorem posedge_rvalid : (posedge true g s i).intRvalidReg =
    if i.mAxiRlast then false else s.intValidWire || s.intRvalidReg := by
  unfold posedge
  cases s.intValidWire <;> rfl

/-- A clock ends the burst with its sixteenth word, begins the next one, or does neither. -/
theorem Requests.progress (inv : Requests g past s) (answers : Answers mem past ⟨s, i⟩) :
    returned (past ++ [⟨s, i⟩]) / 16 + (posedge true g s i).intRvalidReg.toNat =
      returned past / 16 + s.intRvalidReg.toNat + s.intValidWire.toNat ∧
    ((posedge true g s i).intRvalidReg = false → returned (past ++ [⟨s, i⟩]) % 16 = 0) := by
  have last : i.mAxiRlast = (i.mAxiRvalid && decide (returned past % 16 = 15)) := answers.last
  rw [posedge_rvalid, returned_snoc, last]
  cases busy : s.intRvalidReg with
  | false =>
    have whole := (inv.idle busy).1
    rw [inv.quiet answers busy]
    cases s.intValidWire <;> simp [whole]
  | true =>
    have idle : s.intValidWire = false := by
      cases valid : s.intValidWire with
      | false => rfl
      | true =>
        rw [valid_idle valid] at busy
        cases busy
    rw [idle]
    cases i.mAxiRvalid with
    | false => simp
    | true =>
      by_cases ends : returned past % 16 = 15
      · simp only [ends, decide_true, Bool.and_self, if_true, Bool.toNat_true, Bool.toNat_false]
        omega
      · simp only [ends, decide_false, Bool.and_false, Bool.false_eq_true, if_false,
          Bool.or_true, Bool.toNat_true, Bool.toNat_false, Bool.true_eq_false, false_implies,
          and_true]
        omega

theorem asked_step (inv : Requests g past s) (answers : Answers mem past ⟨s, i⟩) :
    List.flatMap arAccepted (past ++ [⟨s, i⟩]) ++ (posedge true g s i).buf0.held =
      (List.range (returned (past ++ [⟨s, i⟩]) / 16 +
        (posedge true g s i).intRvalidReg.toNat)).map (burstAddr g) := by
  rw [flatMap_snoc, List.append_assoc, arAccepted_append_held inv i, ← List.append_assoc,
    inv.asked, (inv.progress answers).1]
  cases s.intValidWire with
  | false => simp
  | true =>
    rw [beat_true, Bool.toNat_true, List.range_succ, List.map_append, List.map_singleton,
      araddrNext_eq, inv.turn]
    rfl

theorem held_ended (inv : Requests g past s) (answers : Answers mem past ⟨s, i⟩)
    (ended : (posedge true g s i).intRvalidReg = false) :
    (posedge true g s i).buf0.held = [] := by
  cases comes : i.mAxiRvalid with
  | false =>
    have last : i.mAxiRlast = false := by
      have marked := answers.last
      rw [comes] at marked
      exact marked
    have quiet : s.intValidWire = false ∧ s.intRvalidReg = false := by
      simpa [posedge_rvalid, last] using ended
    have moves := arAccepted_append_held inv i
    rw [quiet.1, (inv.idle quiet.2).2] at moves
    exact (List.append_eq_nil_iff.mp moves).2
  | true =>
    obtain ⟨addr, found, -⟩ := Option.map_eq_some_iff.mp (answers.data comes)
    obtain ⟨here, -⟩ := List.getElem?_eq_some_iff.mp found
    have whole := (inv.progress answers).2 ended
    have lengths := congrArg List.length (asked_step inv answers)
    rw [returned_snoc, comes] at whole lengths
    rw [ended, List.length_append, List.length_map, List.length_range] at lengths
    simp only [Bool.toNat_true, Bool.toNat_false] at whole lengths
    exact List.eq_nil_of_length_eq_zero (by omega)

theorem requests_step (inv : Requests g past s) (answers : Answers mem past ⟨s, i⟩) :
    Requests g (past ++ [⟨s, i⟩]) (posedge true g s i) := by
  obtain ⟨total, whole⟩ := inv.progress answers
  have issues := inv.issues i
  refine ⟨?_, fun ended => ⟨whole ended, held_ended inv answers ended⟩, ?_, asked_step inv answers⟩
  · cases valid : s.intValidWire <;> simp [posedge, issues, valid, inv.none]
  · rw [total]
    cases valid : s.intValidWire with
    | false => simpa [posedge, issues, valid] using inv.turn
    | true =>
      have next := toNat_ringNext (c := g.cfgData) inv.turn
      simpa [posedge, issues, valid] using next

/-! ### Room in the FIFO -/

theorem room_now (inv : Requests g past s) (room : Room past s)
    (answers : Answers mem past ⟨s, i⟩) (comes : i.mAxiRvalid = true) : s.intFullWire = false := by
  cases busy : s.intRvalidReg with
  | false =>
    rw [inv.quiet answers busy] at comes
    cases comes
  | true =>
    have space := room busy
    have some : 1 ≤ 16 - returned past % 16 := by omega
    have one := Nat.mul_le_mul_right p.packing.wrLanes some
    simp only [intFullWire, Packing.full, decide_eq_false_iff_not]
    omega

theorem fifo_grows : (posedge true g s i).fifo0.length ≤
    s.fifo0.length + i.mAxiRvalid.toNat * p.packing.wrLanes := by
  have law := p.packing.next_length p.fifoWriteDepth s.fifo0 i.mAxiRvalid i.mAxiRdata i.mAxisTready
  have one : (p.packing.pushed p.fifoWriteDepth s.fifo0 i.mAxiRvalid i.mAxiRdata).length ≤
      i.mAxiRvalid.toNat * p.packing.wrLanes := by
    unfold Packing.pushed
    split
    · rename_i pushes
      rw [p.packing.lanes_length, pushes.1, Bool.toNat_true, Nat.one_mul]
    · exact Nat.zero_le _
  show (p.packing.next p.fifoWriteDepth s.fifo0 i.mAxiRvalid i.mAxiRdata i.mAxisTready).length ≤ _
  omega

theorem room_step (inv : Requests g past s) (room : Room past s)
    (answers : Answers mem past ⟨s, i⟩) : Room (past ++ [⟨s, i⟩]) (posedge true g s i) := by
  intro busy'
  have grows := fifo_grows (g := g) (s := s) (i := i)
  have running : i.mAxiRlast = false ∧ (s.intValidWire || s.intRvalidReg) = true := by
    simpa [posedge_rvalid] using busy'
  rw [returned_snoc]
  cases busy : s.intRvalidReg with
  | false =>
    have valid : s.intValidWire = true := by simpa [busy] using running.2
    have few : s.intCountWire ≤ p.fifoWriteDepth - 16 := by
      have below : s.intCountWire < p.fifoWriteDepth - 15 := by
        simpa using ((Bool.and_eq_true _ _).mp valid).1
      omega
    have space := p.packing.wrCount_le.mp few
    have depth : (p.fifoWriteDepth - 16) * p.packing.wrLanes + 16 * p.packing.wrLanes =
        p.fifoWriteDepth * p.packing.wrLanes := by
      rw [← Nat.add_mul, Nat.sub_add_cancel p.depth_le]
    rw [inv.quiet answers busy, Bool.toNat_false, Nat.zero_mul] at grows
    rw [inv.quiet answers busy, Bool.toNat_false, Nat.add_zero, (inv.idle busy).1]
    omega
  | true =>
    have space := room busy
    have last : i.mAxiRlast = (i.mAxiRvalid && decide (returned past % 16 = 15)) := answers.last
    cases comes : i.mAxiRvalid with
    | false =>
      rw [comes, Bool.toNat_false, Nat.zero_mul] at grows
      rw [Bool.toNat_false, Nat.add_zero]
      omega
    | true =>
      have more : returned past % 16 ≠ 15 := by
        intro ends
        rw [running.1, comes, ends] at last
        cases last
      have left : 16 - returned past % 16 = 16 - (returned past + 1) % 16 + 1 := by omega
      rw [left, Nat.succ_mul] at space
      rw [comes, Bool.toNat_true, Nat.one_mul] at grows
      rw [Bool.toNat_true]
      omega

/-! ### The words in the FIFO -/

theorem comes_next (inv : Requests g past s) (answers : Answers mem past ⟨s, i⟩)
    (comes : i.mAxiRvalid = true) : i.mAxiRdata = mem (wordAddr g (returned past)) := by
  obtain ⟨addr, found, data⟩ := Option.map_eq_some_iff.mp (answers.data comes)
  obtain ⟨here, -⟩ := List.getElem?_eq_some_iff.mp found
  have all := found
  rw [← List.getElem?_append_left here, asked_step inv answers] at all
  have inside := (List.getElem?_eq_some_iff.mp all).1
  rw [List.length_map, List.length_range] at inside
  rw [List.getElem?_map, List.getElem?_range inside, Option.map_some, Option.some_inj] at all
  rw [← burst_word, all]
  exact data.symm

/-- The memory up to the last word that has come is what has been read and what the FIFO holds. -/
structure ReaderInv (g : ReaderSettings p) (mem : BitVec p.axiAddrWidth → W)
    (past : List (Tick p)) (s : RamReader p) : Prop where
  requests : Requests g past s
  room : Room past s
  lanes : past.flatMap read ++ s.fifo0 = memoryLanes g mem (returned past)

theorem memoryLanes_succ (g : ReaderSettings p) (mem : BitVec p.axiAddrWidth → W) (n : Nat) :
    memoryLanes g mem (n + 1) =
      memoryLanes g mem n ++ p.packing.lanes (mem (wordAddr g n)) := by
  simp [memoryLanes, List.range_succ]

theorem lanes_step (inv : ReaderInv g mem past s) (answers : Answers mem past ⟨s, i⟩) :
    List.flatMap read (past ++ [⟨s, i⟩]) ++ (posedge true g s i).fifo0 =
      memoryLanes g mem (returned (past ++ [⟨s, i⟩])) := by
  have law : read ⟨s, i⟩ ++ (posedge true g s i).fifo0 =
      s.fifo0 ++ p.packing.pushed p.fifoWriteDepth s.fifo0 i.mAxiRvalid i.mAxiRdata :=
    p.packing.popped_append_next ..
  rw [flatMap_snoc, List.append_assoc, law, ← List.append_assoc, inv.lanes, returned_snoc]
  cases comes : i.mAxiRvalid with
  | false => simp [Packing.pushed]
  | true =>
    have free := room_now inv.requests inv.room answers comes
    have pushed : p.packing.pushed p.fifoWriteDepth s.fifo0 true i.mAxiRdata =
        p.packing.lanes i.mAxiRdata :=
      if_pos ⟨rfl, by rw [show p.packing.full p.fifoWriteDepth s.fifo0 = false from free]; simp⟩
    rw [pushed, comes_next inv.requests answers comes, Bool.toNat_true, memoryLanes_succ]

/-- A word comes only while the FIFO has room for it. -/
def Fits (_ : List (Tick p)) (c : Tick p) : Prop :=
  c.pins.mAxiRvalid = true → c.regs.intFullWire = false

theorem run_readerInv (run : (circuit g).Run past s) (answers : Held (Answers mem) past) :
    ReaderInv g mem past s ∧ Held Fits past := by
  refine run.entails ?_ ?_ ?_ answers
  · intro s reset
    refine ⟨requests_reset reset, fun busy => ?_, ?_⟩
    · obtain ⟨s₀, i, rfl⟩ := reset
      cases busy
    · obtain ⟨s₀, i, rfl⟩ := reset
      rfl
  · intro past s i _ inv answers comes
    exact room_now inv.requests inv.room answers comes
  · intro past s i _ inv answers _
    exact ⟨requests_step inv.requests answers, room_step inv.requests inv.room answers,
      lanes_step inv answers⟩

/-! ### The output -/

theorem run_words (run : (circuit g).Run past s) :
    p.packing.rdLanes ∣ (past.flatMap read).length ∧
      past.flatMap mAccepted = p.packing.words (past.flatMap read) := by
  induction run with
  | reset => exact ⟨Nat.dvd_zero _, p.packing.words_nil.symm⟩
  | @tick past s run i ih =>
    obtain ⟨whole, same⟩ := ih
    have reads : read (⟨s, i⟩ : Tick p) =
        p.packing.popped s.fifo0 (s.mAxisTvalid && i.mAxisTready) := by
      unfold read mAxisTvalid intEmptyWire Packing.popped
      by_cases empty : p.packing.count s.fifo0 = 0 <;> simp [empty, Nat.pos_iff_ne_zero]
    have complete : (s.mAxisTvalid && i.mAxisTready) = true → 0 < p.packing.count s.fifo0 := by
      intro passes
      have valid := ((Bool.and_eq_true _ _).mp passes).1
      simpa [mAxisTvalid, intEmptyWire, Nat.pos_iff_ne_zero] using valid
    obtain ⟨whole', words⟩ := p.packing.words_append_popped whole complete
    rw [flatMap_snoc, flatMap_snoc, reads, words, same]
    exact ⟨whole', rfl⟩

/-- With a slave that answers as asked at most one burst is outstanding, no word comes while the
FIFO is full, and the output is the memory from `min_addr` on, round the ring. -/
theorem run_reads (run : (circuit g).Run past s) (answers : Held (Answers mem) past) :
    (past.flatMap arAccepted).length ≤ returned past / 16 + 1 ∧ Held Fits past ∧
    past.flatMap mAccepted <+: p.packing.words (memoryLanes g mem (returned past)) := by
  obtain ⟨inv, fits⟩ := run_readerInv run answers
  obtain ⟨whole, same⟩ := run_words run
  refine ⟨?_, fits, ?_⟩
  · have lengths := congrArg List.length inv.requests.asked
    have one := Bool.toNat_le s.intRvalidReg
    rw [List.length_append, List.length_map, List.length_range] at lengths
    omega
  · rw [same, ← inv.lanes, p.packing.words_append _ whole]
    exact List.prefix_append _ _

def reader64 : ReaderParams Nat Nat Nat where
  addrWidth := 4
  axiAddrWidth := 32
  axiDataWidth := 64
  fifoWriteDepth := 32
  packing :=
    { wrLanes := 1, rdLanes := 1, lanes w := [w], word xs := xs.headD 0, lanes_length _ := rfl,
      wrLanes_pos := Nat.one_pos, rdLanes_pos := Nat.one_pos }
  depth_le := by decide

def settings64 : ReaderSettings reader64 := ⟨4096, 1⟩

def fresh : RamReader reader64 := ⟨false, false, 0, [], ⟨4096, false⟩⟩

theorem fresh_reset : (circuit settings64).Reset fresh :=
  ⟨fresh, ⟨false, false, 0, false, false⟩, rfl⟩

/-- One burst, the FIFO read from the middle of it on. -/
def oneBurst : List (ReaderPins Nat) :=
  [⟨false, false, 0, false, true⟩, ⟨true, false, 0, false, true⟩] ++
    (List.range 16).map fun k => ⟨false, k == 15, 4096 + 8 * k, true, decide (8 < k)⟩

theorem run_reads_oneBurst :
    Held Fits ((circuit settings64).trace fresh oneBurst) ∧
    ((circuit settings64).trace fresh oneBurst).flatMap mAccepted =
      [4096, 4104, 4112, 4120, 4128, 4136, 4144] :=
  ⟨(run_reads (run_trace fresh_reset oneBurst)
      (by decide +kernel : Held (Answers BitVec.toNat) _)).2.1, by decide +kernel⟩

end RamReader

end Switcheck
