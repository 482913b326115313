import Switcheck.Sync.BurstQueue
import Switcheck.Sync.RegisterFile
import Switcheck.Hub.AxiHub

/-!
# The write path

`cfg_data` is a register file under the write bursts consumed so far: the `k`-th burst goes to
the `k`-th request, beat by beat, and is answered after its last beat.
-/

namespace Switcheck

open Sync Circuit

/-! ### What the bursts write -/

/-- The region `awaddr[27:24]` and the word `awaddr >> 2` in it. -/
def AwReq.region (aw : AwReq) : Nat := (aw.awaddr.extractLsb' 24 4).toNat

def AwReq.word (aw : AwReq) : Nat := (aw.awaddr.extractLsb' 2 22).toNat

/-- Beat `k` of a burst goes to the `k`-th word from its address. -/
def burstWrites (aw : AwReq) (burst : List WBeat) : List StrobedWrite :=
  burst.mapIdx fun k b => ⟨aw.word + k, b.wstrb, b.wdata⟩

/-- The writes of the beats consumed: the bursts against the requests, in order. -/
def schedule (aws : List AwReq) (beats : List WBeat) : List StrobedWrite :=
  (List.zipWith burstWrites aws (bursts WBeat.wlast beats)).flatten

/-- Bursts of at most 16 beats, each beat to a word of the configuration register. -/
def InCfg (p : HubParams) (aws : List AwReq) (beats : List WBeat) : Prop :=
  ∀ write ∈ aws.zip (bursts WBeat.wlast beats), write.2.length ≤ 16 ∧ write.1.region = 0 ∧
    ∀ n < write.2.length, write.1.word + n < p.cfgSize ∧ write.1.word + n < 2 ^ 22

instance (p : HubParams) (aws : List AwReq) (beats : List WBeat) : Decidable (InCfg p aws beats) :=
  List.decidableBAll _ _

theorem inCfg_iff {p : HubParams} {aws : List AwReq} {beats : List WBeat} :
    InCfg p aws beats ↔ ∀ (k : Nat) (aw : AwReq) (burst : List WBeat),
      aws[k]? = some aw → (bursts WBeat.wlast beats)[k]? = some burst →
        burst.length ≤ 16 ∧ aw.region = 0 ∧
          ∀ n < burst.length, aw.word + n < p.cfgSize ∧ aw.word + n < 2 ^ 22 := by
  constructor
  · intro inside k aw burst request found
    refine inside (aw, burst) (List.mem_iff_getElem?.mpr ⟨k, ?_⟩)
    exact List.getElem?_zip_eq_some.mpr ⟨request, found⟩
  · rintro inside ⟨aw, burst⟩ member
    obtain ⟨k, found⟩ := List.mem_iff_getElem?.mp member
    obtain ⟨request, burst'⟩ := List.getElem?_zip_eq_some.mp found
    exact inside k aw burst request burst'

theorem InCfg.mono {p : HubParams} {aws aws' : List AwReq} {beats beats' : List WBeat}
    (inside : InCfg p aws' beats') (fewer : aws <+: aws') (shorter : beats <+: beats') :
    InCfg p aws beats := by
  refine inCfg_iff.mpr fun k aw burst request found => ?_
  obtain ⟨whole, found', front⟩ := bursts_mono _ shorter found
  obtain ⟨length, region, words⟩ :=
    inCfg_iff.mp inside k aw whole (getElem?_mono fewer request) found'
  have less := front.length_le
  exact ⟨by omega, region, fun n low => words n (by omega)⟩

@[simp] theorem burstWrites_nil (aw : AwReq) : burstWrites aw [] = [] := rfl

theorem burstWrites_snoc (aw : AwReq) (burst : List WBeat) (b : WBeat) :
    burstWrites aw (burst ++ [b]) =
      burstWrites aw burst ++ [⟨aw.word + burst.length, b.wstrb, b.wdata⟩] := by
  simp [burstWrites, List.mapIdx_append]

theorem schedule_split {popped waiting : List AwReq} {beats : List WBeat}
    (closed : popped.length = (frames WBeat.wlast beats).length) :
    schedule (popped ++ waiting) beats =
      (List.zipWith burstWrites popped (frames WBeat.wlast beats)).flatten ++
        (List.zipWith burstWrites waiting [rest WBeat.wlast beats]).flatten := by
  rw [schedule, bursts, List.zipWith_append closed, List.flatten_append]

namespace AxiHub

variable {p : HubParams} {past : List (Tick p)} {s : AxiHub p} {i : HubPins p}

/-! ### One clock of the write path -/

theorem wConsumed_eq (c : Tick p) :
    wConsumed c = beat (c.regs.intWeWire c.pins) c.regs.buf1.outData := by
  unfold wConsumed InoutBuffer.taken intWreadyWire intWeWire
  rw [Bool.and_comm]

theorem awPopped_eq (c : Tick p) : awPopped c =
    beat (c.regs.intWeWire c.pins && c.regs.buf1.outData.wlast) c.regs.buf0.outData := by
  unfold awPopped InoutBuffer.taken intAwreadyWire intWeWire
  cases c.regs.buf0.outValid <;> simp

theorem bQueued_eq (c : Tick p) : bQueued c =
    beat (c.regs.intWeWire c.pins && c.regs.buf1.outData.wlast) c.regs.buf0.outData.awid := by
  unfold bQueued OutputBuffer.put intBvalidWire intWeWire intBreadyWire
  cases c.regs.buf2.inReady c.pins.sAxiBready <;> simp

theorem posedge_awcntr : (posedge true s i).intAwcntrReg =
    if s.intWeWire i then if s.buf1.outData.wlast then 0 else s.intAwcntrReg + 1
    else s.intAwcntrReg := by
  unfold posedge intAwcntrNext intAwreadyWire intWeWire
  cases s.intBreadyWire i <;> cases s.buf0.outValid <;> cases s.buf1.outValid <;>
    cases s.buf1.outData.wlast <;> simp

/-- The flip-flops of a word merge the strobed bytes when the word is enabled. -/
theorem posedge_cfgData (j : Fin p.cfgSize) : (posedge true s i).cfgData j =
    if s.intCeWire i j then mergeBytes (s.cfgData j) s.buf1.outData.wdata s.buf1.outData.wstrb
    else s.cfgData j := by
  refine BitVec.eq_of_getLsbD_eq fun k low => ?_
  rw [posedge, ofBits_getLsbD _ low]
  cases enabled : s.intCeWire i j with
  | false => simp [fdre]
  | true => simp [fdre, mergeBytes_getLsbD _ _ _ low]

theorem cfgSize_le (p : HubParams) : p.cfgSize ≤ 2 ^ p.cfgWidth := by
  unfold HubParams.cfgWidth
  split
  · exact le_two_pow_clog2 _
  · omega

theorem intCeWire_eq (we : s.intWeWire i = true) (region : s.buf0.outData.region = 0) {n : Nat}
    (counter : s.intAwcntrReg.toNat = n) (inside : s.buf0.outData.word + n < p.cfgSize)
    (range : s.buf0.outData.word + n < 2 ^ 22) (j : Nat) :
    s.intCeWire i j = decide (j = s.buf0.outData.word + n) := by
  have small : n < 16 := counter ▸ s.intAwcntrReg.isLt
  have width := cfgSize_le p
  have address : (s.intWaddrWire.setWidth p.cfgWidth).toNat = s.buf0.outData.word + n := by
    rw [intWaddrWire, BitVec.toNat_setWidth, BitVec.toNat_add, BitVec.toNat_setWidth, counter,
      Nat.mod_eq_of_lt (show n < 2 ^ 22 by omega)]
    rw [AwReq.word] at inside range ⊢
    rw [Nat.mod_eq_of_lt range, Nat.mod_eq_of_lt (by omega)]
  have selected : s.intWselWire i 0 = true := by
    rw [intWselWire, we, Bool.true_and, decide_eq_true_iff]
    exact region
  rw [intCeWire, selected, Bool.true_and, address]
  exact decide_eq_decide.mpr eq_comm

/-! ### The bursts and their requests -/

theorem head?_of_we (we : s.intWeWire i = true) : s.buf0.held.head? = some s.buf0.outData := by
  unfold intWeWire at we
  rw [Bool.and_eq_true, Bool.and_eq_true] at we
  rw [InoutBuffer.held_of_outValid we.1.2]
  rfl

/-- Write bursts are served for the request in front of `buf_0`. -/
def writes (p : HubParams) : BurstQueue (circuit p) AwReq WBeat where
  queue s := s.buf0.held
  accepted := awAccepted
  popped := awPopped
  served := wConsumed
  last := WBeat.wlast
  empty _ reset := (reset_fields reset).2.2.2.1
  conserve s _ := s.buf0.taken_append_held ..
  serves c := by
    rw [wConsumed_eq, awPopped_eq]
    cases we : c.regs.intWeWire c.pins with
    | false => exact Or.inl ⟨rfl, rfl⟩
    | true => exact Or.inr ⟨c.regs.buf0.outData, c.regs.buf1.outData, head?_of_we we, rfl, rfl⟩

/-! ### The invariant -/

/-- The writes of the beats consumed, the open burst at the request in front. -/
def written (past : List (Tick p)) (s : AxiHub p) : List StrobedWrite :=
  (List.zipWith burstWrites (past.flatMap awPopped)
    (frames WBeat.wlast (past.flatMap wConsumed))).flatten ++
      burstWrites s.buf0.outData (rest WBeat.wlast (past.flatMap wConsumed))

structure WriteInv (past : List (Tick p)) (s : AxiHub p) : Prop where
  closed : (past.flatMap awPopped).length =
    (frames WBeat.wlast (past.flatMap wConsumed)).length
  counter : s.intAwcntrReg.toNat = (rest WBeat.wlast (past.flatMap wConsumed)).length % 16
  opened : rest WBeat.wlast (past.flatMap wConsumed) ≠ [] → s.buf0.outValid = true
  stored : InCfg p (past.flatMap awAccepted) (past.flatMap wAccepted) →
    s.cfgData = RegisterFile.after (written past s)
  answered : past.flatMap bQueued = (past.flatMap awPopped).map AwReq.awid

theorem writeInv_of_stored (run : (circuit p).Run past s)
    (counter : s.intAwcntrReg.toNat = (rest WBeat.wlast (past.flatMap wConsumed)).length % 16)
    (stored : InCfg p (past.flatMap awAccepted) (past.flatMap wAccepted) →
      s.cfgData = RegisterFile.after (written past s))
    (answered : past.flatMap bQueued = (past.flatMap awPopped).map AwReq.awid) :
    WriteInv past s := by
  obtain ⟨settled, -⟩ := run_settled run
  obtain ⟨closed, opened⟩ := (writes p).run_closed run
  refine ⟨closed, counter, fun some => ?_, stored, answered⟩
  obtain ⟨aw, front⟩ := opened some
  refine InoutBuffer.outValid_of_held settled fun none => ?_
  have front' : s.buf0.held.head? = Option.some aw := front
  simp [none] at front'

theorem writeInv_reset (reset : (circuit p).Reset s) : WriteInv [] s := by
  obtain ⟨counter, -, cfg, -⟩ := reset_fields reset
  refine writeInv_of_stored (.reset reset) ?_ (fun _ => cfg) rfl
  rw [counter]
  rfl

theorem consumed_of_we (run : (circuit p).Run past s) (we : s.intWeWire i = true) :
    past.flatMap wConsumed ++ [s.buf1.outData] <+: past.flatMap wAccepted := by
  unfold intWeWire at we
  rw [Bool.and_eq_true] at we
  rw [← run_w run, InoutBuffer.held_of_outValid we.2]
  exact ⟨s.buf1.buf0.held, by simp⟩

theorem WriteInv.write_step (run : (circuit p).Run past s) (inv : WriteInv past s)
    (we : s.intWeWire i = true) (inside : InCfg p (past.flatMap awAccepted) (past.flatMap wAccepted)) :
    (posedge true s i).cfgData = RegisterFile.apply s.cfgData
      ⟨s.buf0.outData.word + (rest WBeat.wlast (past.flatMap wConsumed)).length,
        s.buf1.outData.wstrb, s.buf1.outData.wdata⟩ := by
  have request := (writes p).run_front run (head?_of_we we)
  obtain ⟨whole, found, front⟩ := bursts_mono _ (consumed_of_we run we) (bursts_snoc_getElem _ _ _)
  obtain ⟨length, region, words⟩ := inCfg_iff.mp inside _ _ _ request found
  have less := front.length_le
  rw [List.length_append, List.length_singleton] at less
  obtain ⟨low, range⟩ := words (rest WBeat.wlast (past.flatMap wConsumed)).length (by omega)
  have counter := inv.counter
  rw [Nat.mod_eq_of_lt (by omega)] at counter
  funext j
  rw [posedge_cfgData, intCeWire_eq we region counter low range]
  simp only [decide_eq_true_eq, RegisterFile.apply]

theorem writeInv_rest (run : (circuit p).Run past s) (inv : WriteInv past s)
    (we : s.intWeWire i = false) : WriteInv (past ++ [⟨s, i⟩]) (posedge true s i) := by
  have consumed : (past ++ [Clock.mk s i]).flatMap wConsumed = past.flatMap wConsumed := by
    simp [wConsumed_eq, we]
  have popped : (past ++ [Clock.mk s i]).flatMap awPopped = past.flatMap awPopped := by
    simp [awPopped_eq, we]
  have queued : (past ++ [Clock.mk s i]).flatMap bQueued = past.flatMap bQueued := by
    simp [bQueued_eq, we]
  have stays : s.buf0.outValid = true → (posedge true s i).buf0.outValid = true ∧
      (posedge true s i).buf0.outData = s.buf0.outData := by
    intro valid
    have held : s.intAwreadyWire i = false := by
      simp only [intWeWire, valid, Bool.and_true] at we
      simp [intAwreadyWire, we]
    exact posedge_buf0_stalled valid held
  have same : written (past ++ [⟨s, i⟩]) (posedge true s i) = written past s := by
    unfold written
    rw [popped, consumed]
    by_cases none : rest WBeat.wlast (past.flatMap wConsumed) = []
    · rw [none, burstWrites_nil, burstWrites_nil]
    · rw [(stays (inv.opened none)).2]
  refine writeInv_of_stored (run.tick i) ?_ ?_ ?_
  · have next := posedge_awcntr (s := s) (i := i)
    rw [we] at next
    rw [consumed, ← inv.counter]
    exact congrArg BitVec.toNat next
  · intro inside
    rw [same, ← inv.stored (inside.mono (by simp) (by simp))]
    funext j
    rw [posedge_cfgData, intCeWire, intWselWire, we]
    rfl
  · rw [queued, popped]
    exact inv.answered

theorem wConsumed_snoc (we : s.intWeWire i = true) :
    (past ++ [Clock.mk s i]).flatMap wConsumed = past.flatMap wConsumed ++ [s.buf1.outData] := by
  simp [wConsumed_eq, we]

theorem WriteInv.stored_step (run : (circuit p).Run past s) (inv : WriteInv past s)
    (we : s.intWeWire i = true)
    (more : written (past ++ [⟨s, i⟩]) (posedge true s i) = written past s ++
      [⟨s.buf0.outData.word + (rest WBeat.wlast (past.flatMap wConsumed)).length,
        s.buf1.outData.wstrb, s.buf1.outData.wdata⟩])
    (inside : InCfg p ((past ++ [Clock.mk s i]).flatMap awAccepted)
      ((past ++ [Clock.mk s i]).flatMap wAccepted)) :
    (posedge true s i).cfgData =
      RegisterFile.after (written (past ++ [⟨s, i⟩]) (posedge true s i)) := by
  have inside' : InCfg p (past.flatMap awAccepted) (past.flatMap wAccepted) :=
    inside.mono (by simp) (by simp)
  rw [inv.write_step run we inside', more, RegisterFile.after_append, inv.stored inside']
  rfl

theorem WriteInv.answered_step (inv : WriteInv past s) (we : s.intWeWire i = true) :
    (past ++ [Clock.mk s i]).flatMap bQueued =
      ((past ++ [Clock.mk s i]).flatMap awPopped).map AwReq.awid := by
  have queued : (past ++ [Clock.mk s i]).flatMap bQueued =
      past.flatMap bQueued ++ beat s.buf1.outData.wlast s.buf0.outData.awid := by
    simp [bQueued_eq, we]
  have popped : (past ++ [Clock.mk s i]).flatMap awPopped =
      past.flatMap awPopped ++ beat s.buf1.outData.wlast s.buf0.outData := by
    simp [awPopped_eq, we]
  rw [queued, popped, List.map_append, map_beat, inv.answered]

theorem writeInv_last (run : (circuit p).Run past s) (inv : WriteInv past s)
    (we : s.intWeWire i = true) (last : s.buf1.outData.wlast = true) :
    WriteInv (past ++ [⟨s, i⟩]) (posedge true s i) := by
  have closed := inv.closed
  have popped : (past ++ [Clock.mk s i]).flatMap awPopped =
      past.flatMap awPopped ++ [s.buf0.outData] := by
    simp [awPopped_eq, we, last]
  have frames' : frames WBeat.wlast ((past ++ [Clock.mk s i]).flatMap wConsumed) =
      frames WBeat.wlast (past.flatMap wConsumed) ++
        [rest WBeat.wlast (past.flatMap wConsumed) ++ [s.buf1.outData]] := by
    rw [wConsumed_snoc we, frames_snoc, if_pos last]
  have rest' : rest WBeat.wlast ((past ++ [Clock.mk s i]).flatMap wConsumed) = [] := by
    rw [wConsumed_snoc we, rest_snoc, if_pos last]
  refine writeInv_of_stored (run.tick i) ?_ (inv.stored_step run we ?_) (inv.answered_step we)
  · have next := posedge_awcntr (s := s) (i := i)
    rw [we, if_pos rfl, if_pos last] at next
    rw [rest']
    exact congrArg BitVec.toNat next
  · unfold written
    rw [popped, frames', rest', List.zipWith_append closed, List.flatten_append,
      burstWrites_nil, List.append_nil, List.append_assoc, ← burstWrites_snoc]
    simp

theorem writeInv_open (run : (circuit p).Run past s) (inv : WriteInv past s)
    (we : s.intWeWire i = true) (last : s.buf1.outData.wlast = false) :
    WriteInv (past ++ [⟨s, i⟩]) (posedge true s i) := by
  have popped : (past ++ [Clock.mk s i]).flatMap awPopped = past.flatMap awPopped := by
    simp [awPopped_eq, last]
  have frames' : frames WBeat.wlast ((past ++ [Clock.mk s i]).flatMap wConsumed) =
      frames WBeat.wlast (past.flatMap wConsumed) := by
    rw [wConsumed_snoc we, frames_snoc, last, if_neg Bool.false_ne_true]
  have rest' : rest WBeat.wlast ((past ++ [Clock.mk s i]).flatMap wConsumed) =
      rest WBeat.wlast (past.flatMap wConsumed) ++ [s.buf1.outData] := by
    rw [wConsumed_snoc we, rest_snoc, last, if_neg Bool.false_ne_true]
  have valid : s.buf0.outValid = true := by
    simp only [intWeWire, Bool.and_eq_true] at we
    exact we.1.2
  have held : s.intAwreadyWire i = false := by simp [intAwreadyWire, last]
  have stays := posedge_buf0_stalled valid held
  refine writeInv_of_stored (run.tick i) ?_ (inv.stored_step run we ?_) (inv.answered_step we)
  · have next := posedge_awcntr (s := s) (i := i)
    rw [we, if_pos rfl, last, if_neg Bool.false_ne_true] at next
    have count := congrArg BitVec.toNat next
    rw [BitVec.toNat_add, inv.counter] at count
    rw [rest', List.length_append]
    exact count.trans (Nat.mod_add_mod ..)
  · unfold written
    rw [popped, frames', rest', stays.2, burstWrites_snoc, List.append_assoc]

theorem run_writeInv (run : (circuit p).Run past s) : WriteInv past s := by
  induction run with
  | reset reset => exact writeInv_reset reset
  | @tick past s run i inv =>
    cases we : s.intWeWire i with
    | false => exact writeInv_rest run inv we
    | true =>
      cases last : s.buf1.outData.wlast with
      | false => exact writeInv_open run inv we last
      | true => exact writeInv_last run inv we last

/-! ### Every write is served once -/

def payload (b : WBeat) : BitVec 4 × BitVec 32 := (b.wstrb, b.wdata)

structure WritesServed (past : List (Tick p)) (s : AxiHub p) : Prop where
  stored : s.cfgData =
    RegisterFile.after (schedule (past.flatMap awAccepted) (past.flatMap wConsumed))
  inOrder : (schedule (past.flatMap awAccepted) (past.flatMap wConsumed)).map
      (fun op => (op.strb, op.data)) = (past.flatMap wConsumed).map payload
  consumed : past.flatMap wConsumed ++ s.buf1.held = past.flatMap wAccepted
  paired : (frames WBeat.wlast (past.flatMap wConsumed)).length + s.buf0.held.length =
    (past.flatMap awAccepted).length
  answered : past.flatMap bAccepted ++ s.buf2.held =
    ((past.flatMap awAccepted).take
      (frames WBeat.wlast (past.flatMap wConsumed)).length).map AwReq.awid
  proceeds : ∀ i : HubPins p, s.buf0.held ≠ [] → s.buf1.held ≠ [] →
    s.buf2.held = [] ∨ i.sAxiBready = true → s.intWeWire i = true

theorem burstWrites_payload (aw : AwReq) (burst : List WBeat) :
    (burstWrites aw burst).map (fun op => (op.strb, op.data)) = burst.map payload := by
  refine List.ext_getElem (by simp [burstWrites]) ?_
  intro k _ _
  simp [burstWrites, payload]

theorem zipWith_payload {aws : List AwReq} {closed : List (List WBeat)}
    (same : aws.length = closed.length) :
    (List.zipWith burstWrites aws closed).flatten.map (fun op => (op.strb, op.data)) =
      closed.flatten.map payload := by
  induction aws generalizing closed with
  | nil =>
    obtain rfl := List.length_eq_zero_iff.mp same.symm
    rfl
  | cons aw aws ih =>
    obtain ⟨burst, more, rfl⟩ := List.exists_cons_of_length_eq_add_one same.symm
    simp only [List.zipWith_cons_cons, List.flatten_cons, List.map_append, burstWrites_payload,
      ih (Nat.succ.inj same)]

theorem WriteInv.schedule_eq (run : (circuit p).Run past s) (inv : WriteInv past s) :
    schedule (past.flatMap awAccepted) (past.flatMap wConsumed) = written past s := by
  rw [← run_aw run, schedule_split inv.closed, written]
  congr 1
  by_cases none : rest WBeat.wlast (past.flatMap wConsumed) = []
  · rw [none, burstWrites_nil]
    cases s.buf0.held <;> simp
  · rw [InoutBuffer.held_of_outValid (inv.opened none)]
    simp

theorem WriteInv.inOrder (inv : WriteInv past s) :
    (written past s).map (fun op => (op.strb, op.data)) =
      (past.flatMap wConsumed).map payload := by
  rw [written, List.map_append, zipWith_payload inv.closed, burstWrites_payload, ← List.map_append,
    flatten_frames]

theorem intWeWire_of_held (settled0 : s.buf0.Settled) (settled1 : s.buf1.Settled)
    (requests : s.buf0.held ≠ []) (beats : s.buf1.held ≠ [])
    (ready : s.buf2.held = [] ∨ i.sAxiBready = true) : s.intWeWire i = true := by
  have bready : s.intBreadyWire i = true := by
    rcases ready with empty | ready
    · exact s.buf2.inReady_of_empty empty
    · simp [intBreadyWire, OutputBuffer.inReady, ready]
  simp [intWeWire, bready, InoutBuffer.outValid_of_held settled0 requests,
    InoutBuffer.outValid_of_held settled1 beats]

/-- Write bursts inside the configuration register act on it as on a register file, each beat
once and in order, each burst answered once. -/
theorem run_writesServed (run : (circuit p).Run past s)
    (inside : InCfg p (past.flatMap awAccepted) (past.flatMap wAccepted)) :
    WritesServed past s := by
  have inv := run_writeInv run
  have aws := run_aw run
  obtain ⟨settled0, settled1, -⟩ := run_settled run
  refine ⟨?_, ?_, run_w run, ?_, ?_, fun _ => intWeWire_of_held settled0 settled1⟩
  · rw [inv.schedule_eq run]
    exact inv.stored inside
  · rw [inv.schedule_eq run]
    exact inv.inOrder
  · rw [← aws, List.length_append, inv.closed]
  · rw [run_b run, inv.answered, ← aws, ← inv.closed, List.take_left]

def twoBursts : List (HubPins deployed) :=
  [{ quiet with sAxiW := ⟨15, false, 0x11223344⟩, sAxiWvalid := true },
    { quiet with
        sAxiAw := ⟨1, 8⟩, sAxiAwvalid := true, sAxiW := ⟨15, true, 0x55667788⟩, sAxiWvalid := true },
    { quiet with sAxiAw := ⟨2, 12⟩, sAxiAwvalid := true, sAxiBready := false },
    { quiet with sAxiBready := false },
    { quiet with sAxiW := ⟨2, true, 0xaabbccdd⟩, sAxiWvalid := true, sAxiBready := false },
    { quiet with sAxiBready := false }, quiet, quiet, quiet, quiet]

theorem run_writesServed_twoBursts :
    WritesServed ((circuit deployed).trace fresh twoBursts)
      ((circuit deployed).after fresh twoBursts) ∧
    ((circuit deployed).after fresh twoBursts).cfgData ⟨3, by decide⟩ = 0x5566cc88 ∧
    ((circuit deployed).trace fresh twoBursts).flatMap bAccepted = [1, 2] :=
  ⟨run_writesServed (run_trace fresh_reset twoBursts) (by decide +kernel), by decide +kernel,
    by decide +kernel⟩

end AxiHub

end Switcheck
