import Switcheck.Hub.PortHub

/-!
# The stream ports

What the write bursts of a port's region carry against what leaves on its `m_axis`, and what its
`s_axis` gives against the read beats of the region.
-/

namespace Switcheck

open Sync Circuit

namespace PortHub

variable {p : HubParams} {past : List (Tick p)} {s : PortHub p} {i : PortPins p} {j : HubPort}

/-- The word a beat of a write burst has for the port. -/
def writeWord (j : HubPort) (aw : AwReq) (b : WBeat) : List (BitVec 32) :=
  beat (decide (aw.region = j + 2)) b.wdata

/-- The word the port has for a beat of a read burst, in the clock that makes the beat. -/
def readWord (j : HubPort) (ar : ArReq) (c : Tick p) : List (BitVec 32) :=
  beat (decide (ar.region = j + 2) && c.pins.sAxisTvalid j) (c.pins.sAxisTdata j)

structure StreamWrites (j : HubPort) (past : List (Tick p)) (s : PortHub p) : Prop where
  consumed : past.flatMap wConsumed ++ s.buf1.held = past.flatMap wAccepted
  delivered : past.flatMap (mAccepted j) ++ (s.mbuf j).held =
    BurstQueue.route WBeat.wlast (writeWord j) (past.flatMap awAccepted) (past.flatMap wConsumed)
  proceeds : ∀ i : PortPins p, s.buf0.held ≠ [] → s.buf1.held ≠ [] →
    s.buf2.held = [] ∨ i.sAxiBready = true → s.intWeWire i = true
  leaves : ∀ i : PortPins p, (s.mbuf j).held ≠ [] → i.mAxisTready j = true →
    mAccepted j ⟨s, i⟩ ≠ []

structure StreamReads (j : HubPort) (past : List (Tick p)) (s : PortHub p) : Prop where
  delivered : past.flatMap rAccepted ++ s.buf4.held = (past.flatMap rIssued).map rBeat
  consumed : past.flatMap (sAccepted j) =
    BurstQueue.route (fun c => c.regs.intRlastWire) (readWord j) (past.flatMap arAccepted)
      (past.flatMap rIssued)
  returned : ∀ c ∈ past, ∀ w ∈ sAccepted j c,
    rIssued c = [c] ∧ ∀ bramRdata, sAxiRdata (rBeat c) bramRdata = w

def Accepts (j : HubPort) (c : Tick p) : Prop :=
  c.regs.intWselWire c.pins j = true → (c.regs.mbuf j).inReady = true

instance (j : HubPort) (c : Tick p) : Decidable (Accepts j c) :=
  inferInstanceAs (Decidable (_ → _))

/-! ### Words to the port -/

def mPut (j : HubPort) (c : Tick p) : List (BitVec 32) :=
  (c.regs.mbuf j).put c.regs.buf1.outData.wdata (c.regs.intWselWire c.pins j)

theorem run_mPut (run : (circuit p).Run past s) (j : HubPort) :
    past.flatMap (mAccepted j) ++ (s.mbuf j).held = past.flatMap (mPut j) :=
  run.conserve (fun s => (s.mbuf j).held) (fun _ reset => (cleared_of_reset reset).mbuf j)
    fun s _ => (s.mbuf j).taken_append_held ..

theorem writes_effect (c : Tick p) : (writes p).effect (writeWord j) c =
    beat (c.regs.intWselWire c.pins j) c.regs.buf1.outData.wdata := by
  have consumed : (writes p).served c = beat (c.regs.intWeWire c.pins) c.regs.buf1.outData :=
    AxiHub.wConsumed_eq (coreTick c)
  rw [BurstQueue.effect, consumed, intWselWire_eq]
  cases we : c.regs.intWeWire c.pins with
  | false => rfl
  | true =>
    have front : ((writes p).queue c.regs).head? = some c.regs.buf0.outData := head?_of_we we
    rw [front]
    simp [writeWord]

theorem mPut_eq_iff (c : Tick p) :
    mPut j c = beat (c.regs.intWselWire c.pins j) c.regs.buf1.outData.wdata ↔ Accepts j c := by
  unfold mPut InoutBuffer.put Accepts
  cases c.regs.intWselWire c.pins j <;> cases (c.regs.mbuf j).inReady <;> simp

theorem mPut_length_le (c : Tick p) :
    (mPut j c).length ≤ (beat (c.regs.intWselWire c.pins j) c.regs.buf1.outData.wdata).length := by
  unfold mPut InoutBuffer.put
  cases c.regs.intWselWire c.pins j <;> cases (c.regs.mbuf j).inReady <;> simp

theorem run_delivered_iff (run : (circuit p).Run past s) (j : HubPort) :
    past.flatMap (mAccepted j) ++ (s.mbuf j).held = BurstQueue.route WBeat.wlast (writeWord j)
        (past.flatMap awAccepted) (past.flatMap wConsumed) ↔
      Held (fun _ c => Accepts j c) past := by
  have routed : past.flatMap ((writes p).effect (writeWord j)) = BurstQueue.route WBeat.wlast
      (writeWord j) (past.flatMap awAccepted) (past.flatMap wConsumed) :=
    (writes p).run_routed run (writeWord j)
  rw [run_mPut run j, ← routed, funext writes_effect, flatMap_eq_iff_held mPut_length_le]
  constructor
  · exact Held.mono fun _ c => (mPut_eq_iff c).mp
  · exact Held.mono fun _ c => (mPut_eq_iff c).mpr

/-! ### Words from the port -/

theorem reads_effect (c : Tick p) : (reads p).effect (readWord j) c = sAccepted j c := by
  have issued : (reads p).served c = beat (c.regs.intReWire c.pins) c := rfl
  rw [BurstQueue.effect, issued, sAccepted, sAxisTready, intRselWire_eq]
  cases re : c.regs.intReWire c.pins with
  | false => simp
  | true =>
    have front : ((reads p).queue c.regs).head? = some c.regs.buf3.outData := head?_of_re re
    rw [front]
    simp [readWord, Bool.and_comm]

theorem sAxiRdata_of_taken (taken : i.sAxisTvalid j = true) (selected : s.intRselWire i j = true)
    (bramRdata : HubPort → BitVec 32) :
    sAxiRdata (s.rBeatNext i) bramRdata = i.sAxisTdata j := by
  rw [intRselWire_eq, Bool.and_eq_true, decide_eq_true_iff] at selected
  obtain ⟨-, region⟩ := selected
  have none (k : HubPort) : (s.rBeatNext i).bsel k = false := by
    rw [rBeatNext_bsel]
    by_cases same : k = j
    · rw [same, taken]
      simp
    · have other : s.buf3.outData.region ≠ k + 2 := fun eq => same (Fin.ext (by omega))
      simp [other]
  have data : (s.rBeatNext i).rdata = s.intRdataMux i s.buf3.outData.region := rfl
  rw [sAxiRdata_of_stream none, data, region, intRdataMux_port, taken, if_pos rfl]

theorem run_streamReads (run : (circuit p).Run past s) (j : HubPort) : StreamReads j past s := by
  refine ⟨run_r run, ?_, ?_⟩
  · have routed := (reads p).run_routed run (readWord j)
    rw [funext reads_effect] at routed
    exact routed
  · intro c _ w member
    unfold sAccepted sAxisTready at member
    cases fires : c.pins.sAxisTvalid j && c.regs.intRselWire c.pins j with
    | false => simp [fires] at member
    | true =>
      rw [fires, beat_true, List.mem_singleton] at member
      rw [Bool.and_eq_true] at fires
      obtain ⟨taken, selected⟩ := fires
      refine ⟨?_, fun bramRdata => ?_⟩
      · rw [intRselWire_eq, Bool.and_eq_true] at selected
        rw [rIssued, selected.1, beat_true]
      · rw [member]
        exact sAxiRdata_of_taken taken selected bramRdata

/-! ### Each word once -/

/-- Read beats and the words they take always agree; the beats written to a port reach its
`m_axis`, each once and in order, exactly when its stream buffer has room for every one of them. -/
theorem run_streams_iff (run : (circuit p).Run past s) (j : HubPort) :
    (StreamWrites j past s ∧ StreamReads j past s) ↔ Held (fun _ c => Accepts j c) past := by
  obtain ⟨settled0, settled1, -, settled⟩ := run_settled run
  constructor
  · rintro ⟨writes, -⟩
    exact (run_delivered_iff run j).mp writes.delivered
  · intro room
    refine ⟨⟨run_w run, (run_delivered_iff run j).mpr room, ?_, ?_⟩, run_streamReads run j⟩
    · exact fun i => AxiHub.intWeWire_of_held (s := s.core) settled0 settled1
    · intro i some ready
      have valid := InoutBuffer.outValid_of_held (settled j) some
      simp [mAccepted, InoutBuffer.taken, valid, ready]

def readFirstPort : PortPins AxiHub.deployed :=
  { quiet with
      sAxiAr := ⟨7, 1, 0x2000000⟩, sAxiArvalid := true
      sAxisTdata := fun _ => 44
      sAxisTvalid := fun _ => true }

def bothWays : List (PortPins AxiHub.deployed) :=
  [writeFirstPort 11, readFirstPort,
    { readFirstPort with sAxiArvalid := false, sAxiRready := false },
    { quiet with sAxiRready := false }, { writeFirstPort 22 with mAxisTready := fun _ => true },
    quiet, { quiet with mAxisTready := fun _ => true }, { quiet with mAxisTready := fun _ => true }]

theorem run_streams_iff_bothWays :
    StreamWrites 0 ((circuit AxiHub.deployed).trace fresh bothWays)
      ((circuit AxiHub.deployed).after fresh bothWays) ∧
    StreamReads 0 ((circuit AxiHub.deployed).trace fresh bothWays)
      ((circuit AxiHub.deployed).after fresh bothWays) ∧
    ((circuit AxiHub.deployed).trace fresh bothWays).flatMap (mAccepted 0) = [11, 22] ∧
    ((circuit AxiHub.deployed).trace fresh bothWays).flatMap (sAccepted 0) = [44] := by
  obtain ⟨writes, reads⟩ :=
    (run_streams_iff (run_trace fresh_reset bothWays) 0).mpr (by decide +kernel)
  exact ⟨writes, reads, by decide +kernel, by decide +kernel⟩

def threeWrites : List (PortPins AxiHub.deployed) :=
  [writeFirstPort 11, writeFirstPort 22, writeFirstPort 33] ++ List.replicate 3 quiet ++
    List.replicate 4 { quiet with mAxisTready := fun _ => true }

/-- Three words are written to a port whose sink is not ready; the third one never leaves. -/
theorem stream_drops :
    (circuit AxiHub.deployed).Run ((circuit AxiHub.deployed).trace fresh threeWrites)
      ((circuit AxiHub.deployed).after fresh threeWrites) ∧
    (((circuit AxiHub.deployed).trace fresh threeWrites).flatMap wConsumed).map WBeat.wdata =
      [11, 22, 33] ∧
    ((circuit AxiHub.deployed).trace fresh threeWrites).flatMap (mAccepted 0) = [11, 22] ∧
    (((circuit AxiHub.deployed).after fresh threeWrites).mbuf 0).held = [] ∧
    ¬ StreamWrites 0 ((circuit AxiHub.deployed).trace fresh threeWrites)
      ((circuit AxiHub.deployed).after fresh threeWrites) := by
  have run := run_trace fresh_reset threeWrites
  refine ⟨run, by decide +kernel, by decide +kernel, by decide +kernel, fun writes => ?_⟩
  have room := (run_delivered_iff run 0).mp writes.delivered
  exact absurd room (by decide +kernel)

end PortHub

end Switcheck
