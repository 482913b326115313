import Mathlib.Algebra.Ring.Nat
import Switcheck.Sync.Linear
import Switcheck.Hub.ReadPath

/-!
# The register is linearizable

Writes and reads run through the hub side by side, each on channels of its own. A master that keeps
its bursts inside the registers cannot tell this from one bank that it writes and reads in turn.
-/

namespace Switcheck

open Sync Circuit

/-! ### The writes of a longer history -/

theorem bursts_snoc (beats : List WBeat) (b : WBeat) : bursts WBeat.wlast (beats ++ [b]) =
    frames WBeat.wlast beats ++ (rest WBeat.wlast beats ++ [b]) ::
      (if b.wlast then [[]] else []) := by
  rw [bursts, frames_snoc, rest_snoc]
  cases b.wlast <;> simp

/-- A burst that grows where a list of bursts ends leaves the writes before it in place. -/
theorem zipWith_grown {grown burst : List WBeat} (grows : ∀ aw, burstWrites aw burst <+:
    burstWrites aw grown) (aws : List AwReq) (closed more : List (List WBeat)) :
    (List.zipWith burstWrites aws (closed ++ [burst])).flatten <+:
      (List.zipWith burstWrites aws (closed ++ grown :: more)).flatten := by
  induction closed generalizing aws with
  | nil =>
    cases aws with
    | nil => exact List.nil_prefix
    | cons aw aws =>
      simp only [List.nil_append, List.zipWith_cons_cons, List.zipWith_nil_right,
        List.flatten_cons, List.flatten_nil, List.append_nil]
      exact (grows aw).trans (List.prefix_append _ _)
  | cons first closed ih =>
    cases aws with
    | nil => exact List.nil_prefix
    | cons aw aws =>
      simp only [List.cons_append, List.zipWith_cons_cons, List.flatten_cons]
      exact (List.prefix_append_right_inj _).mpr (ih aws)

theorem schedule_beats (aws : List AwReq) (beats more : List WBeat) :
    schedule aws beats <+: schedule aws (beats ++ more) := by
  induction more using List.reverseRecOn with
  | nil => rw [List.append_nil]
  | append_singleton more b ih =>
    refine ih.trans ?_
    rw [← List.append_assoc, schedule, schedule, bursts_snoc, bursts]
    refine zipWith_grown (fun aw => ?_) aws _ _
    rw [burstWrites_snoc]
    exact List.prefix_append _ _

theorem schedule_requests (aws more : List AwReq) (beats : List WBeat) :
    schedule aws beats <+: schedule (aws ++ more) beats := by
  refine List.IsPrefix.flatten ?_
  generalize bursts WBeat.wlast beats = bursts
  induction aws generalizing bursts with
  | nil => exact List.nil_prefix
  | cons aw aws ih =>
    cases bursts with
    | nil => exact List.nil_prefix
    | cons burst bursts => exact List.cons_prefix_cons.mpr ⟨rfl, ih bursts⟩

theorem schedule_mono {aws aws' : List AwReq} {beats beats' : List WBeat} (fewer : aws <+: aws')
    (shorter : beats <+: beats') : schedule aws beats <+: schedule aws' beats' := by
  obtain ⟨more, rfl⟩ := fewer
  obtain ⟨later, rfl⟩ := shorter
  exact (schedule_beats aws beats later).trans (schedule_requests aws more _)

namespace AxiHub

variable {p : HubParams} {past before : List (Tick p)} {s : AxiHub p}

/-! ### What the master calls, and what it is answered -/

/-- A write is called when its beat and the request of its burst have been handed over, and
answered with its burst. -/
def writeCalls (p : HubParams) : Calls (Tick p) where
  called past := (schedule (past.flatMap awAccepted) (past.flatMap wAccepted)).length
  answered past := ((frames WBeat.wlast (past.flatMap wAccepted)).take
    (past.flatMap bAccepted).length).flatten.length

/-- The reads of a burst are called with its request and answered beat by beat. -/
def readCalls (p : HubParams) : Calls (Tick p) where
  called past := ((past.flatMap arAccepted).map fun ar => ar.arlen.toNat + 1).sum
  answered past := (past.flatMap rAccepted).length

theorem flatMap_front {β : Type} (port : Tick p → List β) (front : before <+: past) :
    before.flatMap port <+: past.flatMap port := by
  obtain ⟨after, rfl⟩ := front
  exact ⟨after.flatMap port, by rw [List.flatMap_append]⟩

theorem schedule_length (run : (circuit p).Run past s) :
    (schedule (past.flatMap awAccepted) (past.flatMap wConsumed)).length =
      (past.flatMap wConsumed).length := by
  have inv := run_writeInv run
  have same := congrArg List.length inv.inOrder
  rw [inv.schedule_eq run]
  simpa using same

theorem consumed_front (run : (circuit p).Run past s) :
    past.flatMap wConsumed <+: past.flatMap wAccepted := ⟨_, run_w run⟩

theorem consumed_le_called (run : (circuit p).Run past s) :
    (past.flatMap wConsumed).length ≤ (writeCalls p).called past := by
  rw [← schedule_length run]
  exact (schedule_mono (List.prefix_refl _) (consumed_front run)).length_le

theorem answered_le_consumed (run : (circuit p).Run past s) :
    (writeCalls p).answered past ≤ (past.flatMap wConsumed).length := by
  have inv := run_writeInv run
  have responses : (past.flatMap bAccepted).length ≤
      (frames WBeat.wlast (past.flatMap wConsumed)).length := by
    have queued := congrArg List.length (run_b run)
    rw [inv.answered, List.length_append, List.length_map, inv.closed] at queued
    omega
  obtain ⟨more, whole⟩ := frames_mono WBeat.wlast (consumed_front run)
  have parts := congrArg List.length (flatten_frames WBeat.wlast (past.flatMap wConsumed))
  rw [List.length_append] at parts
  calc (writeCalls p).answered past
      = ((frames WBeat.wlast (past.flatMap wConsumed)).take
          (past.flatMap bAccepted).length).flatten.length := by
        simp only [writeCalls]
        rw [← whole, List.take_append_of_le_length responses]
    _ ≤ (frames WBeat.wlast (past.flatMap wConsumed)).flatten.length :=
        (List.IsPrefix.flatten (List.take_prefix _ _)).length_le
    _ ≤ (past.flatMap wConsumed).length := by omega

theorem countP_re (past : List (Tick p)) :
    past.countP (fun c => c.regs.intReWire c.pins) = (entered past).length := by
  rw [entered_length, entries, List.countP_eq_length_filter]

theorem entered_le_called (run : (circuit p).Run past s) :
    (entered past).length ≤ (readCalls p).called past := by
  have bound := reads_counts.beats_le run
  rwa [reads_beats] at bound

def delivered (past : List (Tick p)) : List RResp := (past.flatMap rAccepted).map seen

theorem delivered_front (run : (circuit p).Run past s) : delivered past <+: entered past := by
  rw [delivered, ← flatMap_rQueued, ← run_r run, List.map_append]
  exact List.prefix_append _ _

/-! ### Reads among the writes -/

/-- The words of the register are those of the writes consumed. -/
theorem cfgData_take (run : (circuit p).Run past s) {aws : List AwReq} {beats : List WBeat}
    (inside : InCfg p aws beats) (requests : past.flatMap awAccepted <+: aws)
    (handed : past.flatMap wAccepted <+: beats) :
    s.cfgData = RegisterFile.after ((schedule aws beats).take (past.flatMap wConsumed).length) := by
  have inv := run_writeInv run
  have front := schedule_mono requests ((consumed_front run).trans handed)
  rw [← schedule_length run, ← List.prefix_iff_eq_take.mp front, inv.schedule_eq run]
  exact inv.stored (inside.mono requests handed)

/-- Each word read of the configuration is the one that the writes found leave. -/
def ReadsFound (past : List (Tick p)) (found : Nat → Nat) : Prop :=
  ∀ k r, (delivered past)[k]? = some r → ∃ ar,
    (past.flatMap arAccepted)[(position RResp.rlast (delivered past) k).1]? = some ar ∧
    r.rid = ar.arid ∧ (ar.region = 0 → r.rdata = wordAt
      (RegisterFile.after ((schedule (past.flatMap awAccepted) (past.flatMap wAccepted)).take
        (found k)) : RegisterFile p.cfgSize)
      (ar.word + (position RResp.rlast (delivered past) k).2))

/-- A master that stays inside the registers sees one bank: its reads can be placed among its
writes, in agreement with the order in which it called them and was answered, and each read of the
configuration has the word that the writes before it leave. -/
theorem run_linear (run : (circuit p).Run past s)
    (inCfg : InCfg p (past.flatMap awAccepted) (past.flatMap wAccepted))
    (inBanks : InBanks p (past.flatMap arAccepted)) :
    ∃ found, Linear (writeCalls p) (readCalls p) past found ∧ ReadsFound past found := by
  refine ⟨_, @linear_of_acts _ (fun c => c.regs.intReWire c.pins) past _ _
    (fun past => (past.flatMap wConsumed).length) ?_ ?_ ?_, ?_⟩
  · exact fun front whole h => (flatMap_front wConsumed h).length_le
  · intro before front
    obtain ⟨t, run⟩ := run.front front
    exact ⟨answered_le_consumed run, consumed_le_called run⟩
  · intro before front
    obtain ⟨t, run⟩ := run.front front
    rw [countP_re]
    have delivered := (delivered_front run).length_le
    rw [AxiHub.delivered, List.length_map] at delivered
    exact ⟨delivered, entered_le_called run⟩
  · intro k r found
    have inside := (List.getElem?_eq_some_iff.mp found).1
    rw [position_mono RResp.rlast (delivered_front run) (Nat.le_of_lt inside)]
    have there := getElem?_mono (delivered_front run) found
    rw [entered, List.getElem?_map, Option.map_eq_some_iff] at there
    obtain ⟨c, entry, rfl⟩ := there
    obtain ⟨ar, request, value⟩ := (run_readInv run).beats inBanks k c entry
    refine ⟨ar, request, by rw [value]; rfl, fun region => ?_⟩
    obtain ⟨after, whole⟩ := exists_untilNth entry
    have front := untilNth_front (fun c : Tick p => c.regs.intReWire c.pins) k past
    have earlier : (circuit p).Run _ c.regs := (whole ▸ run).append
    rw [value, answer, if_pos region, cfgData_take earlier inCfg (flatMap_front _ front)
      (flatMap_front _ front)]

/-- The first word is written and read twice, the first time while the burst that writes it runs. -/
def readsAround : List (HubPins deployed) :=
  [{ quiet with
      sAxiAw := ⟨1, 0⟩, sAxiAwvalid := true, sAxiW := ⟨15, false, 5⟩, sAxiWvalid := true,
      sAxiAr := ⟨2, 0, 0⟩, sAxiArvalid := true },
    { quiet with sAxiW := ⟨15, true, 6⟩, sAxiWvalid := true },
    { quiet with sAxiAr := ⟨3, 1, 0⟩, sAxiArvalid := true }, quiet, quiet, quiet, quiet, quiet]

theorem run_linear_readsAround :
    (∃ found, Linear (writeCalls deployed) (readCalls deployed)
        ((circuit deployed).trace fresh readsAround) found ∧
      ReadsFound ((circuit deployed).trace fresh readsAround) found) ∧
    delivered ((circuit deployed).trace fresh readsAround) =
      [⟨2, true, 0⟩, ⟨3, false, 5⟩, ⟨3, true, 6⟩] :=
  ⟨run_linear (run_trace fresh_reset readsAround) (by decide +kernel) (by decide +kernel),
    by decide +kernel⟩

end AxiHub

end Switcheck
