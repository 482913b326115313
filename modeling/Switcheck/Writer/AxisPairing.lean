import Switcheck.Writer.AxisBursts

/-!
# Addresses against bursts

`int_addr_reg` moves on the address handshake and the data follow on another channel. The
counter never gets ahead of the data by more than a burst; the data can get ahead of the
addresses, and then `int_awvalid_reg` is asked to remember two of them.
-/

namespace Switcheck.AxisRamWriter

open Sync Circuit

variable {W α R : Type} {p : AxisWriterParams W α R}
variable {past : List (Tick p)} {s : AxisRamWriter p} {i : AxisWriterPins p}

/-- No burst begins while the address of an earlier one waits in `int_awvalid_reg`. -/
def NoneWaiting (_ : List (Tick p)) (c : Tick p) : Prop :=
  c.regs.intValidWire = true → c.regs.intAwvalidReg = false

instance (before : List (Tick p)) (c : Tick p) : Decidable (NoneWaiting before c) :=
  inferInstanceAs (Decidable (_ → _))

/-- Bursts begun while an address waits: one bit for two addresses. -/
def merged (past : List (Tick p)) : Nat :=
  past.countP fun c => c.regs.intValidWire && c.regs.intAwvalidReg

theorem merged_snoc (past : List (Tick p)) (c : Tick p) :
    merged (past ++ [c]) = merged past + (c.regs.intValidWire && c.regs.intAwvalidReg).toNat :=
  countP_snoc _ past c

theorem merged_eq_zero_iff : merged past = 0 ↔ Held NoneWaiting past := by
  induction past using List.reverseRecOn with
  | nil => exact iff_of_true rfl (held_nil _)
  | append_singleton past c ih =>
    rw [merged_snoc, held_snoc, Nat.add_eq_zero_iff, ih]
    refine and_congr_right fun _ => ?_
    unfold NoneWaiting
    cases c.regs.intValidWire <;> cases c.regs.intAwvalidReg <;> decide

/-- Each burst begun has its address handed on, waiting, or merged into one that waits. -/
theorem run_issued (run : (circuit p).Run past s) :
    (past.flatMap issued).length + s.intAwvalidReg.toNat + merged past = begun past := by
  induction run with
  | reset reset =>
    obtain ⟨awvalid, -⟩ := reset_fields reset
    rw [awvalid]
    rfl
  | @tick past s run i ih =>
    have split : (s.awFires i).toNat + (posedge true s i).intAwvalidReg.toNat =
        s.intAwvalidWire.toNat := by
      rw [posedge_intAwvalidReg, awFires]
      cases s.intAwvalidWire <;> cases s.intAwreadyWire i <;> rfl
    have both : s.intAwvalidWire.toNat + (s.intValidWire && s.intAwvalidReg).toNat =
        s.intValidWire.toNat + s.intAwvalidReg.toNat := by
      unfold intAwvalidWire
      cases s.intValidWire <;> cases s.intAwvalidReg <;> rfl
    show _ + (posedge true s i).intAwvalidReg.toNat + _ = _
    rw [issued_length, merged_snoc, begun_snoc, ← ih]
    dsimp only
    omega

/-- One address request for each burst begun, the requests at consecutive places of the ring. -/
structure Paired (past : List (Tick p)) (s : AxisRamWriter p) : Prop where
  requests : (past.flatMap awReq).length + s.buf0.held.length + s.intAwvalidReg.toNat = begun past
  placed : ∀ minAddr cfgData, Held (Configured minAddr cfgData) past →
    ∀ n addr, (past.flatMap awReq ++ s.buf0.held)[n]? = some addr →
      addr = ringAddr minAddr cfgData n

/-- Every burst has an address of its own exactly when none begins while one waits. -/
theorem run_paired_iff (run : (circuit p).Run past s) :
    Paired past s ↔ Held NoneWaiting past := by
  have issued := run_issued run
  rw [← run_awReq run, List.length_append] at issued
  rw [← merged_eq_zero_iff]
  constructor
  · intro paired
    have requests := paired.requests
    omega
  · intro none
    refine ⟨by omega, fun minAddr cfgData configured n addr found => ?_⟩
    rw [run_awReq run] at found
    exact run_placed run configured n addr found

/-- 48 words, one a clock, and 24 more clocks. -/
def threeBursts (awready : Bool) : List (AxisWriterPins default64) :=
  (List.range 48).map (fun k => pins (some (BitVec.ofNat 64 k)) awready true) ++
    List.replicate 24 (pins none awready true)

theorem run_paired_iff_ready :
    Paired ((circuit default64).trace fresh (threeBursts true))
      ((circuit default64).after fresh (threeBursts true)) :=
  (run_paired_iff (run_trace fresh_reset (threeBursts true))).mpr (by decide +kernel)

/-- A slave that takes all data and no address: three bursts are begun, and there are two
requests, one in the address buffer and one in `int_awvalid_reg`. -/
theorem threeBursts_merged :
    (circuit default64).Run ((circuit default64).trace fresh (threeBursts false))
      ((circuit default64).after fresh (threeBursts false)) ∧
    begun ((circuit default64).trace fresh (threeBursts false)) = 3 ∧
    ¬ Paired ((circuit default64).trace fresh (threeBursts false))
      ((circuit default64).after fresh (threeBursts false)) := by
  have three : begun ((circuit default64).trace fresh (threeBursts false)) = 3 := by decide +kernel
  refine ⟨run_trace fresh_reset _, three, fun paired => ?_⟩
  have requests := paired.requests
  rw [three] at requests
  exact absurd requests (by decide +kernel)

/-! ### The progress counter -/

/-- The bursts counted in `sts_data`, against the beats read and the beats sent. -/
structure Progress (past : List (Tick p)) (s : AxisRamWriter p) : Prop where
  counter : ∀ cfgData, Held (fun _ c => c.pins.cfgData = cfgData) past →
    s.stsData.toNat = (past.flatMap issued).length % (cfgData.toNat + 1)
  taken : (past.flatMap handed).map Prod.snd = p.packing.words (past.flatMap read)
  covered : 1 ≤ (past.flatMap issued).length →
    16 * ((past.flatMap issued).length - 1) ≤ (past.flatMap handed).length
  sent : past.flatMap wBeat <+: past.flatMap handed
  nearly : (past.flatMap handed).length ≤ (past.flatMap wBeat).length + 1

/-- Whatever the slave does, every burst before the last one counted has been read out of the
FIFO, and sent but for at most one beat. -/
theorem run_progress (run : (circuit p).Run past s) : Progress past s := by
  have inv := run_burstInv run
  have sent := congrArg List.length (run_wBeat run)
  have one := s.buf1.held_length_le
  have issued := run_issued run
  have begun := inv.begun
  have length := inv.uniform.length
  have active := s.intWvalidReg.toNat_le
  rw [List.length_append] at sent
  refine ⟨fun cfgData constant => run_turn run constant, (run_handed_words run).2, fun _ => ?_,
    ⟨_, run_wBeat run⟩, by omega⟩
  omega

theorem run_progress_threeBursts :
    Progress ((circuit default64).trace fresh (threeBursts true))
      ((circuit default64).after fresh (threeBursts true)) ∧
    (((circuit default64).trace fresh (threeBursts true)).flatMap issued).length = 3 :=
  ⟨run_progress (run_trace fresh_reset (threeBursts true)), by decide +kernel⟩

end Switcheck.AxisRamWriter
