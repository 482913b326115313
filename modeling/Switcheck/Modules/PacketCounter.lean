import Switcheck.Sync.Circuit
import Switcheck.Modules.Verilog

/-!
# Packet counters

`axis_packetizer` and `axis_bram_reader` have the same three registers: a count of the words that
move, the setting it is compared with, one clock old, and an enable. A continuous counter starts
again after the last word of a packet, the other one is disabled by it for good.
-/

namespace Switcheck

open Sync Circuit

structure PacketCounter (w : Nat) where
  cntrReg : BitVec w
  dataReg : BitVec w
  enblReg : Bool
  deriving DecidableEq

namespace PacketCounter

variable {w : Nat}

def compWire (s : PacketCounter w) : Bool := decide (s.cntrReg < s.dataReg)

def lastWire (s : PacketCounter w) : Bool := !s.compWire

def cntrNext (continuous : Bool) (s : PacketCounter w) (ready : Bool) : BitVec w :=
  if continuous && (ready && s.enblReg && s.lastWire) then 0
  else if ready && s.enblReg && s.compWire then s.cntrReg + 1
  else s.cntrReg

def enblNext (continuous : Bool) (s : PacketCounter w) (ready : Bool) : Bool :=
  if !continuous && (ready && s.enblReg && s.lastWire) then false
  else if !s.enblReg && s.compWire then true
  else s.enblReg

/-- One rising edge; an enabled word moves when `ready`. -/
def posedge (aresetn continuous : Bool) (cfgData : BitVec w) (s : PacketCounter w)
    (ready : Bool) : PacketCounter w where
  cntrReg := if !aresetn then 0 else s.cntrNext continuous ready
  dataReg := if !aresetn then 0 else cfgData
  enblReg := if !aresetn then false else s.enblNext continuous ready

def circuit (continuous : Bool) (cfgData : BitVec w) : Circuit (PacketCounter w) Bool where
  Reset s := ∃ s₀ ready, s = posedge false continuous cfgData s₀ ready
  tick := posedge true continuous cfgData

abbrev Tick (w : Nat) := Clock (PacketCounter w) Bool

def moves (c : Tick w) : Bool := c.pins && c.regs.enblReg

def moved (past : List (Tick w)) : Nat := past.countP moves

/-- The four phases: just out of reset, the setting taken, counting, and stopped. -/
inductive Phase (continuous : Bool) (cfg : BitVec w) (past : List (Tick w)) (s : PacketCounter w) :
    Prop where
  | fresh : past.length = 0 → moved past = 0 → s = ⟨0, 0, false⟩ → Phase continuous cfg past s
  | loaded : past.length = 1 → moved past = 0 → s = ⟨0, cfg, false⟩ → Phase continuous cfg past s
  | counting : 2 ≤ past.length → s.dataReg = cfg → s.enblReg = true →
      s.cntrReg.toNat = moved past % (cfg.toNat + 1) →
      (continuous = false → moved past ≤ cfg.toNat) → Phase continuous cfg past s
  | stopped : 2 ≤ past.length → continuous = false → moved past = cfg.toNat + 1 →
      s = ⟨cfg, cfg, false⟩ → Phase continuous cfg past s

variable {continuous : Bool} {cfg : BitVec w} {past : List (Tick w)} {s : PacketCounter w}

@[simp] theorem moved_snoc (past : List (Tick w)) (c : Tick w) :
    moved (past ++ [c]) = moved past + (moves c).toNat := countP_snoc moves past c

theorem compWire_iff : s.compWire = true ↔ s.cntrReg.toNat < s.dataReg.toNat := by
  unfold compWire
  exact decide_eq_true_iff

theorem posedge_waits (enabled : s.enblReg = true) :
    posedge true continuous cfg s false = ⟨s.cntrReg, cfg, true⟩ := by
  simp [posedge, cntrNext, enblNext, enabled]

theorem posedge_counts (enabled : s.enblReg = true) (more : s.compWire = true) :
    posedge true continuous cfg s true = ⟨s.cntrReg + 1, cfg, true⟩ := by
  simp [posedge, cntrNext, enblNext, lastWire, enabled, more]

theorem posedge_last (enabled : s.enblReg = true) (last : s.compWire = false) :
    posedge true continuous cfg s true =
      ⟨if continuous then 0 else s.cntrReg, cfg, continuous⟩ := by
  cases continuous <;> simp [posedge, cntrNext, enblNext, lastWire, enabled, last]

theorem posedge_disabled (idle : s.enblReg = false) (ready : Bool) :
    posedge true continuous cfg s ready = ⟨s.cntrReg, cfg, s.compWire⟩ := by
  cases more : s.compWire <;> simp [posedge, cntrNext, enblNext, idle, more]

theorem phase_counting_step (count : s.cntrReg.toNat = moved past % (cfg.toNat + 1))
    (long : 2 ≤ past.length) (data : s.dataReg = cfg) (enabled : s.enblReg = true)
    (stops : continuous = false → moved past ≤ cfg.toNat) (ready : Bool) :
    Phase continuous cfg (past ++ [⟨s, ready⟩]) (posedge true continuous cfg s ready) := by
  have longer : 2 ≤ (past ++ [(⟨s, ready⟩ : Tick w)]).length := by
    rw [List.length_append]
    omega
  cases ready with
  | false =>
    rw [posedge_waits enabled]
    exact .counting longer rfl rfl (by simpa [moves] using count) (by simpa [moves] using stops)
  | true =>
    have one : moved (past ++ [(⟨s, true⟩ : Tick w)]) = moved past + 1 := by
      simp [moves, enabled]
    have turn := toNat_ringNext (c := cfg) count
    cases more : s.compWire with
    | true =>
      have below : s.cntrReg.toNat < cfg.toNat := data ▸ compWire_iff.mp more
      rw [posedge_counts enabled more]
      refine .counting longer rfl rfl ?_ fun stop => ?_
      · rw [one, ← turn, if_pos (show s.cntrReg < cfg from below)]
      · have small := stops stop
        rw [count, Nat.mod_eq_of_lt (by omega)] at below
        omega
    | false =>
      have top : ¬ s.cntrReg < cfg := by
        intro below
        have still : s.compWire = true := compWire_iff.mpr (data.symm ▸ below)
        rw [more] at still
        cases still
      rw [posedge_last enabled more]
      cases continuous with
      | true =>
        refine .counting longer rfl rfl ?_ fun stop => by cases stop
        rw [one, ← turn, if_neg top, if_pos rfl]
      | false =>
        have small := stops rfl
        have high : ¬ s.cntrReg.toNat < cfg.toNat := top
        rw [count, Nat.mod_eq_of_lt (by omega)] at high
        have reached : moved past = cfg.toNat := by omega
        have full : s.cntrReg = cfg := by
          apply BitVec.eq_of_toNat_eq
          rw [count, Nat.mod_eq_of_lt (by omega), reached]
        refine .stopped longer rfl (by rw [one, reached]) ?_
        rw [if_neg Bool.false_ne_true, full]

theorem phase_step (nonzero : 1 ≤ cfg.toNat) (phase : Phase continuous cfg past s) (ready : Bool) :
    Phase continuous cfg (past ++ [⟨s, ready⟩]) (posedge true continuous cfg s ready) := by
  have length : (past ++ [(⟨s, ready⟩ : Tick w)]).length = past.length + 1 := by simp
  cases phase with
  | fresh short none state =>
    subst state
    rw [posedge_disabled rfl]
    refine .loaded (by omega) (by simp [moves, none]) ?_
    simp [compWire]
  | loaded short none state =>
    subst state
    have more : (⟨0, cfg, false⟩ : PacketCounter w).compWire = true := compWire_iff.mpr nonzero
    rw [posedge_disabled rfl, more]
    refine .counting (by omega) rfl rfl ?_ fun _ => ?_
    · simp [moves, none]
    · simp [moves, none]
  | counting long data enabled count stops =>
    exact phase_counting_step count long data enabled stops ready
  | stopped long stop all state =>
    subst state
    rw [posedge_disabled rfl]
    refine .stopped (by omega) stop (by simpa [moves] using all) ?_
    simp [compWire]

theorem run_phase (nonzero : 1 ≤ cfg.toNat) (run : (circuit continuous cfg).Run past s) :
    Phase continuous cfg past s := by
  induction run with
  | reset reset =>
    obtain ⟨s₀, ready, rfl⟩ := reset
    exact .fresh rfl rfl rfl
  | tick run ready ih => exact phase_step nonzero ih ready

/-! ### What the phases say -/

namespace Phase

theorem enbl_iff (phase : Phase continuous cfg past s) :
    s.enblReg = true ↔ 2 ≤ past.length ∧ (continuous = true ∨ moved past ≤ cfg.toNat) := by
  cases phase with
  | fresh short _ state | loaded short _ state =>
    subst state
    exact iff_of_false Bool.false_ne_true fun ⟨long, _⟩ => by omega
  | counting long _ enabled _ stops =>
    refine iff_of_true enabled ⟨long, ?_⟩
    cases continuous with
    | true => exact .inl rfl
    | false => exact .inr (stops rfl)
  | stopped _ stop all state =>
    subst state stop
    refine iff_of_false Bool.false_ne_true fun ⟨_, open'⟩ => ?_
    rcases open' with on | few
    · cases on
    · omega

theorem cntr_of_enbl (phase : Phase continuous cfg past s) (enabled : s.enblReg = true) :
    s.cntrReg.toNat = moved past % (cfg.toNat + 1) ∧ s.dataReg = cfg := by
  cases phase with
  | fresh _ _ state | loaded _ _ state | stopped _ _ _ state =>
    subst state
    cases enabled
  | counting _ data _ count _ => exact ⟨count, data⟩

/-- The last word of a packet is the one with which the words make up whole packets. -/
theorem last_of_enbl (phase : Phase continuous cfg past s) (enabled : s.enblReg = true) :
    s.lastWire = decide (moved past % (cfg.toNat + 1) = cfg.toNat) := by
  obtain ⟨count, data⟩ := phase.cntr_of_enbl enabled
  have bound : moved past % (cfg.toNat + 1) < cfg.toNat + 1 := Nat.mod_lt _ (Nat.succ_pos _)
  have below : s.compWire = true ↔ moved past % (cfg.toNat + 1) < cfg.toNat := by
    rw [compWire_iff, count, data]
  rw [lastWire, ← Bool.decide_eq_true (b := s.compWire), ← decide_not, decide_eq_decide, below]
  omega

theorem moved_le (phase : Phase false cfg past s) : moved past ≤ cfg.toNat + 1 := by
  cases phase with
  | fresh _ none _ | loaded _ none _ => omega
  | counting _ _ _ _ stops => exact Nat.le_succ_of_le (stops rfl)
  | stopped _ _ all _ => exact Nat.le_of_eq all

end Phase

end PacketCounter

end Switcheck
