import Switcheck.Sync.Handshake
import Switcheck.Modules.Verilog

/-!
# `axis_interpolator`

A word is loaded while it is offered and accepted one clock later. That clock reloads the register
from the input port when it also sends the last copy, which only the ratio one can bring about.
-/

namespace Switcheck

open Sync Circuit

structure AxisInterpolator (d w : Nat) where
  intTdataReg : BitVec d
  intCntrReg : BitVec w
  intTvalidReg : Bool
  intTreadyReg : Bool
  deriving DecidableEq

structure InterpolatorPins (d : Nat) where
  sAxisTdata : BitVec d
  sAxisTvalid : Bool
  mAxisTready : Bool

namespace AxisInterpolator

variable {d w : Nat}

def sendsLast (cfgData : BitVec w) (s : AxisInterpolator d w) (i : InterpolatorPins d) : Bool :=
  i.mAxisTready && s.intTvalidReg && !decide (s.intCntrReg < cfgData)

def posedge (aresetn : Bool) (cfgData : BitVec w) (s : AxisInterpolator d w)
    (i : InterpolatorPins d) : AxisInterpolator d w where
  intTdataReg :=
    if !aresetn then 0
    else if s.sendsLast cfgData i then i.sAxisTdata
    else if i.sAxisTvalid && !s.intTvalidReg then i.sAxisTdata
    else s.intTdataReg
  intCntrReg :=
    if !aresetn then 0
    else if i.mAxisTready && s.intTvalidReg then
      if s.intCntrReg < cfgData then s.intCntrReg + 1 else 0
    else s.intCntrReg
  intTvalidReg :=
    if !aresetn then false
    else if s.sendsLast cfgData i then i.sAxisTvalid
    else if i.sAxisTvalid && !s.intTvalidReg then true
    else s.intTvalidReg
  intTreadyReg :=
    if !aresetn then false
    else if i.sAxisTvalid && s.intTreadyReg then false
    else if s.sendsLast cfgData i then i.sAxisTvalid
    else if i.sAxisTvalid && !s.intTvalidReg then true
    else s.intTreadyReg

def circuit (d : Nat) (cfgData : BitVec w) :
    Circuit (AxisInterpolator d w) (InterpolatorPins d) where
  Reset s := ∃ s₀ i, s = posedge false cfgData s₀ i
  tick := posedge true cfgData

abbrev Tick (d w : Nat) := Clock (AxisInterpolator d w) (InterpolatorPins d)

def input : Handshake (AxisInterpolator d w) (InterpolatorPins d) (BitVec d) where
  valid c := c.pins.sAxisTvalid
  ready c := c.regs.intTreadyReg
  data c := c.pins.sAxisTdata

def output : Handshake (AxisInterpolator d w) (InterpolatorPins d) (BitVec d) where
  valid c := c.regs.intTvalidReg
  ready c := c.pins.mAxisTready
  data c := c.regs.intTdataReg

/-- The accepted words, each as often as it is to be repeated. -/
def repeated (cfg : BitVec w) (past : List (Tick d w)) : List (BitVec d) :=
  (past.flatMap input.passes).flatMap (List.replicate (cfg.toNat + 1))

def Repeats (cfg : BitVec w) (past : List (Tick d w)) : Prop :=
  past.flatMap output.passes <+: repeated cfg past

instance (cfg : BitVec w) (past : List (Tick d w)) : Decidable (Repeats cfg past) :=
  inferInstanceAs (Decidable (_ <+: _))

/-- The clock accepts a word while it passes the only copy of it. -/
def reloads (cfg : BitVec w) (c : Tick d w) : Bool :=
  c.pins.sAxisTvalid && c.regs.intTreadyReg && c.pins.mAxisTready && decide (cfg = 0)

/-- The output port is not ready again once a word has been reloaded. -/
def NoReload (cfg : BitVec w) (before : List (Tick d w)) (c : Tick d w) : Prop :=
  c.pins.mAxisTready = true → ∀ b ∈ before, reloads cfg b = false

instance (before : List (Tick d w)) (c : Tick d w) (cfg : BitVec w) :
    Decidable (NoReload cfg before c) :=
  inferInstanceAs (Decidable (_ → _))

/-- The states of the core: no word, a word some copies of which are left, a word that is accepted
in this clock, and a reloaded word all copies of which have been sent. -/
inductive Phase (cfg : BitVec w) (past : List (Tick d w)) : AxisInterpolator d w → Prop where
  | empty (word : BitVec d) : (∀ b ∈ past, reloads cfg b = false) →
      past.flatMap output.passes = repeated cfg past → Phase cfg past ⟨word, 0, false, false⟩
  | sends (word : BitVec d) (cntr : BitVec w) : (∀ b ∈ past, reloads cfg b = false) →
      cntr.toNat ≤ cfg.toNat →
      past.flatMap output.passes ++ List.replicate (cfg.toNat + 1 - cntr.toNat) word =
        repeated cfg past → Phase cfg past ⟨word, cntr, true, false⟩
  | accepts (word : BitVec d) : (∀ b ∈ past, reloads cfg b = false) →
      past.flatMap output.passes = repeated cfg past → input.waiting past = [word] →
      Phase cfg past ⟨word, 0, true, true⟩
  | reloaded (word : BitVec d) : cfg = 0 → (∃ b ∈ past, reloads cfg b = true) →
      past.flatMap output.passes = repeated cfg past → Phase cfg past ⟨word, 0, true, false⟩

variable {cfg : BitVec w} {past : List (Tick d w)} {s : AxisInterpolator d w}
  {i : InterpolatorPins d}

theorem repeated_snoc (cfg : BitVec w) (past : List (Tick d w)) (c : Tick d w) :
    repeated cfg (past ++ [c]) =
      repeated cfg past ++ (input.passes c).flatMap (List.replicate (cfg.toNat + 1)) := by
  simp [repeated]

theorem repeated_unready (cfg : BitVec w) (past : List (Tick d w)) {c : Tick d w}
    (unready : c.regs.intTreadyReg = false) : repeated cfg (past ++ [c]) = repeated cfg past := by
  simp [repeated_snoc, Handshake.passes, input, unready]

theorem reloads_unready {c : Tick d w} (unready : c.regs.intTreadyReg = false) :
    reloads cfg c = false := by
  simp [reloads, unready]

theorem none_snoc {past : List (Tick d w)} {c : Tick d w}
    (none : ∀ b ∈ past, reloads cfg b = false) (now : reloads cfg c = false) :
    ∀ b ∈ past ++ [c], reloads cfg b = false := by
  intro b member
  rcases List.mem_append.mp member with old | new
  · exact none b old
  · rw [List.mem_singleton.mp new]
    exact now

theorem phase_load (unready : s.intTreadyReg = false) (none : ∀ b ∈ past, reloads cfg b = false)
    (all : List.flatMap output.passes (past ++ [⟨s, i⟩]) = repeated cfg past) (word : BitVec d)
    (offered : i.sAxisTvalid = true → word = i.sAxisTdata) :
    Phase cfg (past ++ [⟨s, i⟩]) ⟨word, 0, i.sAxisTvalid, i.sAxisTvalid⟩ := by
  have none' := none_snoc none (reloads_unready (c := ⟨s, i⟩) unready)
  rw [← repeated_unready cfg past (c := ⟨s, i⟩) unready] at all
  cases valid : i.sAxisTvalid with
  | false => exact .empty _ none' all
  | true =>
    refine .accepts _ none' all ?_
    simp [Handshake.waits, input, valid, unready, offered valid]

theorem phase_empty_step {word : BitVec d} (none : ∀ b ∈ past, reloads cfg b = false)
    (all : past.flatMap output.passes = repeated cfg past) (i : InterpolatorPins d) :
    Phase cfg (past ++ [⟨⟨word, 0, false, false⟩, i⟩])
      (posedge true cfg ⟨word, 0, false, false⟩ i) := by
  have next : posedge true cfg ⟨word, 0, false, false⟩ i =
      ⟨if i.sAxisTvalid then i.sAxisTdata else word, 0, i.sAxisTvalid, i.sAxisTvalid⟩ := by
    simp [posedge, sendsLast]
  rw [next]
  refine phase_load rfl none ?_ _ fun valid => if_pos valid
  rw [flatMap_snoc, all]
  simp [Handshake.passes, output]

theorem phase_sends_step {word : BitVec d} {cntr : BitVec w}
    (none : ∀ b ∈ past, reloads cfg b = false) (bound : cntr.toNat ≤ cfg.toNat)
    (all : past.flatMap output.passes ++ List.replicate (cfg.toNat + 1 - cntr.toNat) word =
      repeated cfg past) (i : InterpolatorPins d) :
    Phase cfg (past ++ [⟨⟨word, cntr, true, false⟩, i⟩])
      (posedge true cfg ⟨word, cntr, true, false⟩ i) := by
  have none' := none_snoc none (reloads_unready (c := ⟨⟨word, cntr, true, false⟩, i⟩) rfl)
  have same := repeated_unready cfg past (c := ⟨⟨word, cntr, true, false⟩, i⟩) rfl
  have sent : output.passes (⟨⟨word, cntr, true, false⟩, i⟩ : Tick d w) =
      if i.mAxisTready then [word] else [] := by
    simp [Handshake.passes, output]
  cases ready : i.mAxisTready with
  | false =>
    have next : posedge true cfg ⟨word, cntr, true, false⟩ i = ⟨word, cntr, true, false⟩ := by
      simp [posedge, sendsLast, ready]
    rw [next]
    refine .sends word cntr none' bound ?_
    rw [flatMap_snoc, sent, ready, same, ← all]
    simp
  | true =>
    by_cases more : cntr < cfg
    · have less : cntr.toNat < cfg.toNat := more
      have room := cfg.isLt
      have one : (cntr + 1).toNat = cntr.toNat + 1 := toNat_add_one (by omega)
      have next : posedge true cfg ⟨word, cntr, true, false⟩ i = ⟨word, cntr + 1, true, false⟩ := by
        simp [posedge, sendsLast, ready, more]
      rw [next]
      refine .sends word _ none' (by omega) ?_
      have left : cfg.toNat + 1 - cntr.toNat = cfg.toNat + 1 - (cntr.toNat + 1) + 1 := by omega
      rw [flatMap_snoc, sent, ready, same, ← all, one, left, List.replicate_succ]
      simp
    · have last : cntr.toNat = cfg.toNat :=
        Nat.le_antisymm bound (Nat.le_of_not_lt fun less => more less)
      have next : posedge true cfg ⟨word, cntr, true, false⟩ i =
          ⟨i.sAxisTdata, 0, i.sAxisTvalid, i.sAxisTvalid⟩ := by
        simp [posedge, sendsLast, ready, more]
      rw [next]
      refine phase_load rfl none ?_ _ fun _ => rfl
      rw [flatMap_snoc, sent, ready, ← all, last, Nat.add_sub_cancel_left]
      rfl

theorem phase_accepts_step {word : BitVec d} (none : ∀ b ∈ past, reloads cfg b = false)
    (all : past.flatMap output.passes = repeated cfg past) (valid : i.sAxisTvalid = true)
    (same : i.sAxisTdata = word) :
    Phase cfg (past ++ [⟨⟨word, 0, true, true⟩, i⟩])
      (posedge true cfg ⟨word, 0, true, true⟩ i) := by
  have sent : output.passes (⟨⟨word, 0, true, true⟩, i⟩ : Tick d w) =
      if i.mAxisTready then [word] else [] := by
    simp [Handshake.passes, output]
  have more : repeated cfg (past ++ [⟨⟨word, 0, true, true⟩, i⟩]) =
      past.flatMap output.passes ++ List.replicate (cfg.toNat + 1) word := by
    rw [repeated_snoc, all]
    simp [Handshake.passes, input, valid, same]
  cases ready : i.mAxisTready with
  | false =>
    have next : posedge true cfg ⟨word, 0, true, true⟩ i = ⟨word, 0, true, false⟩ := by
      simp [posedge, sendsLast, ready, valid]
    have none' := none_snoc none (c := ⟨⟨word, 0, true, true⟩, i⟩) (by simp [reloads, ready])
    rw [next]
    refine .sends word 0 none' (Nat.zero_le _) ?_
    rw [flatMap_snoc, sent, ready, more]
    simp
  | true =>
    by_cases single : cfg = 0
    · have next : posedge true cfg ⟨word, 0, true, true⟩ i = ⟨word, 0, true, false⟩ := by
        simp [posedge, sendsLast, ready, valid, same, single]
      rw [next]
      refine .reloaded word single ⟨⟨⟨word, 0, true, true⟩, i⟩, by simp, ?_⟩ ?_
      · simp [reloads, valid, ready, single]
      · rw [flatMap_snoc, sent, ready, more, single]
        rfl
    · have nonzero : ¬ cfg = 0#w := single
      have positive : 0#w < cfg := (BitVec.pos_iff_ne_zero cfg).mpr nonzero
      have large : 0 < cfg.toNat := BitVec.toNat_pos_of_ne_zero nonzero
      have room := cfg.isLt
      have zero : (0 : BitVec w).toNat = 0 := BitVec.toNat_zero
      have one : (0 + 1 : BitVec w).toNat = 1 := by
        rw [toNat_add_one (by omega), zero]
      have next : posedge true cfg ⟨word, 0, true, true⟩ i = ⟨word, 0 + 1, true, false⟩ := by
        simp [posedge, sendsLast, ready, valid, positive]
      have none' := none_snoc none (c := ⟨⟨word, 0, true, true⟩, i⟩) (by simp [reloads, nonzero])
      rw [next]
      refine .sends word _ none' (by omega) ?_
      rw [flatMap_snoc, sent, ready, more, one, Nat.add_sub_cancel, List.replicate_succ]
      simp

theorem phase_reloaded_step {word : BitVec d} (single : cfg = 0)
    (some : ∃ b ∈ past, reloads cfg b = true)
    (all : past.flatMap output.passes = repeated cfg past) (stalled : i.mAxisTready = false) :
    Phase cfg (past ++ [⟨⟨word, 0, true, false⟩, i⟩])
      (posedge true cfg ⟨word, 0, true, false⟩ i) := by
  have next : posedge true cfg ⟨word, 0, true, false⟩ i = ⟨word, 0, true, false⟩ := by
    simp [posedge, sendsLast, stalled]
  obtain ⟨b, member, reload⟩ := some
  rw [next]
  refine .reloaded word single ⟨b, List.mem_append_left _ member, reload⟩ ?_
  rw [flatMap_snoc, repeated_unready cfg past rfl, all]
  simp [Handshake.passes, output, stalled]

theorem phase_step (phase : Phase cfg past s) (holds : input.Holds past ⟨s, i⟩)
    (noReload : NoReload cfg past ⟨s, i⟩) :
    Phase cfg (past ++ [⟨s, i⟩]) (posedge true cfg s i) := by
  cases phase with
  | empty word none all => exact phase_empty_step none all i
  | sends word cntr none bound all => exact phase_sends_step none bound all i
  | accepts word none all waits =>
    obtain ⟨valid, same⟩ := holds word (by simp [waits])
    exact phase_accepts_step none all valid same
  | reloaded word single some all =>
    refine phase_reloaded_step single some all ?_
    cases ready : i.mAxisTready with
    | false => rfl
    | true =>
      obtain ⟨b, member, reload⟩ := some
      rw [noReload ready b member] at reload
      cases reload

theorem Phase.repeats (phase : Phase cfg past s) : Repeats cfg past := by
  unfold Repeats
  cases phase with
  | empty _ _ all | accepts _ _ all _ | reloaded _ _ _ all => exact all ▸ List.prefix_rfl
  | sends _ _ _ _ all => exact all ▸ List.prefix_append _ _

/-- A reloaded word that is sent is one copy too many. -/
theorem not_repeats (phase : Phase cfg past s) (reload : ¬ NoReload cfg past ⟨s, i⟩) :
    ¬ Repeats cfg (past ++ [⟨s, i⟩]) := by
  obtain ⟨ready, some⟩ := Classical.not_imp.mp reload
  cases phase with
  | empty _ none | sends _ _ none | accepts _ none => exact (some none).elim
  | reloaded word single _ all =>
    intro short
    have long := short.length_le
    have sent : output.passes (⟨⟨word, 0, true, false⟩, i⟩ : Tick d w) = [word] := by
      simpa [Handshake.passes, output] using ready
    rw [flatMap_snoc, repeated_unready cfg past rfl, ← all, sent, List.length_append,
      List.length_singleton] at long
    omega

/-- With an upstream that keeps its offers, the core repeats every word as it is to throughout a
run exactly when no copy is sent after a reload; every offer is accepted once. -/
theorem run_repeats_iff (run : (circuit d cfg).Run past s) (held : Held input.Holds past) :
    ((Repeats cfg past ∧ Held (fun before _ => Repeats cfg before) past) ↔
      Held (NoReload cfg) past) ∧
    past.flatMap input.passes ++ input.waiting past = input.offered past := by
  refine ⟨?_, input.passes_of_holds held⟩
  refine run.throughout_iff_under (P := fun past _ => Repeats cfg past) (Q := Phase cfg) ?_ ?_ ?_
    held
  · rintro s ⟨s₀, i, rfl⟩
    exact ⟨.empty 0 (by simp) rfl, List.prefix_rfl⟩
  · intro past s i _ phase holds
    refine ⟨fun repeats => ?_, fun noReload => (phase_step phase holds noReload).repeats⟩
    by_contra reload
    exact not_repeats phase reload repeats
  · intro past s i _ phase holds noReload
    exact phase_step phase holds noReload

def fresh : AxisInterpolator 8 4 := ⟨0, 0, false, false⟩

theorem fresh_reset (cfg : BitVec 4) : (circuit 8 cfg).Reset fresh :=
  ⟨fresh, ⟨0, false, false⟩, rfl⟩

def twoWords : List (InterpolatorPins 8) :=
  [⟨5, true, true⟩, ⟨5, true, true⟩, ⟨6, true, true⟩, ⟨6, true, true⟩]

theorem run_repeats_iff_twoWords :
    Repeats 1 ((circuit 8 (1 : BitVec 4)).trace fresh twoWords) :=
  ((run_repeats_iff (run_trace (fresh_reset 1) twoWords) (by decide)).1.mpr (by decide)).1

/-- With the ratio one the first word is sent twice. -/
theorem twoWords_doubled :
    (circuit 8 (0 : BitVec 4)).Run ((circuit 8 0).trace fresh twoWords)
      ((circuit 8 0).after fresh twoWords) ∧
    Held input.Holds ((circuit 8 (0 : BitVec 4)).trace fresh twoWords) ∧
    ((circuit 8 (0 : BitVec 4)).trace fresh twoWords).flatMap input.passes = [5, 6] ∧
    ((circuit 8 (0 : BitVec 4)).trace fresh twoWords).flatMap output.passes = [5, 5, 6] ∧
    ¬ Repeats 0 ((circuit 8 (0 : BitVec 4)).trace fresh twoWords) :=
  ⟨run_trace (fresh_reset 0) twoWords, by decide, by decide, by decide, by decide⟩

end AxisInterpolator

end Switcheck
