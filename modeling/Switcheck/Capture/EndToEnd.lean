import Switcheck.Adc.TriggerReset
import Switcheck.Capture.Accounting
import Switcheck.Writer.FullBursts

/-!
# End-to-end capture

Series of a whole number of bursts, on a port that keeps the FIFO from filling: the flush never
cuts a burst short, and the buffer holds the series one after the other.
-/

namespace Switcheck.Capture

open Sync Circuit

theorem axis32_half {xs : List (BitVec 32)} {m : Nat} {d : BitVec 64}
    (found : (RamWriter.axis32.words xs)[m]? = some d) (half : Nat) (low : half < 2) :
    xs[2 * m + half]? = some (d.extractLsb' (32 * half) 32) := by
  obtain ⟨within, value⟩ := List.getElem?_eq_some_iff.mp found
  rw [Packing.words_length] at within
  have enough : m + 1 ≤ xs.length / 2 := within
  have bound : 2 * m + 1 < xs.length := by omega
  have pair : (xs.drop (m * 2)).take 2 = [xs[2 * m], xs[2 * m + 1]] := by
    rw [Nat.mul_comm, List.drop_eq_getElem_cons (by omega), List.drop_eq_getElem_cons bound]
    rfl
  have word : xs[2 * m + 1] ++ xs[2 * m] = d := by
    rw [← value]
    simp only [Packing.words, List.getElem_map, List.getElem_range]
    show _ = RamWriter.axis32.word ((xs.drop (m * 2)).take 2)
    rw [pair]
    rfl
  have cases : half = 0 ∨ half = 1 := by omega
  rcases cases with rfl | rfl
  · rw [← word, List.getElem?_eq_getElem (by omega)]
    exact congrArg some BitVec.extractLsb'_append_eq_right.symm
  · rw [← word, List.getElem?_eq_getElem bound]
    exact congrArg some BitVec.extractLsb'_append_eq_left.symm

variable {w depth : Nat} {limiter : BitVec 8} {minAddr : BitVec 32}
variable {past : List (Tick w (RamWriter.writer32 16 depth))}
variable {s : Capture w (RamWriter.writer32 16 depth)}
variable {i : CapturePins (RamWriter.writer32 16 depth)}

def emitted (past : List (Tick w (RamWriter.writer32 16 depth))) : List (Bool × BitVec 32) :=
  past.flatMap fun c => c.regs.adc.word

def wBeats (past : List (Tick w (RamWriter.writer32 16 depth))) : List (Bool × BitVec 64) :=
  (past.map writerClock).flatMap RamWriter.wBeat

def awReqs (past : List (Tick w (RamWriter.writer32 16 depth))) : List (BitVec 32 × BitVec 4) :=
  (past.map writerClock).flatMap RamWriter.awReq

def target32 (past : List (Tick w (RamWriter.writer32 16 depth))) (k : Nat) : Option (BitVec 32) :=
  (RamWriter.target (past.map writerClock) (k / 2)).map fun a => a + BitVec.ofNat 32 (4 * (k % 2))

/-- The configuration of a capture, the trigger out of reset. -/
def Armed (limiter : BitVec 8) (minAddr : BitVec 32)
    (_ : List (Tick w (RamWriter.writer32 16 depth))) (c : Tick w (RamWriter.writer32 16 depth)) :
    Prop :=
  c.pins.adc.nresetTrigger = true ∧ c.pins.adc.limiter = limiter ∧
    c.pins.minAddr = minAddr ∧ c.pins.cfgData = (65535 : BitVec 16)

/-- The configuration of a capture; a trigger reset starts only where no word is presented. -/
def Configured (limiter : BitVec 8) (minAddr : BitVec 32)
    (before : List (Tick w (RamWriter.writer32 16 depth)))
    (c : Tick w (RamWriter.writer32 16 depth)) : Prop :=
  Adc.PulseWhenIdle (before.map adcClock) (adcClock c) ∧ c.pins.adc.limiter = limiter ∧
    c.pins.minAddr = minAddr ∧ c.pins.cfgData = (65535 : BitVec 16)

/-- The slave takes each address before the data, and keeps the FIFO from filling. -/
def Served (before : List (Tick w (RamWriter.writer32 16 depth)))
    (c : Tick w (RamWriter.writer32 16 depth)) : Prop :=
  RamWriter.AwFirst (before.map writerClock) (writerClock c) ∧ NeverFull before c

instance (before : List (Tick w (RamWriter.writer32 16 depth)))
    (c : Tick w (RamWriter.writer32 16 depth)) : Decidable (Served before c) :=
  inferInstanceAs (Decidable (_ ∧ _))

/-- No series under way, no word presented, no burst active or ready to start. -/
def Quiescent (s : Capture w (RamWriter.writer32 16 depth)) : Prop :=
  s.adc.triggerActivated = false ∧ s.adc.mAxisTvalid = false ∧
    s.writer.intWvalidReg = false ∧ s.writer.intValidWire = false

structure Captured (limiter : BitVec 8) (minAddr : BitVec 32)
    (past : List (Tick w (RamWriter.writer32 16 depth)))
    (s : Capture w (RamWriter.writer32 16 depth)) : Prop where
  awlen : ∀ req ∈ awReqs past, req.2 = 15
  bursts : Uniform Prod.fst 16 (wBeats past)
  data : (wBeats past).map Prod.snd <+: RamWriter.axis32.words ((emitted past).map Prod.snd)
  placed : ∀ k beat, (wBeats past)[k / 2]? = some beat →
    ((emitted past).map Prod.snd)[k]? = some (beat.2.extractLsb' (32 * (k % 2)) 32) ∧
    (target32 past k).map BitVec.toNat = some (minAddr.toNat + 4 * (k % 2 ^ 21))
  series : ∀ f ∈ Adc.series (past.map adcClock) s.adc, f.length = 2 ^ limiter.toNat ∧
    ∃ body word, f = body ++ [word] ∧ Adc.tag word = 0b11 ∧ ∀ x ∈ body, Adc.tag x ≠ 0b11
  running : ∀ x ∈ Adc.running (past.map adcClock) s.adc, Adc.tag x ≠ 0b11
  drained : Quiescent s → s.writer.fifo0 = [] ∧
    s.writer.stsData.toNat = (emitted past).length / 32 % 65536

theorem seriesLength_eq (high : limiter.toNat ≤ 21) :
    Adc.seriesLength limiter = 2 ^ limiter.toNat := by
  rw [Adc.seriesLength, if_pos (by omega)]

theorem dvd_seriesLength (low : 5 ≤ limiter.toNat) (high : limiter.toNat ≤ 21) :
    32 ∣ Adc.seriesLength limiter := by
  rw [seriesLength_eq high]
  exact Nat.pow_dvd_pow 2 low

theorem configured_of_armed (armed : Held (Armed limiter minAddr) past) :
    Held (Configured limiter minAddr) past := by
  refine armed.mono fun _ _ ⟨high, now⟩ => ⟨fun low => ?_, now⟩
  exact Bool.noConfusion (high.symm.trans low)

theorem run_cut (run : (circuit w (RamWriter.writer32 16 depth)).Run past s)
    (set : Held (Configured limiter minAddr) past) :
    Adc.Cut limiter (past.map adcClock) s.adc := by
  refine Adc.run_cut (run_adc run) ?_ ?_
  · exact (held_map _ _ _).mpr (set.mono fun _ _ now => now.1)
  · exact (held_map _ _ _).mpr (set.mono fun _ _ now => now.2.1)

theorem accepted_of_served (room : Held NeverFull past) :
    (past.map writerClock).flatMap RamWriter.accepted = (emitted past).map Prod.snd := by
  rw [flatMap_accepted, (neverFull_iff_whole past).mp room, lanesOf]
  exact (List.map_eq_flatMap ..).symm

theorem closesBurst (low : 5 ≤ limiter.toNat) (high : limiter.toNat ≤ 21)
    (run : (circuit w (RamWriter.writer32 16 depth)).Run past s)
    (set : Held (Configured limiter minAddr) past) (room : Held NeverFull past)
    (now : NeverFull past ⟨s, i⟩) :
    RamWriter.ClosesBurst (past.map writerClock) (writerClock ⟨s, i⟩) := by
  intro valid last
  have valid' : s.adc.mAxisTvalid = true := valid
  have last' : s.adc.mAxisTlast = true := last
  refine ⟨now valid', ?_⟩
  have uniform := (run_cut run set).uniform
  have more := accepted_of_served ((held_snoc _ _ _).mpr ⟨room, now⟩)
  have presented : (emitted (past ++ [⟨s, i⟩])) = Adc.presented (past.map adcClock) s.adc := by
    rw [presented_adcClock, emitted, flatMap_snoc]
  have closed : rest Prod.fst (Adc.presented (past.map adcClock) s.adc) = [] := by
    rw [presented_adcClock, Adc.word, valid', beat_true, rest_snoc, if_pos last']
  have length := uniform.length
  rw [closed, List.length_nil, Nat.add_zero] at length
  rw [List.map_append, List.map_singleton] at more
  rw [more, List.length_map, presented, length]
  exact Nat.dvd_mul_right_of_dvd (dvd_seriesLength low high) _

theorem run_fullService (low : 5 ≤ limiter.toNat) (high : limiter.toNat ≤ 21)
    (run : (circuit w (RamWriter.writer32 16 depth)).Run past s)
    (set : Held (Configured limiter minAddr) past) (served : Held Served past) :
    Held (RamWriter.FullService minAddr (65535 : BitVec 16)) (past.map writerClock) := by
  obtain ⟨first, room⟩ := held_and.mp served
  refine (RamWriter.run_startsFull (run_writer run) ((held_map _ _ _).mpr first) ?_ ?_).2
  · exact (held_map _ _ _).mpr (set.mono fun _ _ now => now.2.2)
  · refine (held_map _ _ _).mpr (run.derive ?_ (held_and.mpr ⟨set, room⟩))
    intro past s i run held now
    obtain ⟨set, room⟩ := held_and.mp held
    exact closesBurst low high run set room now.2

theorem place_toNat (fits : minAddr.toNat + 2 ^ 23 ≤ 2 ^ 32) (k : Nat) :
    (minAddr + BitVec.ofNat 32 (8 * (k / 2 % (16 * (65535 + 1)))) +
      BitVec.ofNat 32 (4 * (k % 2))).toNat = minAddr.toNat + 4 * (k % 2 ^ 21) := by
  have halves : k % 2 ^ 21 = k % 2 + 2 * (k / 2 % 2 ^ 20) := Nat.mod_mul (a := 2) (b := 2 ^ 20)
  have bound : k % 2 ^ 21 < 2 ^ 21 := Nat.mod_lt _ (by decide)
  rw [halves] at bound ⊢
  simp only [BitVec.toNat_add, BitVec.toNat_ofNat]
  omega

/-- At rest every series is closed, every burst of it has gone, and the FIFO is empty. -/
theorem drained (low : 5 ≤ limiter.toNat) (high : limiter.toNat ≤ 21)
    (run : (circuit w (RamWriter.writer32 16 depth)).Run past s)
    (set : Held (Configured limiter minAddr) past) (served : Held Served past)
    (quiet : Quiescent s) :
    s.writer.fifo0 = [] ∧ s.writer.stsData.toNat = (emitted past).length / 32 % 65536 := by
  obtain ⟨series, none, idle, rests⟩ := quiet
  have service := run_fullService low high run set served
  have full := (RamWriter.run_fullInv (run_writer run) service).1
  have stored := full.stored (run_writer run) (RamWriter.run_noUnderflow (run_writer run) service) idle
  have inv := run_cut run set
  have presented : Adc.presented (past.map adcClock) s.adc = emitted past := by
    rw [presented_adcClock, Adc.word, none]
    exact List.append_nil _
  have closed : Adc.running (past.map adcClock) s.adc = [] := inv.none_of_idle series
  have whole : 32 ∣ (emitted past).length := by
    have length := inv.uniform.length
    have empty : (rest Prod.fst (Adc.presented (past.map adcClock) s.adc)).length = 0 := by
      rw [List.length_eq_zero_iff]
      exact closed
    rw [empty, Nat.add_zero, presented] at length
    rw [length]
    exact Nat.dvd_mul_right_of_dvd (dvd_seriesLength low high) _
  have accepted := congrArg List.length (accepted_of_served (held_and.mp served).2)
  have few : s.writer.fifo0.length < 32 := by
    have less : ¬ 16 ≤ s.writer.intCountWire := by
      intro enough
      have starts : s.writer.intValidWire = true := by
        have enough' : (RamWriter.writer32 16 depth).burstBeats ≤ s.writer.intCountWire := enough
        simp [RamWriter.intValidWire, enough', idle]
      rw [starts] at rests
      cases rests
    have count : s.writer.intCountWire = s.writer.fifo0.length / 2 := rfl
    omega
  have turn := full.turn
  rw [List.length_map] at accepted
  have sent : ((past.map writerClock).flatMap RamWriter.issued).length = (emitted past).length / 32 := by
    omega
  refine ⟨List.length_eq_zero_iff.mp (by omega), ?_⟩
  rw [← sent]
  exact turn

/-- Series of a multiple of 32 words are sent in full bursts, in order and without gaps, and
nothing of them is left behind. -/
theorem run_captured (low : 5 ≤ limiter.toNat) (high : limiter.toNat ≤ 21)
    (fits : minAddr.toNat + 2 ^ 23 ≤ 2 ^ 32)
    (run : (circuit w (RamWriter.writer32 16 depth)).Run past s)
    (armed : Held (Armed limiter minAddr) past) (served : Held Served past) :
    Captured limiter minAddr past s := by
  have set := configured_of_armed armed
  have service := run_fullService low high run set served
  have full := (RamWriter.run_fullInv (run_writer run) service).1
  have sound := RamWriter.run_noUnderflow (run_writer run) service
  have accepted := accepted_of_served (held_and.mp served).2
  have framed : Adc.SeriesFramed limiter (past.map adcClock) s.adc :=
    (Adc.run_seriesInv (run_adc run)
      ((held_map _ _ _).mpr (armed.mono fun _ _ now => ⟨now.1, now.2.1⟩))).framed
  refine ⟨?_, ?_, ?_, ?_, ?_, ?_, drained low high run set served⟩
  · intro req member
    obtain ⟨n, found⟩ := List.mem_iff_getElem?.mp member
    rw [full.placed n req (getElem?_mono ⟨_, RamWriter.run_awReq (run_writer run)⟩ found)]
  · exact full.uniform.mono ⟨_, RamWriter.run_wBeat (run_writer run)⟩
  · rw [← accepted]
    exact RamWriter.run_wBeat_words (run_writer run) sound
  · intro k beat found
    obtain ⟨word, place⟩ := full.contiguous (run_writer run) sound (k / 2) beat found
    have half := axis32_half word (k % 2) (Nat.mod_lt _ (by decide))
    rw [Nat.div_add_mod, accepted] at half
    refine ⟨half, ?_⟩
    rw [target32, place]
    exact congrArg some (place_toNat fits k)
  · intro f member
    refine ⟨?_, framed.tag_series member⟩
    rw [← seriesLength_eq high]
    exact framed.full f member
  · exact fun x member => framed.tag_running member

def flowing (limiter : BitVec 8) : CapturePins RamWriter.deployed where
  adc := Adc.quiet limiter
  minAddr := 0x10000000
  cfgData := 65535
  mAxiAwready := true
  mAxiWready := true

theorem run_captured_flowing :
    Captured 5 (0x10000000 : BitVec 32)
      ((circuit 14 RamWriter.deployed).trace fresh (List.replicate 52 (flowing 5)))
      ((circuit 14 RamWriter.deployed).after fresh (List.replicate 52 (flowing 5))) := by
  refine run_captured (by decide) (by decide) (by decide) (run_trace fresh_reset _) ?_
    (by decide +kernel)
  refine held_trace (circuit 14 RamWriter.deployed) fresh
    (Q := fun i => i.adc.nresetTrigger = true ∧ i.adc.limiter = 5 ∧
      i.minAddr = (0x10000000 : BitVec 32) ∧ i.cfgData = (65535 : BitVec 16)) fun i member => ?_
  rw [List.eq_of_mem_replicate member]
  exact ⟨rfl, rfl, rfl, rfl⟩

end Switcheck.Capture
