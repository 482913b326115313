import Switcheck.Sync.Framing
import Switcheck.Adc.Core

/-!
# Series framing

With the trigger out of reset and a constant limiter, the words presented are series of
`limiter_val` words, the last of each marked by `m_axis_tlast` and tag 11.
-/

namespace Switcheck.Adc

open Sync Circuit

variable {w : Nat} {limiter : BitVec 8} {past : List (Tick w)} {s : Adc w} {i : AdcPins}

/-- Words in a series: `2 ^ limiter`, and `2 ^ 64 - 1` for a limiter above 63. -/
def seriesLength (limiter : BitVec 8) : Nat :=
  if limiter.toNat ≤ 63 then 2 ^ limiter.toNat else 2 ^ 64 - 1

theorem limiterVal_toNat : (limiterVal limiter).toNat = seriesLength limiter := by
  unfold limiterVal seriesLength
  by_cases large : 63 < limiter.toNat
  · rw [if_pos large, if_neg (by omega), BitVec.toNat_allOnes]
  · have bound : 2 ^ limiter.toNat < 2 ^ 64 := Nat.pow_lt_pow_right (by decide) (by omega)
    rw [if_neg large, if_pos (by omega), BitVec.toNat_shiftLeft, BitVec.toNat_ofNat,
      Nat.shiftLeft_eq, Nat.mod_eq_of_lt (show 1 < 2 ^ 64 by decide), Nat.one_mul,
      Nat.mod_eq_of_lt bound]

theorem seriesLength_pos (limiter : BitVec 8) : 0 < seriesLength limiter := by
  unfold seriesLength
  split
  · exact Nat.two_pow_pos _
  · decide

theorem seriesEnds_iff (same : i.limiter = limiter) :
    s.seriesEnds i = true ↔ s.curLimiter.toNat + 1 = seriesLength limiter := by
  have pos := seriesLength_pos limiter
  have size := (limiterVal limiter).isLt
  rw [limiterVal_toNat] at size
  have less : (limiterVal limiter - 1).toNat = seriesLength limiter - 1 := by
    rw [BitVec.toNat_sub_of_le, limiterVal_toNat]
    · rfl
    · rw [BitVec.le_def, limiterVal_toNat]
      exact pos
  rw [seriesEnds, same, beq_iff_eq, ← BitVec.toNat_inj, less]
  omega

/-- The trigger is out of reset and the limiter does not change. -/
def Steady (limiter : BitVec 8) (_ : List (Tick w)) (c : Tick w) : Prop :=
  c.pins.nresetTrigger = true ∧ c.pins.limiter = limiter

instance (before : List (Tick w)) (c : Tick w) : Decidable (Steady limiter before c) :=
  inferInstanceAs (Decidable (_ ∧ _))

def series (past : List (Tick w)) (s : Adc w) : List (List (Bool × BitVec 32)) :=
  frames Prod.fst (presented past s)

def running (past : List (Tick w)) (s : Adc w) : List (Bool × BitVec 32) :=
  rest Prod.fst (presented past s)

def TagMatches (word : Bool × BitVec 32) : Prop :=
  if word.1 then word.2.extractLsb' 30 2 = 0b11
  else word.2.extractLsb' 30 2 = 0b00 ∨ word.2.extractLsb' 30 2 = 0b10

/-- A word opens a series only out of a series and at a level that reaches the trigger. -/
def StartsOnLevel (before : List (Tick w)) (c : Tick w) : Prop :=
  running before c.regs = [] → (posedge true c.regs c.pins).mAxisTvalid = true →
    c.regs.triggerActivated = false ∧ c.pins.triggerLevel.toNat ≤ c.regs.sumAbs.toNat

structure SeriesFramed (limiter : BitVec 8) (past : List (Tick w)) (s : Adc w) : Prop where
  full : ∀ f ∈ series past s, f.length = seriesLength limiter
  short : (running past s).length < seriesLength limiter
  unbroken : running past s ≠ [] → s.mAxisTvalid = true
  marked : past ≠ [] → s.mAxisTlast = true → s.mAxisTvalid = true
  tags : ∀ word ∈ presented past s, TagMatches word
  starts : Held StartsOnLevel past
  triggers : s.triggersCount =
    BitVec.ofNat 16 ((series past s).length + if running past s = [] then 0 else 1)
  sent : s.samplesSent = BitVec.ofNat 32 (presented past s).length
  active : s.triggerActivated = true ↔ s.curLimiter ≠ 0

/-- The words presented are whole series and the one under way, which `cur_limiter` counts. -/
structure Cut (limiter : BitVec 8) (past : List (Tick w)) (s : Adc w) : Prop where
  uniform : Uniform Prod.fst (seriesLength limiter) (presented past s)
  unbroken : running past s ≠ [] → s.mAxisTvalid = true
  activated_iff : s.triggerActivated = true ↔ running past s ≠ []
  counts : s.curLimiter.toNat = (running past s).length

structure SeriesInv (limiter : BitVec 8) (past : List (Tick w)) (s : Adc w) : Prop extends
    Cut limiter past s where
  marked : past ≠ [] → s.mAxisTlast = true → s.mAxisTvalid = true
  tags : ∀ word ∈ presented past s, TagMatches word
  starts : Held StartsOnLevel past
  triggers : s.triggersCount =
    BitVec.ofNat 16 ((series past s).length + if running past s = [] then 0 else 1)
  sent : s.samplesSent = BitVec.ofNat 32 (presented past s).length

theorem seriesLength_lt (limiter : BitVec 8) : seriesLength limiter < 2 ^ 64 := by
  rw [← limiterVal_toNat]
  exact (limiterVal limiter).isLt

theorem cut_reset (reset : (circuit w).Reset s) : Cut limiter [] s := by
  obtain ⟨s₀, i, rfl⟩ := reset
  have none : running [] (posedge false s₀ i) = [] := rfl
  exact ⟨uniform_nil (seriesLength_pos limiter), fun some => absurd none some,
    iff_of_false Bool.false_ne_true (not_not_intro none), rfl⟩

theorem Cut.none_of_idle (cut : Cut limiter past s) (idle : s.triggerActivated = false) :
    running past s = [] := by
  by_contra some
  rw [cut.activated_iff.mpr some] at idle
  cases idle

theorem presented_silent {c : Tick w} {s' : Adc w} (silent : s'.word = []) :
    presented (past ++ [c]) s' = presented past c.regs := by
  rw [presented_snoc, silent, List.append_nil]

/-- A clock that leaves no word, out of a series. -/
theorem Cut.silent (cut : Cut limiter past s) {s' : Adc w} (silent : s'.word = [])
    (none : running past s = []) (activated : s'.triggerActivated = false)
    (count : s'.curLimiter = 0) : Cut limiter (past ++ [⟨s, i⟩]) s' := by
  have same : presented (past ++ [⟨s, i⟩]) s' = presented past s := presented_silent silent
  have running' : running (past ++ [⟨s, i⟩]) s' = [] := by rw [running, same]; exact none
  refine ⟨same ▸ cut.uniform, fun some => absurd running' some, ?_, ?_⟩
  · simp [activated, running']
  · rw [running', count]
    rfl

theorem presented_send (past : List (Tick w)) (high : i.nresetTrigger = true) (on : s.triggerNow i = true) :
    presented (past ++ [⟨s, i⟩]) (posedge true s i) =
      presented past s ++ [(s.seriesEnds i, (posedge true s i).axisDataReg)] := by
  obtain ⟨word, -⟩ := posedge_send high on
  rw [presented_snoc, word]

theorem running_send (past : List (Tick w)) (high : i.nresetTrigger = true)
    (on : s.triggerNow i = true) : running (past ++ [⟨s, i⟩]) (posedge true s i) =
      if s.seriesEnds i then [] else running past s ++ [(false, (posedge true s i).axisDataReg)] := by
  rw [running, presented_send past high on, rest_snoc]
  cases s.seriesEnds i <;> rfl

/-- A series closes with the word that makes up its length. -/
theorem cut_send (cut : Cut limiter past s) (steady : Steady limiter past ⟨s, i⟩)
    (on : s.triggerNow i = true) : Cut limiter (past ++ [⟨s, i⟩]) (posedge true s i) := by
  obtain ⟨-, valid, -, activated, count, -, -⟩ := posedge_send steady.1 on
  have ends := seriesEnds_iff (s := s) steady.2
  have short := cut.uniform.short
  have counts := cut.counts
  have same := presented_send past steady.1 on
  have running' := running_send past steady.1 on
  cases last : s.seriesEnds i with
  | true =>
    have length := ends.mp last
    rw [last] at same running' activated count
    refine ⟨?_, fun _ => valid, ?_, ?_⟩
    · rw [same]
      exact cut.uniform.snoc_close rfl (by rw [← length, counts]; rfl)
    · simp [activated, running']
    · rw [running', count]
      rfl
  | false =>
    have length : s.curLimiter.toNat + 1 ≠ seriesLength limiter := by
      rw [Ne, ← ends, last]
      simp
    have size := seriesLength_lt limiter
    have counts' : s.curLimiter.toNat = (rest Prod.fst (presented past s)).length := counts
    have room : (rest Prod.fst (presented past s)).length + 1 < seriesLength limiter := by omega
    have step : (s.curLimiter + 1).toNat = s.curLimiter.toNat + 1 := toNat_add_one (by omega)
    rw [last] at same running' activated count
    refine ⟨?_, fun _ => valid, ?_, ?_⟩
    · rw [same]
      exact cut.uniform.snoc_open rfl room
    · simp [activated, running']
    · rw [running', count, if_neg Bool.false_ne_true, step, if_neg Bool.false_ne_true,
        List.length_append, counts]
      rfl

theorem Cut.idle (cut : Cut limiter past s) (high : i.nresetTrigger = true)
    (off : s.triggerNow i = false) : Cut limiter (past ++ [⟨s, i⟩]) (posedge true s i) := by
  obtain ⟨word, -, -, activated, count, -⟩ := posedge_idle high off
  have idle := triggerNow_of_not (by simp [off] : ¬ s.triggerNow i = true)
  have none := cut.none_of_idle idle
  have zero : s.curLimiter = 0 := by
    rw [← BitVec.toNat_inj, cut.counts, none]
    rfl
  exact cut.silent word none (activated.trans idle) (count.trans zero)

theorem posedge_low_word (low : i.nresetTrigger = false) (silent : s.mAxisTvalid = false) :
    (posedge true s i).word = [] := by
  obtain ⟨valid, -⟩ := posedge_held (s := s) low
  simp [Adc.word, valid, silent]

/-- The trigger reset, where no word is presented. -/
theorem Cut.low (cut : Cut limiter past s) (low : i.nresetTrigger = false)
    (silent : s.mAxisTvalid = false) : Cut limiter (past ++ [⟨s, i⟩]) (posedge true s i) := by
  have none : running past s = [] := by
    by_contra some
    rw [cut.unbroken some] at silent
    cases silent
  exact cut.silent (posedge_low_word low silent) none (by simp [posedge, low])
    (by simp [posedge, low])

theorem seriesInv_reset (reset : (circuit w).Reset s) : SeriesInv limiter [] s := by
  refine ⟨cut_reset reset, fun some => absurd rfl some, ?_, held_nil _, ?_, ?_⟩
  all_goals
    obtain ⟨s₀, i, rfl⟩ := reset
  · simp [presented, posedge, Adc.word]
  · rfl
  · rfl

theorem seriesInv_idle (inv : SeriesInv limiter past s) (high : i.nresetTrigger = true)
    (off : s.triggerNow i = false) : SeriesInv limiter (past ++ [⟨s, i⟩]) (posedge true s i) := by
  obtain ⟨word, tlast, sent, -, -, triggers⟩ := posedge_idle high off
  have same : presented (past ++ [⟨s, i⟩]) (posedge true s i) = presented past s :=
    presented_silent word
  refine ⟨inv.toCut.idle high off, ?_, ?_, ?_, ?_, ?_⟩
  · exact fun _ marked => absurd marked (by simp [tlast])
  · rw [same]
    exact inv.tags
  · refine (held_snoc _ _ _).mpr ⟨inv.starts, fun _ valid => ?_⟩
    have quiet : (posedge true s i).mAxisTvalid = true := valid
    simp [Adc.word, quiet] at word
  · rw [series, running, same, triggers]
    exact inv.triggers
  · rw [same, sent]
    exact inv.sent

theorem tagMatches_send (high : i.nresetTrigger = true) (on : s.triggerNow i = true) :
    TagMatches (s.seriesEnds i, (posedge true s i).axisDataReg) := by
  obtain ⟨-, -, -, -, -, -, data⟩ := posedge_send high on
  unfold TagMatches
  rw [data]
  cases s.seriesEnds i with
  | true => exact tagged_tag s i _
  | false =>
    cases s.levelLeft i with
    | true => exact Or.inr (tagged_tag s i _)
    | false => exact Or.inl (tagged_tag s i _)

theorem SeriesInv.tags_send (inv : SeriesInv limiter past s) (high : i.nresetTrigger = true)
    (on : s.triggerNow i = true) :
    ∀ x ∈ presented (past ++ [⟨s, i⟩]) (posedge true s i), TagMatches x := by
  intro x member
  rw [presented_send past high on] at member
  rcases List.mem_append.mp member with old | new
  · exact inv.tags x old
  · rw [List.mem_singleton.mp new]
    exact tagMatches_send high on

theorem SeriesInv.starts_send (inv : SeriesInv limiter past s) (on : s.triggerNow i = true) :
    StartsOnLevel past ⟨s, i⟩ := by
  intro none _
  have idle : s.triggerActivated = false := by
    by_contra active
    exact inv.activated_iff.mp (by simpa using active) none
  exact ⟨idle, by simpa [triggerNow, idle, levelReached] using on⟩

theorem SeriesInv.triggers_send (inv : SeriesInv limiter past s) (high : i.nresetTrigger = true)
    (on : s.triggerNow i = true) :
    (posedge true s i).triggersCount = BitVec.ofNat 16 ((series past s).length + 1) := by
  obtain ⟨-, -, -, -, -, triggers, -⟩ := posedge_send high on
  rw [triggers, inv.triggers]
  by_cases none : running past s = []
  · have idle : ¬ s.triggerActivated = true := fun active => inv.activated_iff.mp active none
    rw [if_neg idle, if_pos none, Nat.add_zero, BitVec.ofNat_add]
    rfl
  · rw [if_pos (inv.activated_iff.mpr none), if_neg none]

theorem series_send (past : List (Tick w)) (high : i.nresetTrigger = true)
    (on : s.triggerNow i = true) :
    (series (past ++ [⟨s, i⟩]) (posedge true s i)).length =
      (series past s).length + if s.seriesEnds i then 1 else 0 := by
  rw [series, presented_send past high on, frames_snoc]
  cases s.seriesEnds i <;> simp [series]

theorem seriesInv_send (inv : SeriesInv limiter past s) (steady : Steady limiter past ⟨s, i⟩)
    (on : s.triggerNow i = true) : SeriesInv limiter (past ++ [⟨s, i⟩]) (posedge true s i) := by
  obtain ⟨-, valid, sent, -⟩ := posedge_send steady.1 on
  refine ⟨cut_send inv.toCut steady on, fun _ _ => valid, inv.tags_send steady.1 on,
    (held_snoc _ _ _).mpr ⟨inv.starts, inv.starts_send on⟩, ?_, ?_⟩
  · rw [inv.triggers_send steady.1 on, series_send past steady.1 on,
      running_send past steady.1 on]
    cases s.seriesEnds i <;> simp
  · rw [sent, inv.sent, presented_send past steady.1 on, List.length_append, BitVec.ofNat_add]
    rfl

theorem run_seriesInv (run : (circuit w).Run past s) (steady : Held (Steady limiter) past) :
    SeriesInv limiter past s := by
  refine run.invariant (fun _ reset => seriesInv_reset reset) ?_ steady
  intro past s i _ inv steady
  cases on : s.triggerNow i with
  | true => exact seriesInv_send inv steady on
  | false => exact seriesInv_idle inv steady.1 on

theorem SeriesInv.framed (inv : SeriesInv limiter past s) : SeriesFramed limiter past s := by
  have active : s.triggerActivated = true ↔ s.curLimiter ≠ 0 := by
    rw [inv.activated_iff, ← List.length_pos_iff, ← inv.counts, Nat.pos_iff_ne_zero, not_iff_not,
      ← BitVec.toNat_inj]
    rfl
  exact ⟨inv.uniform.full, inv.uniform.short, inv.unbroken, inv.marked, inv.tags, inv.starts,
    inv.triggers, inv.sent, active⟩

/-- Every stream is cut into series of exactly `limiter_val` words. -/
theorem run_seriesFramed (run : (circuit w).Run past s) (steady : Held (Steady limiter) past) :
    SeriesFramed limiter past s :=
  (run_seriesInv run steady).framed

theorem run_seriesFramed_pairs :
    SeriesFramed 1 ((circuit 14).trace fresh (List.replicate 7 (quiet 1)))
      ((circuit 14).after fresh (List.replicate 7 (quiet 1))) ∧
    (series ((circuit 14).trace fresh (List.replicate 7 (quiet 1)))
      ((circuit 14).after fresh (List.replicate 7 (quiet 1)))).length = 3 :=
  ⟨run_seriesFramed (run_trace fresh_reset _) (by decide +kernel), by decide +kernel⟩

def tag (word : Bool × BitVec 32) : BitVec 2 := word.2.extractLsb' 30 2

theorem TagMatches.last_iff {word : Bool × BitVec 32} (tagged : TagMatches word) :
    tag word = 0b11 ↔ word.1 = true := by
  obtain ⟨last, data⟩ := word
  cases last with
  | true => exact iff_of_true tagged rfl
  | false =>
    refine iff_of_false (fun eleven => ?_) Bool.false_ne_true
    have other : tag (false, data) = 0b00 ∨ tag (false, data) = 0b10 := tagged
    rw [eleven] at other
    exact absurd other (by decide)

theorem SeriesFramed.tag_series (framed : SeriesFramed limiter past s)
    {f : List (Bool × BitVec 32)} (member : f ∈ series past s) :
    ∃ body word, f = body ++ [word] ∧ tag word = 0b11 ∧ ∀ x ∈ body, tag x ≠ 0b11 := by
  obtain ⟨body, word, rfl, closes, opens⟩ := frame_closed _ _ _ member
  have tags : ∀ x ∈ body ++ [word], TagMatches x := by
    intro x inside
    refine framed.tags x ?_
    rw [← flatten_frames Prod.fst (presented past s)]
    exact List.mem_append_left _ (List.mem_flatten.mpr ⟨_, member, inside⟩)
  refine ⟨body, word, rfl, (tags word (by simp)).last_iff.mpr closes, fun x inside eleven => ?_⟩
  have closed := (tags x (List.mem_append_left _ inside)).last_iff.mp eleven
  rw [opens x inside] at closed
  cases closed

theorem SeriesFramed.tag_running (framed : SeriesFramed limiter past s)
    {x : Bool × BitVec 32} (member : x ∈ running past s) : tag x ≠ 0b11 := by
  have inside : x ∈ presented past s := by
    rw [← flatten_frames Prod.fst (presented past s)]
    exact List.mem_append_right _ member
  intro eleven
  have closed := (framed.tags x inside).last_iff.mp eleven
  rw [rest_open _ _ x member] at closed
  cases closed

end Switcheck.Adc
