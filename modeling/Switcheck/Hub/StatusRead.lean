import Switcheck.Adc.Core
import Switcheck.Hub.ReadPath
import Switcheck.Hub.Registers

/-!
# Reading a 64-bit status word

`sts_pack` drives the status register from the running `ADC`, and the hub takes each word from it
in the clock in which its beat is made. A 64-bit load is two such beats, low word first.
-/

namespace Switcheck

open Sync Circuit

structure StatusPort (w : Nat) where
  hub : AxiHub AxiHub.deployed
  adc : Adc w

/-- The status words of `hub` are not pins: `sts_pack` drives them. -/
structure StatusPins where
  hub : HubPins AxiHub.deployed
  adc : AdcPins
  adcAresetn : Bool
  rxCntr : BitVec 32

namespace StatusPort

variable {w : Nat}

def stsInputs (s : StatusPort w) (i : StatusPins) : StsInputs where
  rxCntr := i.rxCntr
  curAdcA := s.adc.aExt i.adc
  curAdcB := s.adc.bExt i.adc
  curAdc := s.adc.sumAbs.setWidth 16
  samplesCount := s.adc.sampleCounter
  adcAbsMax := s.adc.maxSumOut
  lastDetrigged := s.adc.lastDetrigged
  firstTrgged := s.adc.firstTrigged
  adcSent := s.adc.samplesSent
  triggerActivated := (BitVec.ofBool s.adc.triggerActivated).setWidth 16
  triggersCount := s.adc.triggersCount

def hubPins (s : StatusPort w) (i : StatusPins) : HubPins AxiHub.deployed :=
  { i.hub with stsData := fun j => busWord (stsPack (s.stsInputs i)) j }

def circuit (w : Nat) : Circuit (StatusPort w) StatusPins where
  Reset s := (AxiHub.circuit AxiHub.deployed).Reset s.hub ∧ (Adc.circuit w).Reset s.adc
  tick s i := ⟨AxiHub.posedge true s.hub (s.hubPins i), Adc.posedge i.adcAresetn s.adc i.adc⟩

abbrev Tick (w : Nat) := Clock (StatusPort w) StatusPins

def hubClock (c : Tick w) : AxiHub.Tick AxiHub.deployed := ⟨c.regs.hub, c.regs.hubPins c.pins⟩

variable {past before middle : List (Tick w)} {s : StatusPort w} {c : Tick w} {k : Nat}

theorem run_hub (run : (circuit w).Run past s) :
    (AxiHub.circuit AxiHub.deployed).Run (past.map hubClock) s.hub :=
  Circuit.Run.map (C := circuit w) StatusPort.hub hubPins (fun _ reset => reset.1)
    (fun _ _ => rfl) run

/-! ### The words of the counter -/

/-- The beat made in this clock answers a read of status word `k`. -/
def StatusBeat (before : List (Tick w)) (c : Tick w) (k : Nat) : Prop :=
  (hubClock c).regs.intReWire (hubClock c).pins = true ∧ ∃ ar : ArReq,
    ((before.map hubClock).flatMap AxiHub.arAccepted)[
      (frames RResp.rlast (AxiHub.entered (before.map hubClock))).length]? = some ar ∧
    ar.region = 1 ∧ ar.word + (rest RResp.rlast (AxiHub.entered (before.map hubClock))).length = k

def rdata (c : Tick w) : BitVec 32 :=
  (AxiHub.seen ((hubClock c).regs.rBeatNext (hubClock c).pins)).rdata

/-- What the reader puts together of two beats, the low word first. -/
def assembled (low high : Tick w) : BitVec 64 := rdata high ++ rdata low

theorem StatusBeat.rdata_eq (run : (circuit w).Run before c.regs) (beat : StatusBeat before c k)
    (inside : k < 20) : rdata c = busWord (stsPack (c.regs.stsInputs c.pins)) k := by
  obtain ⟨re, ar, request, region, rfl⟩ := beat
  have inv := AxiHub.run_readInv (run_hub run)
  have valid : c.regs.hub.buf3.outValid = true := by
    simp only [AxiHub.intReWire, Bool.and_eq_true] at re
    exact re.2
  have front := AxiHub.request_of_valid (run_hub run) valid
  obtain rfl : c.regs.hub.buf3.outData = ar := Option.some.inj (front.symm.trans request)
  have other : c.regs.hub.buf3.outData.region ≠ 0 := by omega
  rw [rdata]
  have value := AxiHub.seen_rBeatNext (s := c.regs.hub) (i := c.regs.hubPins c.pins) inv.counter
    (by omega) (Or.inr ⟨region, inside⟩)
  rw [hubClock, value, AxiHub.answer, if_neg other]
  exact dif_pos inside

theorem busWord_samplesCount (x : StsInputs) :
    busWord (stsPack x) 8 = x.samplesCount.extractLsb' 0 32 ∧
      busWord (stsPack x) 9 = x.samplesCount.extractLsb' 32 32 := by
  have field : (stsPack x).extractLsb' 256 64 = x.samplesCount :=
    StsField.extract_stsPack x .samplesCount
  rw [← field]
  constructor
  all_goals
    refine BitVec.eq_of_getLsbD_eq fun k low => ?_
    rw [busWord, BitVec.getLsbD_extractLsb', BitVec.getLsbD_extractLsb',
      BitVec.getLsbD_extractLsb', decide_eq_true (show _ < 64 by omega), Bool.true_and]
    congr 2
    omega

/-! ### The counter between two beats -/

def counted (middle : List (Tick w)) : Nat := middle.countP fun c => c.pins.adc.nresetTrigger

/-- The values the counter takes from a clock on are its value there and the next `counted`. -/
structure Counts (start : BitVec 64) (middle : List (Tick w)) (s : StatusPort w) : Prop where
  now : s.adc.sampleCounter = start + BitVec.ofNat 64 (counted middle)
  held : ∀ x, (∃ c ∈ middle, c.regs.adc.sampleCounter = x) ∨ s.adc.sampleCounter = x ↔
    ∃ n ≤ counted middle, x = start + BitVec.ofNat 64 n

theorem posedge_counter (s : Adc w) (i : AdcPins) : (Adc.posedge true s i).sampleCounter =
    s.sampleCounter + BitVec.ofNat 64 i.nresetTrigger.toNat := by
  cases trigger : i.nresetTrigger with
  | false => simp [Adc.posedge, trigger]
  | true => cases on : s.triggerNow i <;> simp [Adc.posedge, trigger, on]

theorem counts_start (s : StatusPort w) : Counts s.adc.sampleCounter [] s := by
  refine ⟨(BitVec.add_zero _).symm, fun x => ?_⟩
  simp [counted, eq_comm]

theorem counts_step {start : BitVec 64} {i : StatusPins} (inv : Counts start middle s)
    (running : i.adcAresetn = true) :
    Counts start (middle ++ [⟨s, i⟩]) ((circuit w).tick s i) := by
  have next : ((circuit w).tick s i).adc.sampleCounter =
      start + BitVec.ofNat 64 (counted middle + i.adc.nresetTrigger.toNat) := by
    have step := posedge_counter s.adc i.adc
    rw [inv.now, BitVec.add_assoc, ← BitVec.ofNat_add, ← running] at step
    exact step
  have count : counted (middle ++ [⟨s, i⟩]) = counted middle + i.adc.nresetTrigger.toNat :=
    countP_snoc _ middle ⟨s, i⟩
  refine ⟨count ▸ next, fun x => ?_⟩
  have old : (∃ c ∈ middle ++ [⟨s, i⟩], c.regs.adc.sampleCounter = x) ↔
      ∃ n ≤ counted middle, x = start + BitVec.ofNat 64 n := by
    rw [← inv.held x]
    simp [or_and_right, exists_or]
  rw [old, count, next]
  constructor
  · rintro (⟨n, less, rfl⟩ | rfl)
    · exact ⟨n, Nat.le_add_right_of_le less, rfl⟩
    · exact ⟨_, Nat.le_refl _, rfl⟩
  · rintro ⟨n, less, rfl⟩
    by_cases before : n ≤ counted middle
    · exact Or.inl ⟨n, before, rfl⟩
    · have bound := Bool.toNat_le i.adc.nresetTrigger
      obtain rfl : n = counted middle + i.adc.nresetTrigger.toNat := by omega
      exact Or.inr rfl

theorem run_counts (run : (circuit w).Run (before ++ c :: middle) s)
    (running : ∀ d ∈ c :: middle, d.pins.adcAresetn = true) :
    Counts c.regs.adc.sampleCounter (c :: middle) s := by
  refine run.since (P := fun middle s => (∀ d ∈ middle, d.pins.adcAresetn = true) →
    Counts c.regs.adc.sampleCounter middle s) (fun _ => counts_start _) ?_ running
  intro middle s i inv running
  exact counts_step (inv fun d member => running d (List.mem_append_left _ member))
    (running ⟨s, i⟩ (by simp))

/-! ### When the two halves belong together -/

/-- The high half of `n + d` over the low half of `n`, as a value from `n` on. -/
theorem halves_iff (n d : Nat) :
    (∃ k ≤ d, (n + d) % 2 ^ 64 / 2 ^ 32 * 2 ^ 32 + n % 2 ^ 32 = (n + k) % 2 ^ 64) ↔
      n % 2 ^ 32 ≤ (n % 2 ^ 32 + d) % 2 ^ 32 ∨ 2 ^ 64 ≤ n % 2 ^ 32 + d := by
  constructor
  · rintro ⟨k, less, same⟩
    omega
  · intro back
    refine ⟨2 ^ 32 * ((n % 2 ^ 32 + d) / 2 ^ 32 % 2 ^ 32), ?_, ?_⟩
    · omega
    · omega

theorem assembled_toNat {low high : Tick w} {x y : StsInputs} (first : rdata low = busWord (stsPack x) 8)
    (second : rdata high = busWord (stsPack y) 9) : (assembled low high).toNat =
      y.samplesCount.toNat / 2 ^ 32 * 2 ^ 32 + x.samplesCount.toNat % 2 ^ 32 := by
  have bound := y.samplesCount.isLt
  rw [assembled, first, second, (busWord_samplesCount x).1, (busWord_samplesCount y).2,
    BitVec.toNat_append, BitVec.extractLsb'_toNat, BitVec.extractLsb'_toNat, Nat.shiftRight_zero,
    Nat.shiftRight_eq_div_pow, ← Nat.shiftLeft_add_eq_or_of_lt (Nat.mod_lt _ (Nat.two_pow_pos 32)),
    Nat.shiftLeft_eq, Nat.mod_eq_of_lt (by omega)]

/-- A 64-bit load of the counter gives one of the values the counter had between its two beats
exactly when the low half has not wrapped to below its first value, or the counter has run
through all its values. -/
theorem run_assembled_iff {after : List (Tick w)} {low high : Tick w}
    (run : (circuit w).Run (before ++ low :: middle ++ high :: after) s)
    (first : StatusBeat before low 8) (second : StatusBeat (before ++ low :: middle) high 9)
    (running : ∀ d ∈ low :: middle, d.pins.adcAresetn = true) :
    (∃ d ∈ low :: middle ++ [high], assembled low high = d.regs.adc.sampleCounter) ↔
      low.regs.adc.sampleCounter.toNat % 2 ^ 32 ≤
          (low.regs.adc.sampleCounter.toNat % 2 ^ 32 + counted (low :: middle)) % 2 ^ 32 ∨
        2 ^ 64 ≤ low.regs.adc.sampleCounter.toNat % 2 ^ 32 + counted (low :: middle) := by
  have whole := run.append
  have counts := run_counts whole running
  have value := assembled_toNat (first.rdata_eq whole.append (by decide))
    (second.rdata_eq whole (by decide))
  have ends : high.regs.adc.sampleCounter.toNat =
      (low.regs.adc.sampleCounter.toNat + counted (low :: middle)) % 2 ^ 64 := by
    rw [counts.now, BitVec.toNat_add, BitVec.toNat_ofNat, Nat.add_mod_mod]
  have between : (∃ d ∈ low :: middle ++ [high], assembled low high = d.regs.adc.sampleCounter) ↔
      (∃ d ∈ low :: middle, d.regs.adc.sampleCounter = assembled low high) ∨
        high.regs.adc.sampleCounter = assembled low high := by
    constructor
    · rintro ⟨d, member, same⟩
      rcases List.mem_append.mp member with old | new
      · exact Or.inl ⟨d, old, same.symm⟩
      · rw [List.mem_singleton.mp new] at same
        exact Or.inr same.symm
    · rintro (⟨d, old, same⟩ | same)
      · exact ⟨d, List.mem_append_left _ old, same.symm⟩
      · exact ⟨high, by simp, same.symm⟩
  rw [between, counts.held, ← halves_iff, ← ends]
  refine exists_congr fun n => and_congr_right fun _ => ?_
  rw [← BitVec.toNat_inj, value, BitVec.toNat_add, BitVec.toNat_ofNat, Nat.add_mod_mod]
  rfl

/-! ### A read after any number of idle clocks -/

def idle : StatusPins := ⟨AxiHub.quiet, Adc.quiet 0, true, 0⟩

def request : StatusPins :=
  { idle with hub := { AxiHub.quiet with sAxiAr := ⟨1, 1, 0x1000020⟩, sAxiArvalid := true } }

def fresh : StatusPort 14 := ⟨AxiHub.fresh, Adc.fresh⟩

theorem fresh_reset : (circuit 14).Reset fresh := ⟨AxiHub.fresh_reset, Adc.fresh_reset⟩

/-- No read has been requested, and the counter has counted every clock. -/
structure Unread (past : List (Tick w)) (s : StatusPort w) : Prop where
  arcntr : s.hub.intArcntrReg = 0
  ready : s.hub.buf3.buf0.intReadyReg = true
  none : s.hub.buf3.buf1.intValidReg = false
  unsent : s.hub.buf4.intValidReg = false
  requests : (past.map hubClock).flatMap AxiHub.arAccepted = []
  beats : AxiHub.entered (past.map hubClock) = []
  count : s.adc.sampleCounter = BitVec.ofNat 64 past.length

theorem entered_snoc (past : List (Tick w)) (c : Tick w) :
    AxiHub.entered ((past ++ [c]).map hubClock) = AxiHub.entered (past.map hubClock) ++
      if (hubClock c).regs.intReWire (hubClock c).pins then
        [AxiHub.seen ((hubClock c).regs.rBeatNext (hubClock c).pins)] else [] := by
  rw [List.map_append, List.map_singleton, AxiHub.entered, AxiHub.entries, List.filter_append,
    List.map_append]
  cases re : (hubClock c).regs.intReWire (hubClock c).pins <;> simp [AxiHub.entered,
    AxiHub.entries, re]

theorem unread_reset (reset : (circuit w).Reset s) : Unread [] s := by
  obtain ⟨⟨s₀, i, hub⟩, ⟨t₀, j, adc⟩⟩ := reset
  rw [show s = ⟨s.hub, s.adc⟩ from rfl, hub, adc]
  exact ⟨rfl, rfl, rfl, rfl, rfl, rfl, rfl⟩

theorem Unread.still (inv : Unread past s) (i : StatusPins) :
    s.hub.intReWire (s.hubPins i) = false := by
  have quiet : s.hub.buf3.outValid = false := inv.none
  simp [AxiHub.intReWire, quiet]

theorem Unread.arcntr_next (inv : Unread past s) (i : StatusPins) :
    ((circuit w).tick s i).hub.intArcntrReg = 0 := by
  have step := AxiHub.posedge_arcntr (s := s.hub) (i := s.hubPins i)
  rw [inv.still i] at step
  exact step.trans inv.arcntr

theorem Unread.beats_next (inv : Unread past s) (i : StatusPins) :
    AxiHub.entered ((past ++ [Clock.mk s i]).map hubClock) = [] := by
  rw [entered_snoc, inv.beats, hubClock, inv.still i]
  rfl

theorem unread_idle (inv : Unread past s) : Unread (past ++ [⟨s, idle⟩]) ((circuit w).tick s idle) := by
  have quiet : s.hub.buf3.outValid = false := inv.none
  refine ⟨inv.arcntr_next idle, ?_, ?_, ?_, ?_, inv.beats_next idle, ?_⟩
  · simp [circuit, AxiHub.posedge, InoutBuffer.posedge, InputBuffer.posedge, InputBuffer.outValid,
      inv.ready, hubPins, idle, AxiHub.quiet]
  · simp [circuit, AxiHub.posedge, InoutBuffer.posedge, OutputBuffer.posedge,
      InputBuffer.outValid, OutputBuffer.inReady, inv.ready, inv.none, hubPins, idle, AxiHub.quiet]
  · simp [circuit, AxiHub.posedge, OutputBuffer.posedge, OutputBuffer.inReady, inv.unsent,
      AxiHub.intRvalidWire, quiet]
  · rw [List.map_append, List.flatMap_append, inv.requests]
    rfl
  · have step := posedge_counter s.adc idle.adc
    rw [inv.count] at step
    rw [List.length_append, BitVec.ofNat_add]
    exact step

structure Requested (past : List (Tick w)) (s : StatusPort w) : Prop where
  arcntr : s.hub.intArcntrReg = 0
  valid : s.hub.buf3.outValid = true
  data : s.hub.buf3.outData = ⟨1, 1, 0x1000020⟩
  requests : (past.map hubClock).flatMap AxiHub.arAccepted = [⟨1, 1, 0x1000020⟩]
  beats : AxiHub.entered (past.map hubClock) = []

theorem requested_of_unread (inv : Unread past s) :
    Requested (past ++ [⟨s, request⟩]) ((circuit w).tick s request) := by
  refine ⟨inv.arcntr_next request, ?_, ?_, ?_, inv.beats_next request⟩
  · simp [circuit, AxiHub.posedge, InoutBuffer.posedge, InoutBuffer.outValid, OutputBuffer.posedge,
      InputBuffer.outValid, OutputBuffer.inReady, inv.none, hubPins, request]
  · simp [circuit, AxiHub.posedge, InoutBuffer.posedge, InoutBuffer.outData, OutputBuffer.posedge,
      InputBuffer.outData, OutputBuffer.inReady, inv.ready, inv.none, hubPins, request]
  · rw [List.map_append, List.flatMap_append, inv.requests]
    simp [hubClock, AxiHub.arAccepted, InoutBuffer.put, InoutBuffer.inReady, inv.ready, hubPins,
      request]

theorem intReWire_idle (valid : s.hub.buf3.outValid = true) :
    (hubClock ⟨s, idle⟩).regs.intReWire (hubClock ⟨s, idle⟩).pins = true := by
  simp [hubClock, AxiHub.intReWire, AxiHub.intRreadyWire, OutputBuffer.inReady, valid, hubPins,
    idle, AxiHub.quiet]

/-- The clock after the request makes the beat for word 8, the next one that for word 9. -/
theorem beats_of_requested (inv : Requested past s) :
    StatusBeat past ⟨s, idle⟩ 8 ∧
      StatusBeat (past ++ [⟨s, idle⟩]) ⟨(circuit w).tick s idle, idle⟩ 9 := by
  have first := intReWire_idle inv.valid
  have more : s.hub.intRlastWire = false := by
    rw [AxiHub.intRlastWire, inv.arcntr, inv.data]
    rfl
  have held : s.hub.intArreadyWire (s.hubPins idle) = false := by simp [AxiHub.intArreadyWire, more]
  have stays := AxiHub.posedge_buf3_stalled inv.valid held
  have requests : ((past ++ [Clock.mk s idle]).map hubClock).flatMap AxiHub.arAccepted =
      [⟨1, 1, 0x1000020⟩] := by
    rw [List.map_append, List.flatMap_append, inv.requests]
    rfl
  have beats : AxiHub.entered ((past ++ [Clock.mk s idle]).map hubClock) =
      [AxiHub.seen (s.hub.rBeatNext (s.hubPins idle))] := by
    rw [entered_snoc, inv.beats, first]
    rfl
  have opened : (AxiHub.seen (s.hub.rBeatNext (s.hubPins idle))).rlast = false := more
  refine ⟨⟨first, ⟨1, 1, 0x1000020⟩, ?_, by decide, ?_⟩,
    ⟨intReWire_idle stays.1, ⟨1, 1, 0x1000020⟩, ?_, by decide, ?_⟩⟩
  · rw [inv.requests, inv.beats]
    rfl
  · rw [inv.beats]
    rfl
  · rw [requests, beats, frames, cut, List.foldl_cons, List.foldl_nil, cutStep, opened]
    rfl
  · rw [beats, rest, cut, List.foldl_cons, List.foldl_nil, cutStep, opened]
    rfl

/-! ### A carry between the beats -/

def readAt (n : Nat) : List StatusPins := List.replicate n idle ++ [request]

def lowBeat (n : Nat) : Tick 14 := ⟨(circuit 14).after fresh (readAt n), idle⟩

def highBeat (n : Nat) : Tick 14 := ⟨(circuit 14).after fresh (readAt n ++ [idle]), idle⟩

theorem unread_replicate (n : Nat) :
    Unread ((circuit 14).trace fresh (List.replicate n idle))
      ((circuit 14).after fresh (List.replicate n idle)) := by
  have quiet : Held (fun _ c => c.pins = idle) ((circuit 14).trace fresh (List.replicate n idle)) :=
    held_trace _ _ (Q := (· = idle)) fun i member => (List.mem_replicate.mp member).2
  refine (run_trace fresh_reset _).invariant (fun _ reset => unread_reset reset) ?_ quiet
  rintro past s i - inv same
  rw [show i = idle from same]
  exact unread_idle inv

theorem lowBeat_regs (n : Nat) : (lowBeat n).regs =
    (circuit 14).tick ((circuit 14).after fresh (List.replicate n idle)) request := by
  simp [lowBeat, readAt, after]

theorem highBeat_regs (n : Nat) :
    (highBeat n).regs = (circuit 14).tick (lowBeat n).regs idle := by
  simp [highBeat, lowBeat, after]

theorem readAt_beats (n : Nat) :
    StatusBeat ((circuit 14).trace fresh (readAt n)) (lowBeat n) 8 ∧
      StatusBeat ((circuit 14).trace fresh (readAt n) ++ [lowBeat n]) (highBeat n) 9 := by
  have beats := beats_of_requested (requested_of_unread (unread_replicate n))
  rw [← lowBeat_regs, ← highBeat_regs] at beats
  rw [readAt, trace_snoc]
  exact beats

theorem readAt_run (n : Nat) :
    (circuit 14).Run ((circuit 14).trace fresh (readAt n) ++ lowBeat n :: [] ++ [highBeat n])
      ((circuit 14).tick (highBeat n).regs idle) := by
  have low : (circuit 14).Run _ (lowBeat n).regs := run_trace fresh_reset (readAt n)
  have high := low.tick idle
  rw [← highBeat_regs] at high
  exact high.tick idle

theorem readAt_counter (n : Nat) :
    (lowBeat n).regs.adc.sampleCounter = BitVec.ofNat 64 (n + 1) ∧
      (highBeat n).regs.adc.sampleCounter = BitVec.ofNat 64 (n + 1 + 1) := by
  have count := (unread_replicate n).count
  rw [trace_length, List.length_replicate] at count
  have low : (lowBeat n).regs.adc.sampleCounter = BitVec.ofNat 64 (n + 1) := by
    have step := posedge_counter ((circuit 14).after fresh (List.replicate n idle)).adc request.adc
    rw [count] at step
    rw [lowBeat_regs, BitVec.ofNat_add]
    exact step
  have step := posedge_counter (lowBeat n).regs.adc idle.adc
  rw [low] at step
  refine ⟨low, ?_⟩
  rw [highBeat_regs, BitVec.ofNat_add]
  exact step

theorem readAt_assembled (n : Nat) : (assembled (lowBeat n) (highBeat n)).toNat =
    (n + 1 + 1) % 2 ^ 64 / 2 ^ 32 * 2 ^ 32 + (n + 1) % 2 ^ 64 % 2 ^ 32 := by
  have whole := (readAt_run n).append
  have value := assembled_toNat ((readAt_beats n).1.rdata_eq whole.append (by decide))
    ((readAt_beats n).2.rdata_eq whole (by decide))
  obtain ⟨low, high⟩ := readAt_counter n
  rw [value, stsInputs, stsInputs, low, high, BitVec.toNat_ofNat, BitVec.toNat_ofNat]

theorem readAt_running (n : Nat) : ∀ d ∈ lowBeat n :: [], d.pins.adcAresetn = true := by
  intro d member
  rw [List.mem_singleton.mp member]
  rfl

theorem run_assembled_iff_early :
    ∃ d ∈ lowBeat 3 :: [] ++ [highBeat 3],
      assembled (lowBeat 3) (highBeat 3) = d.regs.adc.sampleCounter := by
  refine (run_assembled_iff (readAt_run 3) (readAt_beats 3).1 (readAt_beats 3).2
    (readAt_running 3)).mpr (Or.inl ?_)
  rw [(readAt_counter 3).1]
  decide

/-- The first beat takes 0xffffffff of the counter, the second the carry: the reader has
0x1ffffffff where the counter went from 0xffffffff to 0x100000000. -/
theorem carry_tears :
    (circuit 14).Run ((circuit 14).trace fresh (readAt 0xfffffffe) ++ lowBeat 0xfffffffe :: [] ++
      [highBeat 0xfffffffe]) ((circuit 14).tick (highBeat 0xfffffffe).regs idle) ∧
    StatusBeat ((circuit 14).trace fresh (readAt 0xfffffffe)) (lowBeat 0xfffffffe) 8 ∧
    StatusBeat ((circuit 14).trace fresh (readAt 0xfffffffe) ++ [lowBeat 0xfffffffe])
      (highBeat 0xfffffffe) 9 ∧
    (∀ d ∈ lowBeat 0xfffffffe :: [], d.pins.adcAresetn = true) ∧
    (lowBeat 0xfffffffe).regs.adc.sampleCounter = 0xffffffff ∧
    (highBeat 0xfffffffe).regs.adc.sampleCounter = 0x100000000 ∧
    assembled (lowBeat 0xfffffffe) (highBeat 0xfffffffe) = 0x1ffffffff ∧
    ¬ ∃ d ∈ lowBeat 0xfffffffe :: [] ++ [highBeat 0xfffffffe],
      assembled (lowBeat 0xfffffffe) (highBeat 0xfffffffe) = d.regs.adc.sampleCounter := by
  obtain ⟨first, second⟩ := readAt_beats 0xfffffffe
  have low : (lowBeat 0xfffffffe).regs.adc.sampleCounter = 0xffffffff :=
    (readAt_counter 0xfffffffe).1
  have high : (highBeat 0xfffffffe).regs.adc.sampleCounter = 0x100000000 :=
    (readAt_counter 0xfffffffe).2
  have value : assembled (lowBeat 0xfffffffe) (highBeat 0xfffffffe) = 0x1ffffffff :=
    BitVec.eq_of_toNat_eq (readAt_assembled 0xfffffffe)
  refine ⟨readAt_run _, first, second, readAt_running _, low, high, value, ?_⟩
  rintro ⟨d, member, same⟩
  rw [value] at same
  rcases List.mem_append.mp member with old | new
  · rw [List.mem_singleton.mp old, low] at same
    exact absurd same (by decide)
  · rw [List.mem_singleton.mp new, high] at same
    exact absurd same (by decide)

end StatusPort

end Switcheck
