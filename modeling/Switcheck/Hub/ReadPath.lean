import Switcheck.Sync.BurstQueue
import Switcheck.Hub.WritePath

/-!
# The read path

Each read request is answered by `arlen + 1` beats, in order, each with the word of the
configuration or status register as it is in the clock in which the beat enters `buf_4`.
-/

namespace Switcheck

open Sync Circuit

/-- The region `araddr[27:24]` and the word `araddr >> 2` in it. -/
def ArReq.region (ar : ArReq) : Nat := (ar.araddr.extractLsb' 24 4).toNat

def ArReq.word (ar : ArReq) : Nat := (ar.araddr.extractLsb' 2 22).toNat

/-- Requests whose words lie in the configuration or in the status register. -/
def InBanks (p : HubParams) (ars : List ArReq) : Prop :=
  ∀ ar ∈ ars, ∀ n ≤ ar.arlen.toNat, ar.word + n < 2 ^ 22 ∧
    (ar.region = 0 ∧ ar.word + n < p.cfgSize ∨ ar.region = 1 ∧ ar.word + n < p.stsSize)

instance (p : HubParams) (ars : List ArReq) : Decidable (InBanks p ars) :=
  inferInstanceAs (Decidable (∀ ar ∈ ars, ∀ n, n ≤ ar.arlen.toNat → _))

structure RResp where
  rid : BitVec 12
  rlast : Bool
  rdata : BitVec 32
  deriving DecidableEq

namespace AxiHub

variable {p : HubParams} {past : List (Tick p)} {s : AxiHub p} {i : HubPins p}

def seen (b : RBeat) : RResp := ⟨b.rid, b.rlast, sAxiRdata b⟩

def entries (past : List (Tick p)) : List (Tick p) := past.filter fun c => c.regs.intReWire c.pins

def entered (past : List (Tick p)) : List RResp :=
  (entries past).map fun c => seen (c.regs.rBeatNext c.pins)

/-- Beat `n` of the answer to a request, from the registers of a clock. -/
def answer (c : Tick p) (ar : ArReq) (n : Nat) : RResp where
  rid := ar.arid
  rlast := decide (n = ar.arlen.toNat)
  rdata := if ar.region = 0 then wordAt c.regs.cfgData (ar.word + n)
    else wordAt c.pins.stsData (ar.word + n)

/-! ### One clock of the read path -/

theorem rQueued_eq (c : Tick p) :
    rQueued c = beat (c.regs.intReWire c.pins) (c.regs.rBeatNext c.pins) := by
  unfold rQueued OutputBuffer.put intRvalidWire intReWire intRreadyWire
  rw [Bool.and_comm]

theorem arPopped_eq (c : Tick p) : arPopped c =
    beat (c.regs.intReWire c.pins && c.regs.intRlastWire) c.regs.buf3.outData := by
  unfold arPopped InoutBuffer.taken intArreadyWire intReWire
  cases c.regs.buf3.outValid <;> simp

theorem posedge_arcntr : (posedge true s i).intArcntrReg =
    if s.intReWire i then if s.intRlastWire then 0 else s.intArcntrReg + 1
    else s.intArcntrReg := by
  unfold posedge intArcntrNext intArreadyWire intReWire
  cases s.intRreadyWire i <;> cases s.buf3.outValid <;> cases s.intRlastWire <;> simp

theorem intRlastWire_iff :
    s.intRlastWire = true ↔ s.intArcntrReg.toNat = s.buf3.outData.arlen.toNat :=
  beq_iff_eq.trans BitVec.toNat_inj.symm

/-- The beat counter reaches the length of a burst before it can wrap. -/
theorem arcntr_next (re : s.intReWire i = true)
    (within : s.intArcntrReg.toNat ≤ s.buf3.outData.arlen.toNat) :
    (posedge true s i).intArcntrReg.toNat =
      if s.intRlastWire then 0 else s.intArcntrReg.toNat + 1 := by
  have bound := s.buf3.outData.arlen.isLt
  rw [posedge_arcntr, re, if_pos rfl]
  cases last : s.intRlastWire with
  | true => rfl
  | false =>
    have differ : s.intArcntrReg.toNat ≠ s.buf3.outData.arlen.toNat := fun same =>
      Bool.eq_false_iff.mp last (intRlastWire_iff.mpr same)
    rw [if_neg Bool.false_ne_true, if_neg Bool.false_ne_true, toNat_add_one (by omega)]

theorem head?_of_outValid (valid : s.buf3.outValid = true) :
    s.buf3.held.head? = some s.buf3.outData := by
  rw [InoutBuffer.held_of_outValid valid]
  rfl

theorem head?_of_re (re : s.intReWire i = true) : s.buf3.held.head? = some s.buf3.outData := by
  unfold intReWire at re
  rw [Bool.and_eq_true] at re
  exact head?_of_outValid re.2

theorem flatMap_rQueued (past : List (Tick p)) :
    (past.flatMap rQueued).map seen = entered past := by
  induction past with
  | nil => rfl
  | cons c more ih =>
    rw [List.flatMap_cons, List.map_append, ih, rQueued_eq, entered, entered, entries, entries]
    cases re : c.regs.intReWire c.pins <;> simp [re]

theorem stsSize_le (p : HubParams) : p.stsSize ≤ 2 ^ p.stsWidth := by
  unfold HubParams.stsWidth
  split
  · exact le_two_pow_clog2 _
  · omega

theorem seen_rBeatNext {n : Nat} (counter : s.intArcntrReg.toNat = n)
    (range : s.buf3.outData.word + n < 2 ^ 22)
    (inside : s.buf3.outData.region = 0 ∧ s.buf3.outData.word + n < p.cfgSize ∨
      s.buf3.outData.region = 1 ∧ s.buf3.outData.word + n < p.stsSize) :
    seen (s.rBeatNext i) = answer ⟨s, i⟩ s.buf3.outData n := by
  have small : n < 16 := counter ▸ s.intArcntrReg.isLt
  have address : s.intRaddrWire.toNat = s.buf3.outData.word + n := by
    rw [intRaddrWire, BitVec.toNat_add, BitVec.toNat_setWidth, counter,
      Nat.mod_eq_of_lt (show n < 2 ^ 22 by omega)]
    exact Nat.mod_eq_of_lt range
  have last : s.intRlastWire = decide (n = s.buf3.outData.arlen.toNat) := by
    rw [intRlastWire, ← counter, beq_eq_decide]
    exact decide_eq_decide.mpr BitVec.toNat_inj.symm
  have data : s.intRdataMux i s.buf3.outData.region =
      (answer ⟨s, i⟩ s.buf3.outData n).rdata := by
    rcases inside with ⟨region, low⟩ | ⟨region, low⟩
    · have width := cfgSize_le p
      rw [region, intRdataMux, answer, if_pos region, BitVec.toNat_setWidth, address,
        Nat.mod_eq_of_lt (by omega)]
    · have width := stsSize_le p
      have other : ¬ s.buf3.outData.region = 0 := by omega
      rw [region, intRdataMux, answer, if_neg other, BitVec.toNat_setWidth, address,
        Nat.mod_eq_of_lt (by omega)]
  have bus : sAxiRdata (s.rBeatNext i) = (answer ⟨s, i⟩ s.buf3.outData n).rdata := by
    rw [← data, sAxiRdata, intBdataWire, ite_self]
    exact BitVec.or_zero
  rw [seen, bus, rBeatNext, last, answer]

/-! ### The bursts and their requests -/

/-- Read bursts are served for the request in front of `buf_3`. -/
def reads (p : HubParams) : BurstQueue (circuit p) ArReq RResp where
  queue s := s.buf3.held
  accepted := arAccepted
  popped := arPopped
  served c := beat (c.regs.intReWire c.pins) (seen (c.regs.rBeatNext c.pins))
  last := RResp.rlast
  empty _ reset := (reset_fields reset).2.2.2.2.2.2.1
  conserve s _ := s.buf3.taken_append_held ..
  serves c := by
    rw [arPopped_eq]
    cases re : c.regs.intReWire c.pins with
    | false => exact Or.inl ⟨rfl, rfl⟩
    | true => exact Or.inr ⟨c.regs.buf3.outData, _, head?_of_re re, rfl, rfl⟩

theorem reads_beats (past : List (Tick p)) : (reads p).beats past = entered past := by
  induction past with
  | nil => rfl
  | cons c more ih =>
    have front : (reads p).beats (c :: more) = beat (c.regs.intReWire c.pins)
        (seen (c.regs.rBeatNext c.pins)) ++ (reads p).beats more := rfl
    rw [front, ih, entered, entered, entries, entries]
    cases re : c.regs.intReWire c.pins <;> simp [re]

theorem reads_counts :
    (reads p).Counts (fun s => s.intArcntrReg.toNat) fun ar => ar.arlen.toNat where
  zero s reset := congrArg BitVec.toNat (reset_fields reset).2.1
  idle s i none := by
    have step := posedge_arcntr (s := s) (i := i)
    rw [beat_eq_nil.mp none] at step
    exact congrArg BitVec.toNat step
  ends s i ar b front issued := by
    obtain ⟨re, rfl⟩ := beat_eq_singleton.mp issued
    obtain rfl := Option.some.inj (front.symm.trans (head?_of_re re))
    exact intRlastWire_iff
  next s i ar b front issued within := by
    obtain ⟨re, rfl⟩ := beat_eq_singleton.mp issued
    obtain rfl := Option.some.inj (front.symm.trans (head?_of_re re))
    exact arcntr_next re within

/-! ### The invariant -/

structure ReadInv (past : List (Tick p)) (s : AxiHub p) : Prop where
  closed : (past.flatMap arPopped).length = (frames RResp.rlast (entered past)).length
  counter : s.intArcntrReg.toNat = (rest RResp.rlast (entered past)).length
  opened : rest RResp.rlast (entered past) ≠ [] → s.buf3.outValid = true
  within : s.buf3.outValid = true →
    (rest RResp.rlast (entered past)).length ≤ s.buf3.outData.arlen.toNat
  full : ∀ (k : Nat) (f : List RResp) (ar : ArReq), (frames RResp.rlast (entered past))[k]? = some f →
    (past.flatMap arPopped)[k]? = some ar → f.length = ar.arlen.toNat + 1
  beats : InBanks p (past.flatMap arAccepted) → ∀ (k : Nat) (c : Tick p),
    (entries past)[k]? = some c → ∃ ar,
      (past.flatMap arAccepted)[(position RResp.rlast (entered past) k).1]? = some ar ∧
      seen (c.regs.rBeatNext c.pins) =
        answer c ar (position RResp.rlast (entered past) k).2

theorem entered_length (past : List (Tick p)) : (entered past).length = (entries past).length :=
  List.length_map _

theorem request_of_valid (run : (circuit p).Run past s) (valid : s.buf3.outValid = true) :
    (past.flatMap arAccepted)[(frames RResp.rlast (entered past)).length]? =
      some s.buf3.outData := by
  have front := (reads p).run_front run (head?_of_outValid valid)
  rw [reads_beats] at front
  exact front

theorem ReadInv.beats_step (run : (circuit p).Run past s) (inv : ReadInv past s)
    (re : s.intReWire i = true) (inside : InBanks p ((past ++ [Clock.mk s i]).flatMap arAccepted))
    {k : Nat} {c : Tick p} (found : (entries past ++ [⟨s, i⟩])[k]? = some c) :
    ∃ ar, ((past ++ [Clock.mk s i]).flatMap arAccepted)[
        (position RResp.rlast (entered past ++ [seen (s.rBeatNext i)]) k).1]? = some ar ∧
      seen (c.regs.rBeatNext c.pins) =
        answer c ar (position RResp.rlast (entered past ++ [seen (s.rBeatNext i)]) k).2 := by
  have valid : s.buf3.outValid = true := by
    simp only [intReWire, Bool.and_eq_true] at re
    exact re.2
  have inside' : InBanks p (past.flatMap arAccepted) := fun ar member => inside ar (by simp [member])
  have grows : past.flatMap arAccepted <+: (past ++ [Clock.mk s i]).flatMap arAccepted := by simp
  rcases getElem?_snoc found with old | ⟨rfl, rfl⟩
  · obtain ⟨ar, request, value⟩ := inv.beats inside' k c old
    have low := (List.getElem?_eq_some_iff.mp old).1
    have same := position_mono RResp.rlast
      (List.prefix_append (entered past) [seen (s.rBeatNext i)])
      (show k ≤ (entered past).length by rw [entered_length]; omega)
    rw [← same]
    exact ⟨ar, getElem?_mono grows request, value⟩
  · have front := request_of_valid run valid
    obtain ⟨range, bank⟩ := inside' _ (List.mem_of_getElem? front) _ (inv.within valid)
    rw [← entered_length, position_next]
    exact ⟨s.buf3.outData, getElem?_mono grows front, seen_rBeatNext inv.counter range bank⟩

theorem entered_snoc (re : s.intReWire i = true) :
    entered (past ++ [⟨s, i⟩]) = entered past ++ [seen (s.rBeatNext i)] := by
  simp [entered, entries, re]

theorem ReadInv.beats_snoc (run : (circuit p).Run past s) (inv : ReadInv past s)
    (re : s.intReWire i = true) (inside : InBanks p ((past ++ [Clock.mk s i]).flatMap arAccepted))
    (k : Nat) (c : Tick p) (found : (entries (past ++ [⟨s, i⟩]))[k]? = some c) :
    ∃ ar, ((past ++ [Clock.mk s i]).flatMap arAccepted)[
        (position RResp.rlast (entered (past ++ [⟨s, i⟩])) k).1]? = some ar ∧
      seen (c.regs.rBeatNext c.pins) =
        answer c ar (position RResp.rlast (entered (past ++ [⟨s, i⟩])) k).2 := by
  have entries' : entries (past ++ [⟨s, i⟩]) = entries past ++ [⟨s, i⟩] := by simp [entries, re]
  rw [entries'] at found
  rw [entered_snoc re]
  exact inv.beats_step run re inside found

theorem ReadInv.beats_rest (inv : ReadInv past s) (re : s.intReWire i = false)
    (inside : InBanks p ((past ++ [Clock.mk s i]).flatMap arAccepted))
    (k : Nat) (c : Tick p) (found : (entries (past ++ [⟨s, i⟩]))[k]? = some c) :
    ∃ ar, ((past ++ [Clock.mk s i]).flatMap arAccepted)[
        (position RResp.rlast (entered (past ++ [⟨s, i⟩])) k).1]? = some ar ∧
      seen (c.regs.rBeatNext c.pins) =
        answer c ar (position RResp.rlast (entered (past ++ [⟨s, i⟩])) k).2 := by
  have entries' : entries (past ++ [⟨s, i⟩]) = entries past := by simp [entries, re]
  rw [entries'] at found
  rw [entered, entries']
  have inside' : InBanks p (past.flatMap arAccepted) := fun ar member => inside ar (by simp [member])
  obtain ⟨ar, request, value⟩ := inv.beats inside' k c found
  exact ⟨ar, getElem?_mono (by simp) request, value⟩

theorem readInv_of_beats (run : (circuit p).Run past s)
    (beats : InBanks p (past.flatMap arAccepted) → ∀ (k : Nat) (c : Tick p),
      (entries past)[k]? = some c → ∃ ar,
        (past.flatMap arAccepted)[(position RResp.rlast (entered past) k).1]? = some ar ∧
        seen (c.regs.rBeatNext c.pins) =
          answer c ar (position RResp.rlast (entered past) k).2) : ReadInv past s := by
  obtain ⟨-, -, settled⟩ := run_settled run
  obtain ⟨closed, opened⟩ := (reads p).run_closed run
  obtain ⟨counted, within⟩ := reads_counts.run run
  rw [reads_beats] at closed opened counted
  have counter : s.intArcntrReg.toNat = (rest RResp.rlast (entered past)).length := counted
  refine ⟨closed, counter, ?_, ?_, ?_, beats⟩
  · intro some
    obtain ⟨ar, front⟩ := opened some
    refine InoutBuffer.outValid_of_held settled fun none => ?_
    have front' : s.buf3.held.head? = Option.some ar := front
    simp [none] at front'
  · intro valid
    rw [← counter]
    exact within _ (head?_of_outValid valid)
  · intro k f ar found request
    rw [← reads_beats] at found
    exact reads_counts.full run found (getElem?_mono ⟨_, run_ar run⟩ request)

theorem run_readInv (run : (circuit p).Run past s) : ReadInv past s := by
  induction run with
  | reset reset =>
    refine readInv_of_beats (.reset reset) ?_
    rintro - k c ⟨⟩
  | @tick past s run i inv =>
    refine readInv_of_beats (run.tick i) fun inside => ?_
    cases re : s.intReWire i with
    | false => exact inv.beats_rest re inside
    | true => exact inv.beats_snoc run re inside

/-! ### Every read is served once -/

def readSide (s : AxiHub p) : BitVec 4 × InoutBuffer ArReq × OutputBuffer RBeat :=
  (s.intArcntrReg, s.buf3, s.buf4)

def readPins (i : HubPins p) : ArReq × Bool × Bool × (Fin p.stsSize → BitVec 32) :=
  (i.sAxiAr, i.sAxiArvalid, i.sAxiRready, i.stsData)

structure ReadsServed (past : List (Tick p)) (s : AxiHub p) : Prop where
  delivered : (past.flatMap rAccepted).map seen ++ s.buf4.held.map seen = entered past
  count : (frames RResp.rlast (entered past)).length + s.buf3.held.length =
    (past.flatMap arAccepted).length
  full : ∀ (k : Nat) (f : List RResp) (ar : ArReq), (frames RResp.rlast (entered past))[k]? = some f →
    (past.flatMap arAccepted)[k]? = some ar → f.length = ar.arlen.toNat + 1
  short : rest RResp.rlast (entered past) ≠ [] → ∃ ar : ArReq,
    (past.flatMap arAccepted)[(frames RResp.rlast (entered past)).length]? = some ar ∧
      (rest RResp.rlast (entered past)).length ≤ ar.arlen.toNat
  beats : ∀ (k : Nat) (c : Tick p), (entries past)[k]? = some c → ∃ ar : ArReq,
    (past.flatMap arAccepted)[(position RResp.rlast (entered past) k).1]? = some ar ∧
      (entered past)[k]? = some (answer c ar (position RResp.rlast (entered past) k).2)
  proceeds : ∀ i : HubPins p, s.buf3.held ≠ [] → s.buf4.held = [] ∨ i.sAxiRready = true →
    s.intReWire i = true
  untouched : ∀ (i : HubPins p) (j : Fin p.cfgSize), s.intCeWire i j = false →
    (posedge true s i).cfgData j = s.cfgData j
  alone : ∀ (t : AxiHub p) (i j : HubPins p), readSide t = readSide s → t.cfgData = s.cfgData →
    readPins j = readPins i → readSide (posedge true t j) = readSide (posedge true s i)

theorem intReWire_of_held (run : (circuit p).Run past s) (requests : s.buf3.held ≠ [])
    (ready : s.buf4.held = [] ∨ i.sAxiRready = true) : s.intReWire i = true := by
  obtain ⟨-, -, settled⟩ := run_settled run
  have rready : s.intRreadyWire i = true := by
    rcases ready with empty | ready
    · exact s.buf4.inReady_of_empty empty
    · simp [intRreadyWire, OutputBuffer.inReady, ready]
  simp [intReWire, rready, InoutBuffer.outValid_of_held settled requests]

/-- The read side takes nothing from the write side but the words of the register. -/
theorem readSide_posedge {t : AxiHub p} {j : HubPins p} (side : readSide t = readSide s)
    (words : t.cfgData = s.cfgData) (pins : readPins j = readPins i) :
    readSide (posedge true t j) = readSide (posedge true s i) := by
  simp only [readSide, readPins, Prod.mk.injEq] at side pins
  obtain ⟨counter, buf3, buf4⟩ := side
  obtain ⟨ar, arvalid, rready, sts⟩ := pins
  have last : t.intRlastWire = s.intRlastWire := by rw [intRlastWire, counter, buf3, intRlastWire]
  have ready : t.intRreadyWire j = s.intRreadyWire i := by
    rw [intRreadyWire, buf4, rready, intRreadyWire]
  have re : t.intReWire j = s.intReWire i := by rw [intReWire, ready, buf3, intReWire]
  have arready : t.intArreadyWire j = s.intArreadyWire i := by
    rw [intArreadyWire, ready, last, intArreadyWire]
  have address : t.intRaddrWire = s.intRaddrWire := by
    rw [intRaddrWire, buf3, counter, intRaddrWire]
  have data (region : Nat) : t.intRdataMux j region = s.intRdataMux i region := by
    unfold intRdataMux
    rw [words, sts, address]
  have beat : t.rBeatNext j = s.rBeatNext i := by
    simp only [rBeatNext, intRselWire, re, buf3, last, data]
  simp only [readSide, posedge, intArcntrNext, last, re, arready, counter, buf3, buf4, ar, arvalid,
    rready, beat, intRvalidWire]

/-- Read requests inside the registers are answered in order, beat by beat, with the words of
the clock in which each beat enters the output buffer, whatever is written meanwhile. -/
theorem run_readsServed (run : (circuit p).Run past s)
    (inside : InBanks p (past.flatMap arAccepted)) : ReadsServed past s := by
  have inv := run_readInv run
  have ars := run_ar run
  refine ⟨?_, ?_, ?_, ?_, ?_, fun _ => intReWire_of_held run, ?_, fun _ _ _ => readSide_posedge⟩
  · rw [← List.map_append, run_r run, flatMap_rQueued]
  · rw [← ars, List.length_append, inv.closed]
  · intro k f ar found request
    have low := (List.getElem?_eq_some_iff.mp found).1
    have closed := inv.closed
    rw [← ars, List.getElem?_append_left (by omega)] at request
    exact inv.full k f ar found request
  · intro some
    have valid := inv.opened some
    exact ⟨s.buf3.outData, request_of_valid run valid, inv.within valid⟩
  · intro k c found
    obtain ⟨ar, request, value⟩ := inv.beats inside k c found
    refine ⟨ar, request, ?_⟩
    rw [← value, entered, List.getElem?_map, found]
    rfl
  · intro i j idle
    rw [posedge_cfgData, idle]
    rfl

def readsAndWrite : List (HubPins deployed) :=
  [{ quiet with sAxiAr := ⟨5, 1, 0x1000008⟩, sAxiArvalid := true, sAxiRready := false },
    { quiet with
        sAxiAr := ⟨6, 0, 4⟩, sAxiArvalid := true, sAxiRready := false,
        sAxiAw := ⟨1, 4⟩, sAxiAwvalid := true, sAxiW := ⟨15, true, 77⟩, sAxiWvalid := true },
    { quiet with sAxiRready := false }, { quiet with sAxiRready := false }, quiet, quiet, quiet, quiet]

theorem run_readsServed_readsAndWrite :
    ReadsServed ((circuit deployed).trace fresh readsAndWrite)
      ((circuit deployed).after fresh readsAndWrite) ∧
    (((circuit deployed).trace fresh readsAndWrite).flatMap rAccepted).map seen =
      [⟨5, false, 2⟩, ⟨5, true, 3⟩, ⟨6, true, 77⟩] :=
  ⟨run_readsServed (run_trace fresh_reset readsAndWrite) (by decide +kernel), by decide +kernel⟩

end AxiHub

end Switcheck
