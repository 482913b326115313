import Switcheck.Sync.Framing
import Switcheck.Writer.AxisRamWriter

/-!
# Bursts of `axis_ram_writer`

What holds for every slave, one that takes data before the address included: sixteen beats a
burst, each a word the FIFO held. An address that finds `buf_0` full waits in one bit.
-/

namespace Switcheck.AxisRamWriter

open Sync Circuit

variable {W α R : Type} {p : AxisWriterParams W α R}
variable {past : List (Tick p)} {s : AxisRamWriter p} {i : AxisWriterPins p}

/-- Beats of the current burst handed on so far. -/
def inBurst (past : List (Tick p)) : Nat := (rest Prod.fst (past.flatMap handed)).length

/-- Bursts of sixteen beats, counted by `int_cntr_reg`; an active one finds its words. -/
structure BurstInv (past : List (Tick p)) (s : AxisRamWriter p) : Prop where
  uniform : Uniform Prod.fst 16 (past.flatMap handed)
  counts : s.intCntrReg.toNat = inBurst past
  idle : s.intWvalidReg = false → inBurst past = 0
  begun : begun past = (frames Prod.fst (past.flatMap handed)).length + s.intWvalidReg.toNat
  stock : s.intWvalidReg = true → 16 ≤ inBurst past + s.intCountWire

theorem handed_beat (read : s.intRdenWire i = true) :
    handed ⟨s, i⟩ = [(s.intWlastWire, p.packing.dout s.fifo0)] := by
  simp [handed, read]

theorem inBurst_snoc (past : List (Tick p)) (c : Tick p) :
    inBurst (past ++ [c]) =
      if c.regs.intRdenWire c.pins then
        if c.regs.intWlastWire then 0 else inBurst past + 1
      else inBurst past := by
  unfold inBurst
  rw [flatMap_snoc, handed]
  cases c.regs.intRdenWire c.pins with
  | false => simp
  | true =>
    rw [beat_true, rest_snoc]
    cases c.regs.intWlastWire <;> simp

theorem count_next :
    s.intCountWire ≤ (posedge true s i).intCountWire + (s.intRdenWire i).toNat := by
  simp only [intCountWire, posedge_fifo0]
  cases s.intRdenWire i with
  | false => exact p.packing.count_le_next
  | true => exact p.packing.count_le_next_succ

theorem burstInv_reset (reset : (circuit p).Reset s) : BurstInv [] s := by
  obtain ⟨-, wvalid, cntr, -⟩ := reset_fields reset
  refine ⟨uniform_nil (by decide), ?_, fun _ => rfl, ?_, fun busy => ?_⟩
  · rw [cntr]
    rfl
  · rw [wvalid]
    rfl
  · rw [wvalid] at busy
    cases busy

theorem BurstInv.of_start (inv : BurstInv past s) (start : s.intValidWire = true) :
    s.intWvalidReg = false ∧ inBurst past = 0 := by
  obtain ⟨-, idle⟩ := start_idle start
  exact ⟨idle, inv.idle idle⟩

theorem BurstInv.stock_wire (inv : BurstInv past s) (active : s.intWvalidWire = true) :
    16 ≤ inBurst past + s.intCountWire := by
  cases busy : s.intWvalidReg with
  | true => exact inv.stock busy
  | false =>
    have start : s.intValidWire = true := by simpa [intWvalidWire, busy] using active
    obtain ⟨full, -⟩ := start_idle start
    omega

theorem BurstInv.begun_wire (inv : BurstInv past s) :
    AxisRamWriter.begun (past ++ [⟨s, i⟩]) =
      (frames Prod.fst (past.flatMap handed)).length + s.intWvalidWire.toNat := by
  rw [begun_snoc, inv.begun]
  cases start : s.intValidWire with
  | false => simp [intWvalidWire, start]
  | true =>
    obtain ⟨idle, -⟩ := inv.of_start start
    simp [intWvalidWire, start, idle]

theorem BurstInv.step_still (inv : BurstInv past s) (read : s.intRdenWire i = false) :
    BurstInv (past ++ [⟨s, i⟩]) (posedge true s i) := by
  have none : handed ⟨s, i⟩ = [] := by simp [handed, read]
  have handed' := flatMap_snoc handed past ⟨s, i⟩
  rw [none, List.append_nil] at handed'
  have same : inBurst (past ++ [⟨s, i⟩]) = inBurst past := by rw [inBurst, handed', inBurst]
  have wvalid : (posedge true s i).intWvalidReg = s.intWvalidWire := by
    cases active : s.intWvalidWire with
    | false => simp [active]
    | true =>
      have stalled : s.intWreadyWire i = false := by simpa [intRdenWire, active] using read
      simp [active, stalled]
  have count := count_next (s := s) (i := i)
  rw [read, Bool.toNat_false] at count
  refine ⟨?_, ?_, ?_, ?_, ?_⟩
  · rw [handed']
    exact inv.uniform
  · rw [same, posedge_intCntrReg, read, if_neg Bool.false_ne_true]
    exact inv.counts
  · intro idle
    rw [wvalid, intWvalidWire, Bool.or_eq_false_iff] at idle
    rw [same]
    exact inv.idle idle.2
  · rw [inv.begun_wire, handed', wvalid]
  · intro active
    rw [wvalid] at active
    have stock := inv.stock_wire active
    rw [same]
    omega

theorem BurstInv.step_open (inv : BurstInv past s) (read : s.intRdenWire i = true)
    (last : s.intWlastWire = false) : BurstInv (past ++ [⟨s, i⟩]) (posedge true s i) := by
  obtain ⟨active, -⟩ := rden_wvalid read
  have counts := inv.counts
  have bound := s.intCntrReg.isLt
  have stock := inv.stock_wire active
  have handed' := flatMap_snoc handed past ⟨s, i⟩
  rw [handed_beat read, last] at handed'
  have wvalid : (posedge true s i).intWvalidReg = true := by simp [active, last]
  have differ : s.intCntrReg.toNat ≠ 15 := by
    rw [Ne, ← intWlastWire_iff, last]
    exact Bool.false_ne_true
  have grown : inBurst (past ++ [⟨s, i⟩]) = inBurst past + 1 := by
    rw [inBurst_snoc]
    simp [read, last]
  have count := count_next (s := s) (i := i)
  rw [read, Bool.toNat_true] at count
  refine ⟨?_, ?_, ?_, ?_, fun _ => ?_⟩
  · rw [handed']
    refine inv.uniform.snoc_open rfl ?_
    show inBurst past + 1 < 16
    omega
  · rw [posedge_intCntrReg, read, if_pos rfl, toNat_add_one (by omega), grown, counts]
  · rw [wvalid]
    intro busy
    cases busy
  · rw [inv.begun_wire, handed', frames_snoc, if_neg Bool.false_ne_true, wvalid, active]
  · rw [grown]
    omega

theorem BurstInv.step_last (inv : BurstInv past s) (read : s.intRdenWire i = true)
    (last : s.intWlastWire = true) : BurstInv (past ++ [⟨s, i⟩]) (posedge true s i) := by
  obtain ⟨active, ready⟩ := rden_wvalid read
  have handed' := flatMap_snoc handed past ⟨s, i⟩
  rw [handed_beat read, last] at handed'
  have wvalid : (posedge true s i).intWvalidReg = false := by simp [active, ready, last]
  have top : s.intCntrReg.toNat = 15 := (intWlastWire_iff s).mp last
  have fills : inBurst past = 15 := inv.counts ▸ top
  have closed : inBurst (past ++ [⟨s, i⟩]) = 0 := by
    rw [inBurst_snoc]
    simp [read, last]
  refine ⟨?_, ?_, fun _ => closed, ?_, fun busy => ?_⟩
  · rw [handed']
    exact inv.uniform.snoc_close rfl (congrArg (· + 1) fills)
  · have wraps : s.intCntrReg + 1 = 0 := by
      apply BitVec.eq_of_toNat_eq
      simp [BitVec.toNat_add, top]
    rw [posedge_intCntrReg, read, if_pos rfl, wraps, closed]
    rfl
  · rw [inv.begun_wire, handed', frames_snoc, if_pos rfl, wvalid, active]
    simp
  · rw [wvalid] at busy
    cases busy

theorem run_burstInv (run : (circuit p).Run past s) : BurstInv past s := by
  induction run with
  | reset reset => exact burstInv_reset reset
  | @tick past s run i inv =>
    cases read : s.intRdenWire i with
    | false => exact inv.step_still read
    | true =>
      cases last : s.intWlastWire with
      | false => exact inv.step_open read last
      | true => exact inv.step_last read last

/-! ### The words of the beats -/

theorem BurstInv.complete (inv : BurstInv past s) (read : s.intRdenWire i = true) :
    0 < p.packing.count s.fifo0 := by
  obtain ⟨active, -⟩ := rden_wvalid read
  have stock := inv.stock_wire active
  have short : inBurst past < 16 := inv.uniform.short
  show 0 < s.intCountWire
  omega

theorem run_handed_words (run : (circuit p).Run past s) :
    p.packing.rdLanes ∣ (past.flatMap read).length ∧
    (past.flatMap handed).map Prod.snd = p.packing.words (past.flatMap read) := by
  induction run with
  | reset => exact ⟨Nat.dvd_zero _, by simp⟩
  | @tick past s run i ih =>
    obtain ⟨whole, same⟩ := ih
    have complete : s.intRdenWire i = true → 0 < p.packing.count s.fifo0 :=
      (run_burstInv run).complete
    obtain ⟨whole', words⟩ := p.packing.words_append_popped whole complete
    simp only [flatMap_snoc, List.map_append, same]
    refine ⟨whole', ?_⟩
    rw [read, words, handed, map_beat]
    rfl

theorem run_wBeat_words (run : (circuit p).Run past s) :
    (past.flatMap wBeat).map Prod.snd ++ s.buf1.held.map Prod.snd ++ p.packing.words s.fifo0 =
      p.packing.words (past.flatMap accepted) := by
  obtain ⟨whole, same⟩ := run_handed_words run
  rw [← List.map_append, run_wBeat run, same, ← p.packing.words_append _ whole, run_fifo run]

/-! ### The address counter -/

def Configured (minAddr : BitVec p.axiAddrWidth) (cfgData : BitVec p.addrWidth)
    (_ : List (Tick p)) (c : Tick p) : Prop :=
  c.pins.minAddr = minAddr ∧ c.pins.cfgData = cfgData

instance {minAddr : BitVec p.axiAddrWidth} {cfgData : BitVec p.addrWidth} (before : List (Tick p))
    (c : Tick p) : Decidable (Configured minAddr cfgData before c) :=
  @instDecidableAnd _ _ (BitVec.decEq c.pins.minAddr minAddr) (BitVec.decEq c.pins.cfgData cfgData)

theorem issued_length (past : List (Tick p)) (c : Tick p) :
    ((past ++ [c]).flatMap issued).length =
      (past.flatMap issued).length + (c.regs.awFires c.pins).toNat := by
  rw [flatMap_snoc, List.length_append, issued, beat_length]

theorem run_turn {cfgData : BitVec p.addrWidth} (run : (circuit p).Run past s)
    (constant : Held (fun _ c => c.pins.cfgData = cfgData) past) :
    s.intAddrReg.toNat = (past.flatMap issued).length % (cfgData.toNat + 1) := by
  refine run.invariant (P := fun past s =>
    s.intAddrReg.toNat = (past.flatMap issued).length % (cfgData.toNat + 1)) ?_ ?_ constant
  · intro s reset
    obtain ⟨-, -, -, addr, -⟩ := reset_fields reset
    rw [addr]
    exact (Nat.zero_mod _).symm
  · intro past s i _ turn same
    have same' : i.cfgData = cfgData := same
    show (posedge true s i).intAddrReg.toNat = _
    rw [posedge_intAddrReg, issued_length, same']
    cases s.awFires i with
    | false => exact turn
    | true => exact toNat_ringNext turn

/-- The address of the `n`-th burst: bursts of sixteen memory words, around the ring. -/
def ringAddr (minAddr : BitVec p.axiAddrWidth) (cfgData : BitVec p.addrWidth) (n : Nat) :
    BitVec p.axiAddrWidth :=
  minAddr + BitVec.ofNat p.axiAddrWidth (16 * 2 ^ p.addrSize * (n % (cfgData.toNat + 1)))

theorem awaddrNext_eq {minAddr : BitVec p.axiAddrWidth} (same : i.minAddr = minAddr) :
    s.awaddrNext i =
      minAddr + BitVec.ofNat p.axiAddrWidth (16 * 2 ^ p.addrSize * s.intAddrReg.toNat) := by
  rw [awaddrNext, same, setWidth_burst]

theorem run_placed {minAddr : BitVec p.axiAddrWidth} {cfgData : BitVec p.addrWidth}
    (run : (circuit p).Run past s) (configured : Held (Configured minAddr cfgData) past)
    (n : Nat) (addr : BitVec p.axiAddrWidth) (found : (past.flatMap issued)[n]? = some addr) :
    addr = ringAddr minAddr cfgData n := by
  induction run with
  | reset => cases found
  | @tick past s run i ih =>
    obtain ⟨before, same⟩ := (held_snoc _ _ _).mp configured
    have turn := run_turn run (before.mono fun _ _ now => now.2)
    rw [flatMap_snoc, issued] at found
    cases fires : s.awFires i with
    | false =>
      rw [fires, beat_false, List.append_nil] at found
      exact ih before found
    | true =>
      rw [fires, beat_true] at found
      rcases getElem?_snoc found with old | ⟨last, rfl⟩
      · exact ih before old
      · rw [awaddrNext_eq same.1, turn, ← last]
        rfl

end Switcheck.AxisRamWriter
