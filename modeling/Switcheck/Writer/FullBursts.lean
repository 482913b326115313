import Switcheck.Writer.BurstFraming
import Switcheck.Writer.Integrity

/-!
# Full bursts

While no burst starts on a flush and the slave takes each address before the data, every burst
has sixteen beats, its address is handed on in the clock it starts, and the addresses follow
one another without gaps.
-/

namespace Switcheck.RamWriter

open Sync Circuit

/-- The slave takes no beat of a burst before the address of that burst. -/
def AwFirst {W α R : Type} {p : WriterParams W α R} (before : List (Tick p)) (c : Tick p) : Prop :=
  c.regs.buf1.intValidReg = true → c.pins.mAxiWready = true →
    (frames Prod.fst (before.flatMap wBeat)).length < ((before ++ [c]).flatMap awReq).length

instance {W α R : Type} {p : WriterParams W α R} (before : List (Tick p)) (c : Tick p) :
    Decidable (AwFirst before c) :=
  inferInstanceAs (Decidable (_ → _ → _))

variable {addrWidth depth : Nat} {minAddr : BitVec 32} {cfgData : BitVec addrWidth}
variable {past : List (Tick (writer32 addrWidth depth))} {s : RamWriter (writer32 addrWidth depth)}
variable {i : WriterPins (writer32 addrWidth depth)}

def Configured (minAddr : BitVec 32) (cfgData : BitVec addrWidth)
    (_ : List (Tick (writer32 addrWidth depth))) (c : Tick (writer32 addrWidth depth)) : Prop :=
  c.pins.minAddr = minAddr ∧ c.pins.cfgData = cfgData

instance (before : List (Tick (writer32 addrWidth depth))) (c : Tick (writer32 addrWidth depth)) :
    Decidable (Configured minAddr cfgData before c) :=
  @instDecidableAnd _ _ (BitVec.decEq c.pins.minAddr minAddr) (BitVec.decEq c.pins.cfgData cfgData)

/-- The address of the `n`-th burst, when each takes 128 bytes of the buffer. -/
def burstAddr (minAddr : BitVec 32) (cfgData : BitVec addrWidth) (n : Nat) : BitVec 32 :=
  minAddr + BitVec.ofNat 32 (128 * (n % (cfgData.toNat + 1)))

def FullService (minAddr : BitVec 32) (cfgData : BitVec addrWidth)
    (before : List (Tick (writer32 addrWidth depth))) (c : Tick (writer32 addrWidth depth)) : Prop :=
  AwFirst before c ∧ StartsFull before c ∧ Configured minAddr cfgData before c

structure Paced (past : List (Tick (writer32 addrWidth depth)))
    (s : RamWriter (writer32 addrWidth depth)) : Prop where
  uniform : Uniform Prod.fst 16 (past.flatMap handed)
  counts : s.intCntrReg.toNat = inBurst past
  idle : s.intWvalidReg = false → inBurst past = 0
  opened : (past.flatMap issued).length =
    (frames Prod.fst (past.flatMap handed)).length + s.intWvalidReg.toNat

structure FullInv (minAddr : BitVec 32) (cfgData : BitVec addrWidth)
    (past : List (Tick (writer32 addrWidth depth))) (s : RamWriter (writer32 addrWidth depth)) :
    Prop extends Paced past s where
  quiet : s.intAwvalidReg = false
  awlen : s.awlenReg.toNat = 15
  covered : (past.flatMap wBeat).length ≤ 16 * (past.flatMap awReq).length
  turn : s.intAddrReg.toNat = (past.flatMap issued).length % (cfgData.toNat + 1)
  placed : ∀ n req, (past.flatMap issued)[n]? = some req → req = (burstAddr minAddr cfgData n, 15)

theorem fullInv_reset (reset : (circuit (writer32 addrWidth depth)).Reset s) :
    FullInv minAddr cfgData [] s := by
  obtain ⟨awvalid, wvalid, cntr, addr, -, awlen, -⟩ := reset_fields reset
  refine ⟨⟨uniform_nil (by decide), ?_, fun _ => rfl, ?_⟩, awvalid, ?_, Nat.zero_le _, ?_, ?_⟩
  · rw [cntr]
    rfl
  · rw [wvalid]
    rfl
  · rw [awlen]
    rfl
  · rw [addr]
    exact (Nat.zero_mod _).symm
  · intro n req found
    cases found

theorem cntr_values (addrWidth depth : Nat) : 2 ^ (writer32 addrWidth depth).cntrWidth = 16 := by
  have four : 2 ^ clog2 16 = 16 := by decide
  exact four

theorem awaddrNext_eq (same : i.minAddr = minAddr) :
    s.awaddrNext i = minAddr + BitVec.ofNat 32 (128 * s.intAddrReg.toNat) := by
  have eight : clog2 (64 / 8) = 3 := by decide
  have size : (writer32 addrWidth depth).addrSize = 3 := eight
  rw [awaddrNext, same, setWidth_burst, size]
  rfl

/-- A burst that starts finds the address buffer empty: the slave has taken a beat of every
burst before it, and so every address. -/
theorem FullInv.addressFree (run : (circuit (writer32 addrWidth depth)).Run past s)
    (inv : FullInv minAddr cfgData past s) (idle : s.intWvalidReg = false) :
    s.buf0.intValidReg = false := by
  have taken := congrArg List.length (run_awReq run)
  have sent := congrArg List.length (run_wBeat run)
  have one := s.buf1.held_length_le
  have opened := inv.opened
  have covered := inv.covered
  have length := inv.uniform.length
  have none : (rest Prod.fst (past.flatMap handed)).length = 0 := inv.idle idle
  rw [List.length_append] at taken sent
  rw [idle, Bool.toNat_false] at opened
  have gone : (awWaiting s).length = 0 := by omega
  rw [awWaiting, beat_length] at gone
  simpa using gone

theorem FullInv.fires (run : (circuit (writer32 addrWidth depth)).Run past s)
    (inv : FullInv minAddr cfgData past s) : s.awFires i = s.intValidWire := by
  have quiet := inv.quiet
  cases start : s.intValidWire with
  | false => simp [awFires, intAwvalidWire, start, quiet]
  | true =>
    have idle : s.intWvalidReg = false := by
      simp only [intValidWire, Bool.and_eq_true, Bool.not_eq_true'] at start
      exact start.2
    have free := inv.addressFree run idle
    simp [awFires, intAwvalidWire, start, intAwreadyWire, OutputBuffer.inReady, free]

theorem Paced.inBurst_of_start (paced : Paced past s) (start : s.intValidWire = true) :
    s.intWvalidReg = false ∧ inBurst past = 0 := by
  simp only [intValidWire, Bool.and_eq_true, Bool.not_eq_true'] at start
  exact ⟨start.2, paced.idle start.2⟩

theorem issued_length (past : List (Tick (writer32 addrWidth depth)))
    (fires : s.awFires i = s.intValidWire) :
    ((past ++ [Clock.mk s i]).flatMap issued).length =
      (past.flatMap issued).length + s.intValidWire.toNat := by
  rw [issued_snoc_length, fires]

theorem handed_beat (read : s.intRdenWire i = true) :
    handed ⟨s, i⟩ = [(s.intWlastWire, (writer32 addrWidth depth).packing.dout s.fifo0)] := by
  simp [handed, read]

theorem Paced.step_still (paced : Paced past s) (fires : s.awFires i = s.intValidWire)
    (read : s.intRdenWire i = false) : Paced (past ++ [⟨s, i⟩]) (posedge true s i) := by
  have none : handed ⟨s, i⟩ = [] := by simp [handed, read]
  have handed' := flatMap_snoc handed past ⟨s, i⟩
  rw [none, List.append_nil] at handed'
  have same : inBurst (past ++ [⟨s, i⟩]) = inBurst past := by rw [inBurst, handed', inBurst]
  have wvalid : (posedge true s i).intWvalidReg = s.intWvalidWire := by
    cases active : s.intWvalidWire with
    | false => simp [active]
    | true =>
      have stalled : s.intWreadyWire i = false := by simpa [intRdenWire, active] using read
      simp [active, stalled]
  refine ⟨?_, ?_, ?_, ?_⟩
  · rw [handed']
    exact paced.uniform
  · rw [same, posedge_intCntrReg, read, fires, if_neg Bool.false_ne_true]
    split
    · rename_i start
      rw [(paced.inBurst_of_start start).2]
      rfl
    · exact paced.counts
  · intro idle
    rw [wvalid, intWvalidWire, Bool.or_eq_false_iff] at idle
    rw [same]
    exact paced.idle idle.2
  · rw [issued_length past fires, handed', paced.opened, wvalid, intWvalidWire]
    cases start : s.intValidWire with
    | false => simp
    | true => simp [(paced.inBurst_of_start start).1]

theorem Paced.step_open (paced : Paced past s) (fires : s.awFires i = s.intValidWire)
    (awlen : s.awlenReg.toNat = 15) (read : s.intRdenWire i = true)
    (last : s.intWlastWire = false) : Paced (past ++ [⟨s, i⟩]) (posedge true s i) := by
  obtain ⟨active, ready⟩ := rden_wvalid read
  have counts := paced.counts
  have short := paced.uniform.short
  have handed' := flatMap_snoc handed past ⟨s, i⟩
  rw [handed_beat read, last] at handed'
  have wvalid : (posedge true s i).intWvalidReg = true := by simp [active, last]
  have differ : s.intCntrReg.toNat ≠ 15 := by
    rw [← awlen]
    simpa [intWlastWire] using last
  have room : inBurst past + 1 < 16 := by
    have : inBurst past < 16 := short
    omega
  have grown : inBurst (past ++ [⟨s, i⟩]) = inBurst past + 1 := by
    rw [inBurst_snoc]
    simp [read, last]
  refine ⟨?_, ?_, ?_, ?_⟩
  · rw [handed']
    exact paced.uniform.snoc_open rfl room
  · have width := cntr_values addrWidth depth
    have step : (s.intCntrReg + 1).toNat = s.intCntrReg.toNat + 1 := toNat_add_one (by omega)
    rw [posedge_intCntrReg, read, if_pos rfl, step, grown, counts]
  · rw [wvalid]
    intro busy
    cases busy
  · rw [issued_length past fires, handed', frames_snoc, wvalid, paced.opened]
    cases start : s.intValidWire with
    | false =>
      have busy : s.intWvalidReg = true := by simpa [intWvalidWire, start] using active
      simp [busy]
    | true => simp [(paced.inBurst_of_start start).1]

theorem Paced.step_last (paced : Paced past s) (fires : s.awFires i = s.intValidWire)
    (awlen : s.awlenReg.toNat = 15) (read : s.intRdenWire i = true)
    (last : s.intWlastWire = true) : Paced (past ++ [⟨s, i⟩]) (posedge true s i) := by
  obtain ⟨active, ready⟩ := rden_wvalid read
  have handed' := flatMap_snoc handed past ⟨s, i⟩
  rw [handed_beat read, last] at handed'
  have wvalid : (posedge true s i).intWvalidReg = false := by simp [active, ready, last]
  have top : s.intCntrReg.toNat = 15 := by
    rw [← awlen]
    simpa [intWlastWire] using last
  have fills : inBurst past = 15 := paced.counts ▸ top
  -- The sixteenth beat of a burst cannot be its first.
  have start : s.intValidWire = false := by
    by_contra start
    have none := (paced.inBurst_of_start (by simpa using start)).2
    omega
  have busy : s.intWvalidReg = true := by simpa [intWvalidWire, start] using active
  have closed : inBurst (past ++ [⟨s, i⟩]) = 0 := by
    rw [inBurst_snoc]
    simp [read, last]
  refine ⟨?_, ?_, fun _ => closed, ?_⟩
  · rw [handed']
    exact paced.uniform.snoc_close rfl (congrArg (· + 1) fills)
  · have wraps : s.intCntrReg + 1 = 0 := by
      apply BitVec.eq_of_toNat_eq
      simp [BitVec.toNat_add, top, cntr_values]
    rw [posedge_intCntrReg, read, if_pos rfl, wraps, closed]
    rfl
  · rw [issued_length past fires, handed', frames_snoc, wvalid, paced.opened, busy, start]
    simp

theorem FullInv.paced_step (inv : FullInv minAddr cfgData past s)
    (fires : s.awFires i = s.intValidWire) : Paced (past ++ [⟨s, i⟩]) (posedge true s i) := by
  cases read : s.intRdenWire i with
  | false => exact inv.step_still fires read
  | true =>
    cases last : s.intWlastWire with
    | false => exact inv.step_open fires inv.awlen read last
    | true => exact inv.step_last fires inv.awlen read last

theorem FullInv.quiet_step (inv : FullInv minAddr cfgData past s)
    (fires : s.awFires i = s.intValidWire) : (posedge true s i).intAwvalidReg = false := by
  cases start : s.intValidWire with
  | false => simp [intAwvalidWire, start, inv.quiet]
  | true =>
    have ready : s.intAwreadyWire i = true := by
      rw [start, awFires, Bool.and_eq_true] at fires
      exact fires.2
    simp [ready]

theorem FullInv.awlen_step (inv : FullInv minAddr cfgData past s)
    (fires : s.awFires i = s.intValidWire) (full : StartsFull past ⟨s, i⟩) :
    (posedge true s i).awlenReg.toNat = 15 := by
  rw [posedge_awlenReg, fires]
  split
  · rename_i start
    exact awlenNext_full (full start)
  · exact inv.awlen

theorem FullInv.covered_step (run : (circuit (writer32 addrWidth depth)).Run past s)
    (inv : FullInv minAddr cfgData past s) (first : AwFirst past ⟨s, i⟩) :
    ((past ++ [Clock.mk s i]).flatMap wBeat).length ≤ 16 * ((past ++ [Clock.mk s i]).flatMap awReq).length := by
  have sent := inv.uniform.mono ⟨_, run_wBeat run⟩
  have length := sent.length
  have short := sent.short
  have covered := inv.covered
  by_cases accepts : s.buf1.intValidReg = true ∧ i.mAxiWready = true
  · have announced := first accepts.1 accepts.2
    have one : wBeat ⟨s, i⟩ = [s.buf1.intDataReg] := by
      simp [wBeat, OutputBuffer.taken, accepts]
    rw [flatMap_snoc, one, List.length_append]
    show _ + 1 ≤ _
    omega
  · have none : wBeat ⟨s, i⟩ = [] := by
      rw [← Bool.and_eq_true, Bool.not_eq_true] at accepts
      simp [wBeat, OutputBuffer.taken, accepts]
    rw [flatMap_snoc, flatMap_snoc, none, List.append_nil, List.length_append]
    omega

theorem FullInv.turn_step (inv : FullInv minAddr cfgData past s)
    (fires : s.awFires i = s.intValidWire) (same : i.cfgData = cfgData) :
    (posedge true s i).intAddrReg.toNat =
      ((past ++ [Clock.mk s i]).flatMap issued).length % (cfgData.toNat + 1) := by
  rw [posedge_intAddrReg, issued_length past fires, fires, same]
  cases s.intValidWire with
  | false => exact inv.turn
  | true => exact toNat_ringNext inv.turn

theorem FullInv.placed_step (inv : FullInv minAddr cfgData past s)
    (fires : s.awFires i = s.intValidWire) (full : StartsFull past ⟨s, i⟩)
    (same : i.minAddr = minAddr) (n : Nat) (req : BitVec 32 × BitVec 4)
    (found : ((past ++ [Clock.mk s i]).flatMap issued)[n]? = some req) :
    req = (burstAddr minAddr cfgData n, 15) := by
  rw [flatMap_snoc] at found
  cases start : s.intValidWire with
  | false =>
    rw [issued, fires, start, beat_false, List.append_nil] at found
    exact inv.placed n req found
  | true =>
    have length : s.awlenNext = 15 := by
      apply BitVec.eq_of_toNat_eq
      rw [awlenNext_full (full start)]
      rfl
    rw [issued, fires, start] at found
    rcases getElem?_snoc found with old | ⟨last, rfl⟩
    · exact inv.placed n req old
    · rw [awaddrNext_eq same, inv.turn, ← last, length, burstAddr]
      rfl

theorem fullInv_step (run : (circuit (writer32 addrWidth depth)).Run past s)
    (inv : FullInv minAddr cfgData past s) (service : FullService minAddr cfgData past ⟨s, i⟩) :
    FullInv minAddr cfgData (past ++ [⟨s, i⟩]) (posedge true s i) := by
  obtain ⟨first, full, minAddrSame, cfgDataSame⟩ := service
  have fires := inv.fires (i := i) run
  exact ⟨inv.paced_step fires, inv.quiet_step fires, inv.awlen_step fires full,
    inv.covered_step run first, inv.turn_step fires cfgDataSame,
    inv.placed_step fires full minAddrSame⟩

theorem FullInv.inStep (run : (circuit (writer32 addrWidth depth)).Run past s)
    (inv : FullInv minAddr cfgData past s) (full : StartsFull past ⟨s, i⟩) :
    CounterInStep past ⟨s, i⟩ := by
  refine ⟨fun _ first => ?_, fun fires => ?_⟩
  · exact BitVec.eq_of_toNat_eq (inv.counts.trans first)
  · have start : s.intValidWire = true := (inv.fires run).symm.trans fires
    have none := (inv.inBurst_of_start start).2
    split
    · intro _
      rw [none, awlenNext_full (full start)]
      exact Nat.succ_pos 14
    · exact none

theorem run_fullInv (run : (circuit (writer32 addrWidth depth)).Run past s)
    (service : Held (FullService minAddr cfgData) past) :
    FullInv minAddr cfgData past s ∧ Held CounterInStep past :=
  run.entails (fun _ reset => fullInv_reset reset)
    (fun _ _ _ run inv service => inv.inStep run service.2.1)
    (fun _ _ _ run inv service _ => fullInv_step run inv service) service

theorem run_noUnderflow (run : (circuit (writer32 addrWidth depth)).Run past s)
    (service : Held (FullService minAddr cfgData) past) : Held NoUnderflow past :=
  (run_stockInv run (run_fullInv run service).2 (service.mono fun _ _ now => now.2.1)).2

/-! ### Packets of whole bursts -/

/-- A `tlast` word is accepted, and closes a whole number of bursts. -/
def ClosesBurst (before : List (Tick (writer32 addrWidth depth)))
    (c : Tick (writer32 addrWidth depth)) : Prop :=
  c.pins.sAxisTvalid = true → c.pins.sAxisTlast = true →
    c.regs.sAxisTready = true ∧ 32 ∣ ((before ++ [c]).flatMap accepted).length

/-- Words of a burst accepted for every burst started, and for one more while a flush waits. -/
structure FlushInv (past : List (Tick (writer32 addrWidth depth)))
    (s : RamWriter (writer32 addrWidth depth)) : Prop where
  ahead : 32 * (past.flatMap issued).length ≤ (past.flatMap accepted).length
  flagged : s.tlastPendingReg = true →
    32 * (past.flatMap issued).length + 32 ≤ (past.flatMap accepted).length

theorem FullInv.stored (run : (circuit (writer32 addrWidth depth)).Run past s)
    (inv : FullInv minAddr cfgData past s) (sound : Held NoUnderflow past)
    (idle : s.intWvalidReg = false) :
    32 * (past.flatMap issued).length + s.fifo0.length = (past.flatMap accepted).length := by
  obtain ⟨whole, same⟩ := run_handed_words run sound
  have beats := congrArg List.length same
  have fifo := congrArg List.length (run_fifo run)
  have none : (rest Prod.fst (past.flatMap handed)).length = 0 := inv.idle idle
  have length := inv.uniform.length
  have opened := inv.opened
  rw [List.length_map, Packing.words_length, Packing.count] at beats
  have lanes : (past.flatMap read).length / 2 * 2 = (past.flatMap read).length :=
    Nat.div_mul_cancel whole
  have pairs : (past.flatMap handed).length = (past.flatMap read).length / 2 := beats
  rw [idle, Bool.toNat_false] at opened
  rw [List.length_append] at fifo
  omega

theorem FlushInv.startsFull (run : (circuit (writer32 addrWidth depth)).Run past s)
    (inv : FlushInv past s) (full : FullInv minAddr cfgData past s)
    (sound : Held NoUnderflow past) : StartsFull past ⟨s, i⟩ := by
  intro start
  have start' : s.intValidWire = true := start
  have stored := full.stored run sound (full.inBurst_of_start start').1
  simp only [intValidWire, Bool.and_eq_true, Bool.or_eq_true, decide_eq_true_eq] at start'
  rcases start'.1 with enough | ⟨pending, -⟩
  · exact enough
  · have ahead := inv.flagged pending
    refine axis32.le_count.mpr ?_
    show 2 * 16 ≤ s.fifo0.length
    omega

theorem flushInv_step (run : (circuit (writer32 addrWidth depth)).Run past s)
    (inv : FlushInv past s) (full : FullInv minAddr cfgData past s)
    (sound : Held NoUnderflow past) (closes : ClosesBurst past ⟨s, i⟩) :
    FlushInv (past ++ [⟨s, i⟩]) (posedge true s i) := by
  have fires := full.fires (i := i) run
  have ahead := inv.ahead
  have accepted' : ((past ++ [Clock.mk s i]).flatMap accepted).length =
      (past.flatMap accepted).length + (accepted ⟨s, i⟩).length := by
    rw [flatMap_snoc, List.length_append]
  have issued' := issued_length past fires
  refine ⟨?_, fun pending => ?_⟩
  · rw [accepted', issued']
    cases start : s.intValidWire with
    | false =>
      rw [Bool.toNat_false]
      omega
    | true =>
      -- A burst that starts finds its words in the FIFO.
      have enough := axis32.le_count.mp (inv.startsFull (i := i) run full sound start)
      have stored := full.stored run sound (full.inBurst_of_start start).1
      have lanes : 2 * 16 ≤ s.fifo0.length := enough
      rw [Bool.toNat_true]
      omega
  · rw [posedge_tlastPendingReg, fires, Bool.and_eq_true, Bool.not_eq_true'] at pending
    obtain ⟨idle, flagged⟩ := pending
    rw [issued', idle, Bool.toNat_false]
    rcases Bool.or_eq_true_iff.mp flagged with arrives | waits
    · obtain ⟨valid, last⟩ := Bool.and_eq_true_iff.mp arrives
      obtain ⟨room, whole⟩ := closes valid last
      have notFull : ¬ s.intFullWire = true := by simpa [sAxisTready] using room
      have one : (accepted ⟨s, i⟩).length = 1 := by
        have word : accepted ⟨s, i⟩ = [i.sAxisTdata] := if_pos ⟨valid, notFull⟩
        rw [word]
        rfl
      rw [accepted', one] at whole ⊢
      omega
    · have := inv.flagged waits
      omega

theorem run_startsFull (run : (circuit (writer32 addrWidth depth)).Run past s)
    (first : Held AwFirst past) (configured : Held (Configured minAddr cfgData) past)
    (closes : Held ClosesBurst past) :
    FlushInv past s ∧ Held (FullService minAddr cfgData) past := by
  refine run.invariant (E := fun before c => AwFirst before c ∧ Configured minAddr cfgData before c ∧
      ClosesBurst before c)
    (P := fun past s => FlushInv past s ∧ Held (FullService minAddr cfgData) past) ?_ ?_
    (held_and.mpr ⟨first, held_and.mpr ⟨configured, closes⟩⟩)
  · intro s reset
    obtain ⟨-, -, -, -, pending, -⟩ := reset_fields reset
    refine ⟨⟨Nat.zero_le _, fun flagged => ?_⟩, held_nil _⟩
    rw [pending] at flagged
    cases flagged
  · rintro past s i run ⟨inv, service⟩ ⟨first, configured, closes⟩
    have full := (run_fullInv run service).1
    have sound := run_noUnderflow run service
    exact ⟨flushInv_step run inv full sound closes,
      (held_snoc _ _ _).mpr ⟨service, first, inv.startsFull run full sound, configured⟩⟩

/-! ### Where the words land -/

/-- The address at which the slave writes the `k`-th beat it takes. -/
def target (past : List (Tick (writer32 addrWidth depth))) (k : Nat) : Option (BitVec 32) :=
  let place := position Prod.fst (past.flatMap wBeat) k
  ((past.flatMap awReq)[place.1]?).map fun req => req.1 + BitVec.ofNat 32 (8 * place.2)

/-- The `k`-th beat carries the `k`-th word of the stream to the `k`-th place of the buffer. -/
def Contiguous (minAddr : BitVec 32) (cfgData : BitVec addrWidth)
    (past : List (Tick (writer32 addrWidth depth))) : Prop :=
  ∀ k beat, (past.flatMap wBeat)[k]? = some beat →
    (axis32.words (past.flatMap accepted))[k]? = some beat.2 ∧
    target past k = some (minAddr + BitVec.ofNat 32 (8 * (k % (16 * (cfgData.toNat + 1)))))

theorem burstAddr_add (k : Nat) :
    burstAddr minAddr cfgData (k / 16) + BitVec.ofNat 32 (8 * (k % 16)) =
      minAddr + BitVec.ofNat 32 (8 * (k % (16 * (cfgData.toNat + 1)))) := by
  rw [burstAddr, BitVec.add_assoc, ← BitVec.ofNat_add, Nat.mod_mul]
  congr 2
  omega

theorem FullInv.contiguous (run : (circuit (writer32 addrWidth depth)).Run past s)
    (inv : FullInv minAddr cfgData past s) (sound : Held NoUnderflow past) :
    Contiguous minAddr cfgData past := by
  intro k beat found
  refine ⟨?_, ?_⟩
  · refine getElem?_mono (run_wBeat_words run sound) ?_
    rw [List.getElem?_map, found]
    rfl
  · have sent := inv.uniform.mono ⟨_, run_wBeat run⟩
    have short := (List.getElem?_eq_some_iff.mp found).1
    have covered := inv.covered
    have announced : k / 16 < (past.flatMap awReq).length := by omega
    have request := inv.placed _ _
      (getElem?_mono ⟨_, run_awReq run⟩ (List.getElem?_eq_getElem announced))
    rw [target, sent.position (Nat.le_of_lt short), List.getElem?_eq_getElem announced, request]
    exact congrArg some (burstAddr_add k)

/-- With a slave that takes each address first, and no burst started on a short flush, the
words of consecutive packets lie in the buffer without gaps. -/
theorem run_contiguous (run : (circuit (writer32 addrWidth depth)).Run past s)
    (first : Held AwFirst past) (configured : Held (Configured minAddr cfgData) past)
    (full : Held StartsFull past) : Contiguous minAddr cfgData past := by
  have service : Held (FullService minAddr cfgData) past :=
    held_and.mpr ⟨first, held_and.mpr ⟨full, configured⟩⟩
  exact (run_fullInv run service).1.contiguous run (run_noUnderflow run service)

theorem run_contiguous_fullPacket :
    Contiguous (0x10000000 : BitVec 32) (65535 : BitVec 16)
      ((circuit deployed).trace fresh fullPacket) :=
  run_contiguous (run_trace fresh_reset fullPacket) (by decide +kernel) (by decide +kernel)
    (by decide +kernel)

def shortPackets : List (WriterPins deployed) :=
  [pins (some (1, false)) true true, pins (some (2, true)) true true,
    pins (some (3, false)) true true, pins (some (4, true)) true false,
    pins (some (5, false)) true false, pins (some (6, true)) true false,
    pins none true true, pins none true false, pins none true false, pins none true true,
    pins none true true]

/-- The first burst carries two words and moves the address by sixteen: the third word lands
at offset 128 and not at 16. -/
theorem shortPackets_gap :
    (circuit deployed).Run ((circuit deployed).trace fresh shortPackets)
      ((circuit deployed).after fresh shortPackets) ∧
    Held AwFirst ((circuit deployed).trace fresh shortPackets) ∧
    Held (Configured (0x10000000 : BitVec 32) (65535 : BitVec 16))
      ((circuit deployed).trace fresh shortPackets) ∧
    ¬ Contiguous (0x10000000 : BitVec 32) (65535 : BitVec 16)
      ((circuit deployed).trace fresh shortPackets) ∧
    target ((circuit deployed).trace fresh shortPackets) 2 = some 0x10000080 := by
  refine ⟨run_trace fresh_reset _, by decide +kernel, by decide +kernel, ?_, by decide +kernel⟩
  intro contiguous
  have third := (contiguous 2 (false, 0x0000000600000005) (by decide +kernel)).2
  exact absurd third (by decide +kernel)

end Switcheck.RamWriter
