import Switcheck.Writer.AxisPairing

/-!
# The memory image of `axis_ram_writer`

A slave that takes each address before the data of its burst never lets an address wait: each
is handed on in the clock its burst begins, and the stream lies around the ring word by word.
-/

namespace Switcheck

/-- An AXI data bus is a power of two of bytes wide. -/
def AxisWriterParams.Legal {W α R : Type} (p : AxisWriterParams W α R) : Prop :=
  ∃ k, p.axiDataWidth = 8 * 2 ^ k

theorem clog2_two_pow (k : Nat) : clog2 (2 ^ k) = k := by
  have pos := Nat.two_pow_pos k
  unfold clog2
  split
  · rename_i small
    have one : 2 ^ k = 2 ^ 0 := by omega
    exact (Nat.pow_right_injective (Nat.le_refl 2) one).symm
  · rename_i large
    obtain ⟨n, rfl⟩ : ∃ n, k = n + 1 := Nat.exists_eq_succ_of_ne_zero (by rintro rfl; simp at large)
    rw [Nat.pow_succ] at large ⊢
    have half := Nat.two_pow_pos n
    have log : (2 ^ n * 2 - 1).log2 = n := by
      rw [Nat.log2_eq_iff (by omega), Nat.pow_succ]
      omega
    rw [log]

theorem AxisWriterParams.Legal.bytes {W α R : Type} {p : AxisWriterParams W α R}
    (legal : p.Legal) : p.axiDataWidth / 8 = 2 ^ p.addrSize := by
  obtain ⟨k, width⟩ := legal
  have bytes : p.axiDataWidth / 8 = 2 ^ k := by omega
  rw [addrSize, bytes, clog2_two_pow]

namespace AxisRamWriter

open Sync Circuit

variable {W α R : Type} {p : AxisWriterParams W α R}
variable {past : List (Tick p)} {s : AxisRamWriter p} {i : AxisWriterPins p}

/-- The slave takes no beat of a burst before the address of that burst. -/
def AwFirst (before : List (Tick p)) (c : Tick p) : Prop :=
  c.regs.buf1.intValidReg = true → c.pins.mAxiWready = true →
    (frames Prod.fst (before.flatMap wBeat)).length < ((before ++ [c]).flatMap awReq).length

instance (before : List (Tick p)) (c : Tick p) : Decidable (AwFirst before c) :=
  inferInstanceAs (Decidable (_ → _ → _))

structure ServedInv (past : List (Tick p)) (s : AxisRamWriter p) : Prop where
  quiet : s.intAwvalidReg = false
  covered : (past.flatMap wBeat).length ≤ 16 * (past.flatMap awReq).length

/-- A burst that begins finds the address buffer empty: the slave has taken a beat of every
burst before it, and so every address. -/
theorem ServedInv.addressFree (run : (circuit p).Run past s) (inv : ServedInv past s)
    (idle : s.intWvalidReg = false) : s.buf0.held = [] := by
  have bursts := run_burstInv run
  have issued := run_issued run
  have taken := congrArg List.length (run_awReq run)
  have sent := congrArg List.length (run_wBeat run)
  have one := s.buf1.held_length_le
  have begun := bursts.begun
  have length := bursts.uniform.length
  have covered := inv.covered
  have none : (rest Prod.fst (past.flatMap handed)).length = 0 := bursts.idle idle
  rw [List.length_append] at taken sent
  rw [idle, Bool.toNat_false] at begun
  apply List.eq_nil_of_length_eq_zero
  omega

theorem ServedInv.fires (run : (circuit p).Run past s) (inv : ServedInv past s) :
    s.awFires i = s.intValidWire := by
  cases start : s.intValidWire with
  | false => simp [awFires, intAwvalidWire, start, inv.quiet]
  | true =>
    obtain ⟨-, idle⟩ := start_idle start
    have free : s.intAwreadyWire i = true := s.buf0.inReady_of_empty (inv.addressFree run idle)
    simp [awFires, intAwvalidWire, start, free]

theorem ServedInv.covered_step (run : (circuit p).Run past s) (inv : ServedInv past s)
    (first : AwFirst past ⟨s, i⟩) : ((past ++ [Clock.mk s i]).flatMap wBeat).length ≤
      16 * ((past ++ [Clock.mk s i]).flatMap awReq).length := by
  have sent := (run_burstInv run).uniform.mono ⟨_, run_wBeat run⟩
  have length := sent.length
  have short := sent.short
  have covered := inv.covered
  by_cases accepts : s.buf1.intValidReg = true ∧ i.mAxiWready = true
  · have announced := first accepts.1 accepts.2
    have one : wBeat ⟨s, i⟩ = [s.buf1.intDataReg] := by
      simp [wBeat, OutputBuffer.taken, accepts]
    rw [flatMap_snoc, one, List.length_append, List.length_singleton]
    omega
  · have none : wBeat ⟨s, i⟩ = [] := by
      rw [← Bool.and_eq_true, Bool.not_eq_true] at accepts
      simp [wBeat, OutputBuffer.taken, accepts]
    rw [flatMap_snoc, flatMap_snoc, none, List.append_nil, List.length_append]
    omega

theorem run_servedInv (run : (circuit p).Run past s) (first : Held AwFirst past) :
    ServedInv past s := by
  refine run.invariant ?_ ?_ first
  · intro s reset
    exact ⟨(reset_fields reset).1, Nat.zero_le _⟩
  · intro past s i run inv first
    refine ⟨?_, inv.covered_step run first⟩
    have fires := inv.fires (i := i) run
    show (posedge true s i).intAwvalidReg = false
    rw [posedge_intAwvalidReg]
    cases waits : s.intAwvalidWire with
    | false => rfl
    | true =>
      have start : s.intValidWire = true := by simpa [intAwvalidWire, inv.quiet] using waits
      rw [start, awFires, waits, Bool.true_and] at fires
      rw [fires]
      rfl

theorem run_noneWaiting (run : (circuit p).Run past s) (first : Held AwFirst past) :
    Held NoneWaiting past :=
  run.derive (fun _ _ _ run first _ _ => (run_servedInv run first).quiet) first

theorem run_issued_begun (run : (circuit p).Run past s) (first : Held AwFirst past) :
    (past.flatMap issued).length = begun past := by
  have issued := run_issued run
  rw [(run_servedInv run first).quiet, merged_eq_zero_iff.mpr (run_noneWaiting run first)] at issued
  exact issued

theorem run_quiet (run : (circuit p).Run past s)
    (ready : Held (fun _ c => c.pins.mAxiAwready = true) past) : s.intAwvalidReg = false := by
  refine run.invariant (P := fun _ s => s.intAwvalidReg = false) ?_ ?_ ready
  · intro s reset
    exact (reset_fields reset).1
  · intro past s i _ _ ready
    have taken : s.intAwreadyWire i = true := by
      rw [intAwreadyWire, OutputBuffer.inReady, ready, Bool.or_true]
    show (posedge true s i).intAwvalidReg = false
    rw [posedge_intAwvalidReg, taken, Bool.not_true, Bool.and_false]

theorem run_awFirst (run : (circuit p).Run past s)
    (ready : Held (fun _ c => c.pins.mAxiAwready = true) past) : Held AwFirst past := by
  refine run.derive ?_ ready
  intro past s i run before ready valid _
  have alone : merged past = 0 := by
    refine merged_eq_zero_iff.mpr (run.derive ?_ before)
    intro past s i run before _ _
    exact run_quiet run before
  have bursts := run_burstInv run
  have issued := run_issued run
  have requested := congrArg List.length (run_awReq run)
  have sent := congrArg List.length (run_wBeat run)
  have begun := bursts.begun
  have length := bursts.uniform.length
  have short : (rest Prod.fst (past.flatMap handed)).length < 16 := bursts.uniform.short
  have length' := (bursts.uniform.mono ⟨_, run_wBeat run⟩).length
  have idle : s.intWvalidReg = false → (rest Prod.fst (past.flatMap handed)).length = 0 := bursts.idle
  have one : s.buf1.held.length = 1 := by
    rw [OutputBuffer.held, valid]
    rfl
  have taken : awReq ⟨s, i⟩ = s.buf0.held := by
    rw [awReq, OutputBuffer.taken, ready, Bool.and_true]
    rfl
  rw [run_quiet run before, Bool.toNat_false] at issued
  rw [List.length_append] at requested sent
  rw [flatMap_snoc, taken, List.length_append]
  cases active : s.intWvalidReg with
  | false =>
    have none := idle active
    rw [active, Bool.toNat_false] at begun
    omega
  | true =>
    rw [active, Bool.toNat_true] at begun
    omega

/-- The address at which the slave writes the `k`-th beat it takes. -/
def target (past : List (Tick p)) (k : Nat) : Option (BitVec p.axiAddrWidth) :=
  let place := position Prod.fst (past.flatMap wBeat) k
  ((past.flatMap awReq)[place.1]?).map fun addr =>
    addr + BitVec.ofNat p.axiAddrWidth (p.axiDataWidth / 8 * place.2)

structure MemoryImage (minAddr : BitVec p.axiAddrWidth) (cfgData : BitVec p.addrWidth)
    (past : List (Tick p)) (s : AxisRamWriter p) : Prop where
  image : ∀ k beat, (past.flatMap wBeat)[k]? = some beat →
    (p.packing.words (past.flatMap accepted))[k]? = some beat.2 ∧
    target past k = some (minAddr +
      BitVec.ofNat p.axiAddrWidth (p.axiDataWidth / 8 * (k % (16 * (cfgData.toNat + 1)))))
  kept : (past.flatMap wBeat).map Prod.snd ++ s.buf1.held.map Prod.snd ++ p.packing.words s.fifo0 =
    p.packing.words (past.flatMap accepted)
  bursts : Uniform Prod.fst 16 (past.flatMap wBeat)
  begins : ∀ i : AxisWriterPins p, s.intWvalidReg = false → 16 ≤ (p.packing.words s.fifo0).length →
    issued ⟨s, i⟩ = [s.awaddrNext i]
  proceeds : ∀ i : AxisWriterPins p,
    s.intWvalidReg = true ∨ 16 ≤ (p.packing.words s.fifo0).length →
    s.buf1.held = [] ∨ i.mAxiWready = true →
    handed ⟨s, i⟩ = [(s.intWlastWire, p.packing.dout s.fifo0)]
  stable : ∀ i : AxisWriterPins p, s.buf0.intValidReg = true → i.mAxiAwready = false →
    (posedge true s i).buf0 = s.buf0

theorem ringAddr_add (legal : p.Legal) (minAddr : BitVec p.axiAddrWidth)
    (cfgData : BitVec p.addrWidth) (k : Nat) :
    ringAddr minAddr cfgData (k / 16) +
        BitVec.ofNat p.axiAddrWidth (p.axiDataWidth / 8 * (k % 16)) =
      minAddr +
        BitVec.ofNat p.axiAddrWidth (p.axiDataWidth / 8 * (k % (16 * (cfgData.toNat + 1)))) := by
  rw [ringAddr, BitVec.add_assoc, ← BitVec.ofNat_add, legal.bytes, Nat.mod_mul]
  congr 2
  rw [Nat.mul_add, Nat.mul_comm 16 (2 ^ p.addrSize), Nat.mul_assoc, Nat.add_comm]

theorem buf0_stable (valid : s.buf0.intValidReg = true) (stalled : i.mAxiAwready = false) :
    (posedge true s i).buf0 = s.buf0 := by
  rw [posedge_buf0, OutputBuffer.posedge, OutputBuffer.inReady, valid, stalled]
  exact congrArg (OutputBuffer.mk _) valid.symm

theorem enough_of_words (words : 16 ≤ (p.packing.words s.fifo0).length) : 15 < s.intCountWire := by
  rwa [Packing.words_length] at words

/-- Sixteen words and no burst: the next burst begins, and its address is handed on. -/
theorem ServedInv.begins (run : (circuit p).Run past s) (inv : ServedInv past s)
    (idle : s.intWvalidReg = false) (words : 16 ≤ (p.packing.words s.fifo0).length) :
    issued ⟨s, i⟩ = [s.awaddrNext i] := by
  have starts : s.intValidWire = true := by simp [intValidWire, enough_of_words words, idle]
  rw [issued, inv.fires run, starts]
  rfl

theorem handed_proceeds (active : s.intWvalidReg = true ∨ 16 ≤ (p.packing.words s.fifo0).length)
    (room : s.buf1.held = [] ∨ i.mAxiWready = true) :
    handed ⟨s, i⟩ = [(s.intWlastWire, p.packing.dout s.fifo0)] := by
  have valid : s.intWvalidWire = true := by
    cases burst : s.intWvalidReg with
    | true => simp [intWvalidWire, burst]
    | false =>
      have words := active.resolve_left (by simp [burst])
      simp [intWvalidWire, intValidWire, enough_of_words words, burst]
  have ready : s.intWreadyWire i = true := by
    rcases room with empty | ready
    · exact s.buf1.inReady_of_empty empty
    · simp [intWreadyWire, OutputBuffer.inReady, ready]
  exact handed_beat (by simp [intRdenWire, valid, ready])

/-- The `k`-th word of the stream is written once, at the `k`-th place of the ring, whatever
the stream and however long either channel is stalled; no sixteen words wait without a burst. -/
theorem run_memoryImage {minAddr : BitVec p.axiAddrWidth} {cfgData : BitVec p.addrWidth}
    (legal : p.Legal) (run : (circuit p).Run past s) (first : Held AwFirst past)
    (configured : Held (Configured minAddr cfgData) past) :
    MemoryImage minAddr cfgData past s := by
  have kept := run_wBeat_words run
  have sent := (run_burstInv run).uniform.mono ⟨_, run_wBeat run⟩
  have served := run_servedInv run first
  refine ⟨fun k beat found => ⟨?_, ?_⟩, kept, sent, fun _ => served.begins run,
    fun _ => handed_proceeds, fun _ => buf0_stable⟩
  · rw [← kept, List.append_assoc]
    refine getElem?_mono (List.prefix_append _ _) ?_
    rw [List.getElem?_map, found]
    rfl
  · have short := (List.getElem?_eq_some_iff.mp found).1
    have covered := served.covered
    have announced : k / 16 < (past.flatMap awReq).length := by omega
    have request := run_placed run configured (k / 16) _
      (getElem?_mono ⟨_, run_awReq run⟩ (List.getElem?_eq_getElem announced))
    rw [target, sent.position (Nat.le_of_lt short), List.getElem?_eq_getElem announced, request]
    exact congrArg some (ringAddr_add legal minAddr cfgData k)

theorem default64_legal : default64.Legal := ⟨3, rfl⟩

theorem run_memoryImage_threeBursts :
    MemoryImage (p := default64) 0x10000000 65535
      ((circuit default64).trace fresh (threeBursts true))
      ((circuit default64).after fresh (threeBursts true)) ∧
    (((circuit default64).trace fresh (threeBursts true)).flatMap wBeat).length = 48 :=
  ⟨run_memoryImage default64_legal (run_trace fresh_reset (threeBursts true)) (by decide +kernel)
    (by decide +kernel), by decide +kernel⟩

end AxisRamWriter

end Switcheck
