import Switcheck.Writer.BeatCounter
import Switcheck.Writer.AxisMemoryImage

/-!
# `ram_writer` against `axis_ram_writer`

On a stream without `tlast` the flush, the loaded length and the cleared counter of
`ram_writer` never show: the two writers run in lockstep, clock by clock.
-/

namespace Switcheck

open Sync Circuit

variable {W α R : Type} {p : AxisWriterParams W α R}

theorem sixteen_pos : 0 < 16 := by decide

theorem sixteen_le : 16 ≤ 16 := Nat.le_refl 16

/-- `ram_writer` with the parameters of `axis_ram_writer` and `BURST_BEATS = 16`. -/
def AxisWriterParams.ramWriter (p : AxisWriterParams W α R) : WriterParams W α R where
  addrWidth := p.addrWidth
  axiAddrWidth := p.axiAddrWidth
  axiDataWidth := p.axiDataWidth
  fifoWriteDepth := p.fifoWriteDepth
  burstBeats := 16
  packing := p.packing
  burstBeats_pos := sixteen_pos
  burstBeats_le := sixteen_le

/-- What a writer shows: the AXI master outputs, `s_axis_tready` and `sts_data`. -/
structure WriterOutputs (addrWidth axiAddrWidth axiDataWidth idWidth : Nat) (R : Type) where
  awid : BitVec idWidth
  awlen : BitVec 4
  awsize : BitVec 3
  awburst : BitVec 2
  awcache : BitVec 4
  awaddr : BitVec axiAddrWidth
  awvalid : Bool
  wid : BitVec idWidth
  wstrb : BitVec (axiDataWidth / 8)
  wlast : Bool
  wdata : R
  wvalid : Bool
  bready : Bool
  tready : Bool
  stsData : BitVec addrWidth

def RamWriter.outputs {q : WriterParams W α R} (idWidth : Nat) (s : RamWriter q) :
    WriterOutputs q.addrWidth q.axiAddrWidth q.axiDataWidth idWidth R where
  awid := 0
  awlen := s.awlenReg
  awsize := BitVec.ofNat 3 q.addrSize
  awburst := 0b01
  awcache := 0b1111
  awaddr := s.buf0.intDataReg
  awvalid := s.buf0.intValidReg
  wid := 0
  wstrb := BitVec.allOnes _
  wlast := s.buf1.intDataReg.1
  wdata := s.buf1.intDataReg.2
  wvalid := s.buf1.intValidReg
  bready := true
  tready := s.sAxisTready
  stsData := s.stsData

def AxisRamWriter.outputs (idWidth : Nat) (s : AxisRamWriter p) :
    WriterOutputs p.addrWidth p.axiAddrWidth p.axiDataWidth idWidth R where
  awid := 0
  awlen := 15
  awsize := BitVec.ofNat 3 p.addrSize
  awburst := 0b01
  awcache := 0b1111
  awaddr := s.buf0.intDataReg
  awvalid := s.buf0.intValidReg
  wid := 0
  wstrb := BitVec.allOnes _
  wlast := s.buf1.intDataReg.1
  wdata := s.buf1.intDataReg.2
  wvalid := s.buf1.intValidReg
  bready := true
  tready := s.sAxisTready
  stsData := s.stsData

/-- The outputs with the payload of a channel that is not valid left out. -/
def WriterOutputs.meaning {addrWidth axiAddrWidth axiDataWidth idWidth : Nat} {R : Type}
    (o : WriterOutputs addrWidth axiAddrWidth axiDataWidth idWidth R) :=
  ((o.awid, o.awlen, o.awsize, o.awburst, o.awcache, beat o.awvalid o.awaddr),
    (o.wid, o.wstrb, beat o.wvalid (o.wlast, o.wdata)), o.bready, o.tready, o.stsData)

namespace Lockstep

structure Pair (p : AxisWriterParams W α R) where
  ram : RamWriter p.ramWriter
  axis : AxisRamWriter p

/-- The pins of `ram_writer` on a stream without `tlast`. -/
def ramPins (i : AxisWriterPins p) : WriterPins p.ramWriter where
  minAddr := i.minAddr
  cfgData := i.cfgData
  mAxiAwready := i.mAxiAwready
  mAxiWready := i.mAxiWready
  sAxisTdata := i.sAxisTdata
  sAxisTvalid := i.sAxisTvalid
  sAxisTlast := false

def circuit (p : AxisWriterParams W α R) : Circuit (Pair p) (AxisWriterPins p) where
  Reset s := (RamWriter.circuit p.ramWriter).Reset s.ram ∧ (AxisRamWriter.circuit p).Reset s.axis
  tick s i := ⟨RamWriter.posedge true s.ram (ramPins i), AxisRamWriter.posedge true s.axis i⟩

abbrev Tick (p : AxisWriterParams W α R) := Clock (Pair p) (AxisWriterPins p)

def axisClock (c : Tick p) : AxisRamWriter.Tick p := ⟨c.regs.axis, c.pins⟩

/-- The data registers of the output buffers, which reset does not set, agree. -/
def SameData (s : Pair p) : Prop := s.ram.buf0 = s.axis.buf0 ∧ s.ram.buf1 = s.axis.buf1

/-- They agree in the first clock of the run. -/
def StartsSame (past : List (Tick p)) (s : Pair p) : Prop :=
  SameData ((past.head?.map Clock.regs).getD s)

variable {past : List (Tick p)} {s : Pair p}

theorem run_axis (run : (circuit p).Run past s) :
    (AxisRamWriter.circuit p).Run (past.map axisClock) s.axis :=
  Circuit.Run.map (C := circuit p) Pair.axis (fun _ i => i) (fun _ reset => reset.2)
    (fun _ _ => rfl) run

/-- The registers of the two writers against each other. -/
structure Rel (s : Pair p) : Prop where
  awvalid : s.ram.intAwvalidReg = s.axis.intAwvalidReg
  wvalid : s.ram.intWvalidReg = s.axis.intWvalidReg
  cntr : s.ram.intCntrReg.toNat = s.axis.intCntrReg.toNat
  addr : s.ram.intAddrReg = s.axis.intAddrReg
  pending : s.ram.tlastPendingReg = false
  awlen : s.ram.awlenReg = 15
  fifo : s.ram.fifo0 = s.axis.fifo0
  aw : s.ram.buf0.held = s.axis.buf0.held
  w : s.ram.buf1.held = s.axis.buf1.held

theorem rel_reset (reset : (circuit p).Reset s) : Rel s := by
  obtain ⟨awvalid, wvalid, cntr, addr, pending, awlen, fifo, aw, w⟩ := RamWriter.reset_fields reset.1
  obtain ⟨awvalid', wvalid', cntr', addr', fifo', aw', w'⟩ := AxisRamWriter.reset_fields reset.2
  refine ⟨awvalid.trans awvalid'.symm, wvalid.trans wvalid'.symm, ?_, addr.trans addr'.symm, pending,
    awlen, fifo.trans fifo'.symm, ?_, ?_⟩
  · rw [cntr, cntr']
    simp
  · rw [aw', OutputBuffer.held, aw]
    rfl
  · rw [w', OutputBuffer.held, w]
    rfl

theorem Rel.count (rel : Rel s) : s.ram.intCountWire = s.axis.intCountWire :=
  congrArg p.packing.count rel.fifo

theorem Rel.valid (rel : Rel s) : s.ram.intValidWire = s.axis.intValidWire := by
  unfold RamWriter.intValidWire AxisRamWriter.intValidWire
  rw [rel.count, rel.pending, rel.wvalid, Bool.false_and, Bool.or_false]
  rfl

theorem Rel.awvalidWire (rel : Rel s) : s.ram.intAwvalidWire = s.axis.intAwvalidWire := by
  rw [RamWriter.intAwvalidWire, rel.valid, rel.awvalid, AxisRamWriter.intAwvalidWire]

theorem Rel.wvalidWire (rel : Rel s) : s.ram.intWvalidWire = s.axis.intWvalidWire := by
  rw [RamWriter.intWvalidWire, rel.valid, rel.wvalid, AxisRamWriter.intWvalidWire]

theorem Rel.awready (rel : Rel s) (i : AxisWriterPins p) :
    s.ram.intAwreadyWire (ramPins i) = s.axis.intAwreadyWire i := by
  unfold RamWriter.intAwreadyWire AxisRamWriter.intAwreadyWire OutputBuffer.inReady
  rw [OutputBuffer.valid_of_held_eq rel.aw]
  rfl

theorem Rel.wready (rel : Rel s) (i : AxisWriterPins p) :
    s.ram.intWreadyWire (ramPins i) = s.axis.intWreadyWire i := by
  unfold RamWriter.intWreadyWire AxisRamWriter.intWreadyWire OutputBuffer.inReady
  rw [OutputBuffer.valid_of_held_eq rel.w]
  rfl

theorem Rel.fires (rel : Rel s) (i : AxisWriterPins p) :
    s.ram.awFires (ramPins i) = s.axis.awFires i := by
  rw [RamWriter.awFires, rel.awvalidWire, rel.awready, AxisRamWriter.awFires]

theorem Rel.rden (rel : Rel s) (i : AxisWriterPins p) :
    s.ram.intRdenWire (ramPins i) = s.axis.intRdenWire i := by
  rw [RamWriter.intRdenWire, rel.wvalidWire, rel.wready, AxisRamWriter.intRdenWire]

theorem Rel.wlast (rel : Rel s) : s.ram.intWlastWire = s.axis.intWlastWire := by
  rw [Bool.eq_iff_iff, AxisRamWriter.intWlastWire_iff, RamWriter.intWlastWire, rel.cntr, rel.awlen]
  exact decide_eq_true_iff

theorem Rel.awaddr (rel : Rel s) (i : AxisWriterPins p) :
    s.ram.awaddrNext (ramPins i) = s.axis.awaddrNext i := by
  unfold RamWriter.awaddrNext
  rw [rel.addr]
  rfl

theorem Rel.beatNext (rel : Rel s) : (s.ram.intWlastWire, p.ramWriter.packing.dout s.ram.fifo0) =
    (s.axis.intWlastWire, p.packing.dout s.axis.fifo0) := by
  rw [rel.wlast, rel.fifo]
  rfl

/-- While each address is handed on as its burst begins, it loads the length of a full burst and
clears a counter that is at zero. -/
theorem Rel.step (rel : Rel s) (i : AxisWriterPins p)
    (fires : s.axis.awFires i = s.axis.intValidWire)
    (zero : s.axis.intValidWire = true → s.axis.intCntrReg.toNat = 0) :
    Rel ((circuit p).tick s i) := by
  have cleared : s.ram.awFires (ramPins i) = true →
      p.ramWriter.burstBeats ≤ s.ram.intCountWire ∧ s.ram.intCntrReg.toNat = 0 := by
    intro handed
    rw [rel.fires, fires] at handed
    obtain ⟨full, -⟩ := AxisRamWriter.start_idle handed
    exact ⟨rel.count ▸ full, rel.cntr.trans (zero handed)⟩
  have width : 2 ^ p.ramWriter.cntrWidth = 16 := by
    have four : 2 ^ clog2 16 = 16 := by decide
    exact four
  refine ⟨?_, ?_, ?_, ?_, ?_, ?_, ?_, ?_, ?_⟩
  · show (RamWriter.posedge true s.ram (ramPins i)).intAwvalidReg =
      (AxisRamWriter.posedge true s.axis i).intAwvalidReg
    simp only [RamWriter.posedge_intAwvalidReg, AxisRamWriter.posedge_intAwvalidReg,
      rel.awvalidWire, rel.awready]
  · show (RamWriter.posedge true s.ram (ramPins i)).intWvalidReg =
      (AxisRamWriter.posedge true s.axis i).intWvalidReg
    simp only [RamWriter.posedge_intWvalidReg, AxisRamWriter.posedge_intWvalidReg,
      rel.wvalidWire, rel.wready, rel.wlast]
  · show (RamWriter.posedge true s.ram (ramPins i)).intCntrReg.toNat =
      (AxisRamWriter.posedge true s.axis i).intCntrReg.toNat
    rw [RamWriter.posedge_intCntrReg, AxisRamWriter.posedge_intCntrReg, rel.rden]
    split
    · rw [BitVec.toNat_add, BitVec.toNat_add, rel.cntr, width]
      simp [width]
    · split
      · rename_i handed
        rw [← rel.cntr, (cleared handed).2]
        exact BitVec.toNat_ofNat ..
      · exact rel.cntr
  · show (RamWriter.posedge true s.ram (ramPins i)).intAddrReg =
      (AxisRamWriter.posedge true s.axis i).intAddrReg
    rw [RamWriter.posedge_intAddrReg, AxisRamWriter.posedge_intAddrReg, rel.fires, rel.addr]
    rfl
  · show (RamWriter.posedge true s.ram (ramPins i)).tlastPendingReg = false
    rw [RamWriter.posedge_tlastPendingReg, rel.pending]
    simp [ramPins]
  · show (RamWriter.posedge true s.ram (ramPins i)).awlenReg = 15
    rw [RamWriter.posedge_awlenReg]
    split
    · rename_i handed
      apply BitVec.eq_of_toNat_eq
      rw [RamWriter.awlenNext_full (cleared handed).1]
      rfl
    · exact rel.awlen
  · show (RamWriter.posedge true s.ram (ramPins i)).fifo0 =
      (AxisRamWriter.posedge true s.axis i).fifo0
    rw [RamWriter.posedge_fifo0, AxisRamWriter.posedge_fifo0, rel.rden, rel.fifo]
    rfl
  · show (RamWriter.posedge true s.ram (ramPins i)).buf0.held =
      (AxisRamWriter.posedge true s.axis i).buf0.held
    rw [RamWriter.posedge_buf0, AxisRamWriter.posedge_buf0, rel.awaddr, rel.awvalidWire]
    exact OutputBuffer.held_posedge_congr rel.aw ..
  · show (RamWriter.posedge true s.ram (ramPins i)).buf1.held =
      (AxisRamWriter.posedge true s.axis i).buf1.held
    rw [RamWriter.posedge_buf1, AxisRamWriter.posedge_buf1, rel.beatNext, rel.wvalidWire]
    exact OutputBuffer.held_posedge_congr rel.w ..

theorem Rel.sameData_step (rel : Rel s) (i : AxisWriterPins p) (same : SameData s) :
    SameData ((circuit p).tick s i) := by
  obtain ⟨aw, w⟩ := same
  refine ⟨?_, ?_⟩
  · show (RamWriter.posedge true s.ram (ramPins i)).buf0 = (AxisRamWriter.posedge true s.axis i).buf0
    rw [RamWriter.posedge_buf0, AxisRamWriter.posedge_buf0, rel.awaddr, rel.awvalidWire, aw]
    rfl
  · show (RamWriter.posedge true s.ram (ramPins i)).buf1 = (AxisRamWriter.posedge true s.axis i).buf1
    rw [RamWriter.posedge_buf1, AxisRamWriter.posedge_buf1, rel.beatNext, rel.wvalidWire, w]
    rfl

theorem startsSame_snoc (c : Tick p) : StartsSame (past ++ [c]) s ↔ StartsSame past c.regs := by
  cases past <;> exact Iff.rfl

theorem run_rel (run : (circuit p).Run past s)
    (first : Held AxisRamWriter.AwFirst (past.map axisClock)) :
    Rel s ∧ (StartsSame past s → SameData s) := by
  induction run with
  | reset reset => exact ⟨rel_reset reset, id⟩
  | @tick past s run i ih =>
    rw [held_map_snoc] at first
    obtain ⟨rel, same⟩ := ih first.1
    have axis := run_axis run
    have bursts := AxisRamWriter.run_burstInv axis
    have served := AxisRamWriter.run_servedInv axis first.1
    refine ⟨rel.step i (served.fires axis) fun start => ?_, fun starts => ?_⟩
    · rw [bursts.counts, (bursts.of_start start).2]
    · exact rel.sameData_step i (same ((startsSame_snoc _).mp starts))

/-- The two writers show the same: where a channel is valid in any case, and everywhere if the
registers that reset does not set start the same. -/
structure Agree (idWidth : Nat) (past : List (Tick p)) (s : Pair p) : Prop where
  meaning : (s.ram.outputs idWidth).meaning = (s.axis.outputs idWidth).meaning
  pins : StartsSame past s → s.ram.outputs idWidth = s.axis.outputs idWidth

theorem Rel.tready (rel : Rel s) : s.ram.sAxisTready = s.axis.sAxisTready := by
  unfold RamWriter.sAxisTready RamWriter.intFullWire
  rw [rel.fifo]
  rfl

theorem Rel.meaning (rel : Rel s) (idWidth : Nat) :
    (s.ram.outputs idWidth).meaning = (s.axis.outputs idWidth).meaning := by
  have aw : beat s.ram.buf0.intValidReg s.ram.buf0.intDataReg =
      beat s.axis.buf0.intValidReg s.axis.buf0.intDataReg := rel.aw
  have w : beat s.ram.buf1.intValidReg s.ram.buf1.intDataReg =
      beat s.axis.buf1.intValidReg s.axis.buf1.intDataReg := rel.w
  unfold WriterOutputs.meaning RamWriter.outputs AxisRamWriter.outputs RamWriter.stsData
    AxisRamWriter.stsData
  rw [rel.awlen, aw, w, rel.tready, rel.addr]
  rfl

theorem Rel.outputs (rel : Rel s) (same : SameData s) (idWidth : Nat) :
    s.ram.outputs idWidth = s.axis.outputs idWidth := by
  obtain ⟨aw, w⟩ := same
  unfold RamWriter.outputs AxisRamWriter.outputs RamWriter.stsData AxisRamWriter.stsData
  rw [rel.awlen, aw, w, rel.tready, rel.addr]
  rfl

/-- On a stream without `tlast`, and a slave that takes each address before the data, the two
writers cannot be told apart in any clock. -/
theorem run_agree (run : (circuit p).Run past s)
    (first : Held AxisRamWriter.AwFirst (past.map axisClock)) (idWidth : Nat) :
    Agree idWidth past s ∧ Held (fun before c => Agree idWidth before c.regs) past := by
  have agree : ∀ {past : List (Tick p)} {s : Pair p}, (circuit p).Run past s →
      Held AxisRamWriter.AwFirst (past.map axisClock) → Agree idWidth past s := by
    intro past s run first
    obtain ⟨rel, same⟩ := run_rel run first
    exact ⟨rel.meaning idWidth, fun starts => rel.outputs (same starts) idWidth⟩
  refine ⟨agree run first, ?_⟩
  rw [held_map] at first
  exact run.derive (fun _ _ _ run before _ => agree run ((held_map _ _ _).mpr before)) first

def fresh : Pair AxisRamWriter.default64 where
  ram := RamWriter.posedge false
    ⟨false, false, 0, 0, false, 0, [], ⟨0, false⟩, ⟨(false, 0), false⟩⟩
    (ramPins (AxisRamWriter.pins none true true))
  axis := AxisRamWriter.fresh

theorem fresh_reset : (circuit AxisRamWriter.default64).Reset fresh :=
  ⟨⟨_, _, rfl⟩, AxisRamWriter.fresh_reset⟩

theorem run_agree_threeBursts :
    Agree 6 ((circuit AxisRamWriter.default64).trace fresh (AxisRamWriter.threeBursts true))
      ((circuit AxisRamWriter.default64).after fresh (AxisRamWriter.threeBursts true)) :=
  (run_agree (run_trace fresh_reset (AxisRamWriter.threeBursts true)) (by decide +kernel) 6).1

end Lockstep

end Switcheck
