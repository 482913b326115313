import Switcheck.Sync.Framing
import Switcheck.Writer.RamWriter

/-!
# The address window of `ram_writer`

The requests go round a ring of bursts that starts at `min_addr`, whatever the stream and the
slave do, and a request does not change while it waits.
-/

namespace Switcheck

open Sync Circuit

/-- An AXI port of 64 bits and 32-bit addresses. -/
def memory64 {W α R : Type} (addrWidth depth burstBeats : Nat) (packing : Packing W α R)
    (pos : 0 < burstBeats) (le : burstBeats ≤ 16) : WriterParams W α R where
  addrWidth := addrWidth
  axiAddrWidth := 32
  axiDataWidth := 64
  fifoWriteDepth := depth
  burstBeats := burstBeats
  packing := packing
  burstBeats_pos := pos
  burstBeats_le := le

namespace RamWriter

variable {W α R : Type} {p : WriterParams W α R}
variable {past : List (Tick p)} {s : RamWriter p} {i : WriterPins p}

def Fixed (minAddr : BitVec p.axiAddrWidth) (cfgData : BitVec p.addrWidth) (_ : List (Tick p))
    (c : Tick p) : Prop :=
  c.pins.minAddr = minAddr ∧ c.pins.cfgData = cfgData

/-- The requests accepted so far and the one that waits. -/
def requests (past : List (Tick p)) (s : RamWriter p) : List (BitVec p.axiAddrWidth × BitVec 4) :=
  past.flatMap awReq ++ awWaiting s

/-- A burst of so many 64-bit words lies in the window of `ring + 1` bursts at `first`, and in one
page of 4 KB. -/
structure InWindow (first ring addr beats : Nat) : Prop where
  low : first ≤ addr
  high : addr + 8 * beats ≤ first + 128 * (ring + 1)
  page : (addr + 8 * beats - 1) / 4096 = addr / 4096

/-- `m_axi_awvalid` stays, and `m_axi_awaddr` and `m_axi_awlen` with it, when `m_axi_awready` was
low. -/
def AwStable (c : Tick p) (s : RamWriter p) : Prop :=
  c.regs.buf0.intValidReg = true → c.pins.mAxiAwready = false →
    s.buf0.intValidReg = true ∧ s.buf0.intDataReg = c.regs.buf0.intDataReg ∧
      s.awlenReg = c.regs.awlenReg

/-! ### The ring of addresses -/

theorem run_turn {cfgData : BitVec p.addrWidth} (run : (circuit p).Run past s)
    (constant : Held (fun _ c => c.pins.cfgData = cfgData) past) :
    s.intAddrReg.toNat = (past.flatMap issued).length % (cfgData.toNat + 1) := by
  refine run.invariant (P := fun past s =>
    s.intAddrReg.toNat = (past.flatMap issued).length % (cfgData.toNat + 1)) ?_ ?_ constant
  · intro s reset
    obtain ⟨-, -, -, addr, -⟩ := reset_fields reset
    rw [addr]
    exact (Nat.zero_mod _).symm
  · intro past s i _ turn same
    have same' : i.cfgData = cfgData := same
    show (posedge true s i).intAddrReg.toNat = _
    rw [posedge_intAddrReg, issued_snoc_length, same']
    cases s.awFires i with
    | false => exact turn
    | true => exact toNat_ringNext turn

theorem run_placed {minAddr : BitVec p.axiAddrWidth} {cfgData : BitVec p.addrWidth}
    (run : (circuit p).Run past s) (fixed : Held (Fixed minAddr cfgData) past) {n : Nat}
    {req : BitVec p.axiAddrWidth × BitVec 4} (found : (past.flatMap issued)[n]? = some req) :
    ∃ turn : BitVec p.addrWidth, turn.toNat = n % (cfgData.toNat + 1) ∧
      req.1 = minAddr + (turn ++ 0#4 ++ 0#p.addrSize).setWidth p.axiAddrWidth := by
  induction run with
  | reset => cases found
  | @tick past s run i ih =>
    obtain ⟨before, same⟩ := (held_snoc _ _ _).mp fixed
    rw [flatMap_snoc, issued] at found
    cases fires : s.awFires i with
    | false =>
      rw [fires, beat_false, List.append_nil] at found
      exact ih before found
    | true =>
      rw [fires, beat_true] at found
      rcases getElem?_snoc found with old | ⟨last, rfl⟩
      · exact ih before old
      · refine ⟨s.intAddrReg, ?_, ?_⟩
        · rw [run_turn run (before.mono fun _ _ now => now.2), ← last]
        · have first : i.minAddr = minAddr := same.1
          rw [← first]
          rfl

theorem awStable_posedge : AwStable ⟨s, i⟩ (posedge true s i) := by
  intro waits stalled
  have waits' : s.buf0.intValidReg = true := waits
  have stalled' : i.mAxiAwready = false := stalled
  have busy : s.buf0.inReady i.mAxiAwready = false := by
    simp [OutputBuffer.inReady, waits', stalled']
  have fires : s.awFires i = false := by simp [awFires, intAwreadyWire, busy]
  rw [posedge_buf0, posedge_awlenReg, fires]
  simp [OutputBuffer.posedge, busy, waits']

/-! ### The window -/

section Window

variable {addrWidth depth burstBeats : Nat} {packing : Packing W α R} {pos : 0 < burstBeats}
variable {le : burstBeats ≤ 16} {minAddr : BitVec 32} {cfgData : BitVec addrWidth}

structure Windowed (minAddr : BitVec 32) (cfgData : BitVec addrWidth)
    (past : List (Tick (memory64 addrWidth depth burstBeats packing pos le)))
    (s : RamWriter (memory64 addrWidth depth burstBeats packing pos le)) : Prop where
  placed : ∀ n req, (requests past s)[n]? = some req →
    req.1.toNat = minAddr.toNat + 128 * (n % (cfgData.toNat + 1))
  inside : ∀ req ∈ requests past s,
    InWindow minAddr.toNat cfgData.toNat req.1.toNat (req.2.toNat + 1)
  stable : ∀ before c, past = before ++ [c] → AwStable c s

theorem ring_toNat {turn : BitVec addrWidth} (inRing : turn.toNat ≤ cfgData.toNat)
    (fits : minAddr.toNat + 128 * (cfgData.toNat + 1) ≤ 2 ^ 32) :
    (minAddr + (turn ++ 0#4 ++ 0#3).setWidth 32).toNat = minAddr.toNat + 128 * turn.toNat := by
  have scaled : ((turn ++ 0#4 ++ 0#3).setWidth 32).toNat = 128 * turn.toNat := by
    rw [setWidth_burst, BitVec.toNat_ofNat]
    exact Nat.mod_eq_of_lt (by omega)
  rw [BitVec.toNat_add, scaled, Nat.mod_eq_of_lt (by omega)]

theorem run_requestAddr {past : List (Tick (memory64 addrWidth depth burstBeats packing pos le))}
    {s : RamWriter (memory64 addrWidth depth burstBeats packing pos le)}
    (run : (circuit (memory64 addrWidth depth burstBeats packing pos le)).Run past s)
    (fixed : Held (Fixed minAddr cfgData) past)
    (fits : minAddr.toNat + 128 * (cfgData.toNat + 1) ≤ 2 ^ 32) {n : Nat}
    {req : BitVec 32 × BitVec 4} (found : (requests past s)[n]? = some req) :
    req.1.toNat = minAddr.toNat + 128 * (n % (cfgData.toNat + 1)) := by
  have conserved : requests past s = past.flatMap issued := run_awReq run
  rw [conserved] at found
  obtain ⟨turn, position, addr⟩ := run_placed run fixed found
  have inRing : turn.toNat ≤ cfgData.toNat :=
    position.trans_le (Nat.le_of_lt_succ (Nat.mod_lt n (Nat.succ_pos cfgData.toNat)))
  have eight : clog2 (64 / 8) = 3 := by decide
  have size : (memory64 addrWidth depth burstBeats packing pos le).addrSize = 3 := eight
  rw [size] at addr
  calc req.1.toNat
      = minAddr.toNat + 128 * turn.toNat := by
        rw [addr]
        exact ring_toNat inRing fits
    _ = minAddr.toNat + 128 * (n % (cfgData.toNat + 1)) :=
        congrArg (minAddr.toNat + 128 * ·) position

/-- A span of at most 128 bytes that starts at a multiple of 128. -/
theorem inWindow_of_turn {first ring turn beats : Nat} (aligned : 128 ∣ first)
    (inRing : turn ≤ ring) (some : 0 < beats) (short : beats ≤ 16) :
    InWindow first ring (first + 128 * turn) beats := by
  obtain ⟨bursts, rfl⟩ := aligned
  exact ⟨by omega, by omega, by omega⟩

theorem run_windowed {past : List (Tick (memory64 addrWidth depth burstBeats packing pos le))}
    {s : RamWriter (memory64 addrWidth depth burstBeats packing pos le)}
    (aligned : 128 ∣ minAddr.toNat) (fits : minAddr.toNat + 128 * (cfgData.toNat + 1) ≤ 2 ^ 32)
    (run : (circuit (memory64 addrWidth depth burstBeats packing pos le)).Run past s)
    (fixed : Held (Fixed minAddr cfgData) past) : Windowed minAddr cfgData past s := by
  have placed : ∀ n req, (requests past s)[n]? = some req →
      req.1.toNat = minAddr.toNat + 128 * (n % (cfgData.toNat + 1)) :=
    fun n req found => run_requestAddr run fixed fits found
  refine ⟨placed, fun req member => ?_, ?_⟩
  · obtain ⟨n, found⟩ := List.mem_iff_getElem?.mp member
    have inRing := Nat.le_of_lt_succ (Nat.mod_lt n (Nat.succ_pos cfgData.toNat))
    rw [placed n req found]
    exact inWindow_of_turn aligned inRing (Nat.succ_pos _) req.2.isLt
  · rintro before c rfl
    obtain ⟨-, rfl⟩ := run.snoc
    exact awStable_posedge

end Window

/-- Packets into a ring of two bursts at the top of the address space. -/
def topOfMemory : List (WriterPins deployed) :=
  (List.replicate 5 onePacket).flatten.map fun i =>
    { i with minAddr := 0xffffff00, cfgData := 1 }

theorem run_windowed_top :
    @Windowed (BitVec 32) (BitVec 32) (BitVec 64) 16 2048 16 axis32 deployed.burstBeats_pos
      deployed.burstBeats_le 0xffffff00 1 ((circuit deployed).trace fresh topOfMemory)
      ((circuit deployed).after fresh topOfMemory) ∧
    (requests ((circuit deployed).trace fresh topOfMemory)
      ((circuit deployed).after fresh topOfMemory)).map Prod.fst =
        [0xffffff00, 0xffffff80, 0xffffff00] := by
  refine ⟨run_windowed (by decide) (by decide) (run_trace fresh_reset _) ?_, by decide +kernel⟩
  refine held_trace (circuit deployed) fresh (Q := fun i =>
    i.minAddr = (0xffffff00 : BitVec 32) ∧ i.cfgData = (1 : BitVec 16)) fun i member => ?_
  obtain ⟨j, -, rfl⟩ := List.mem_map.mp member
  exact ⟨rfl, rfl⟩

end RamWriter

end Switcheck
