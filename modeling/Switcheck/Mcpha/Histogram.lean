import Switcheck.Sync.Circuit
import Switcheck.Modules.Buffers
import Switcheck.Modules.SyncRam
import Switcheck.Modules.Verilog

/-!
# `axis_histogram`

A sample takes three clocks: it addresses its bin, the bin is read and incremented, and the sum is
written back. A bin that is full is not written.
-/

namespace Switcheck

open Sync Circuit

/-- The core with the RAM at its port: samples of `d` bits, `2 ^ a` bins of `n` bits. -/
structure Histogram (a n : Nat) where
  intAddrReg : BitVec a
  intDataReg : BitVec n
  intCaseReg : BitVec 2
  intTreadyReg : Bool
  intWeReg : Bool
  ram : SyncRam a (BitVec n)

structure HistogramPins (d : Nat) where
  sAxisTdata : BitVec d
  sAxisTvalid : Bool

namespace Histogram

variable {d a n : Nat}

/-- `s_axis_tdata[BRAM_ADDR_WIDTH-1:0]`. -/
def bin (i : HistogramPins d) : BitVec a := i.sAxisTdata.setWidth a

def bBramEn (s : Histogram a n) (i : HistogramPins d) : Bool := s.intWeReg || i.sAxisTvalid

def bBramAddr (s : Histogram a n) (i : HistogramPins d) : BitVec a :=
  if s.intWeReg then s.intAddrReg else bin i

/-- The RAM takes the write enable of all bytes of the word as one. -/
def posedge (mode : WriteMode) (aresetn : Bool) (s : Histogram a n) (i : HistogramPins d) :
    Histogram a n where
  intAddrReg :=
    if !aresetn then 0
    else if s.intCaseReg = 0 && i.sAxisTvalid then bin i
    else s.intAddrReg
  intDataReg :=
    if !aresetn then 0
    else if s.intCaseReg = 1 then s.ram.dout + 1
    else s.intDataReg
  intCaseReg :=
    if !aresetn then 0
    else if s.intCaseReg = 0 then if i.sAxisTvalid then 1 else 0
    else if s.intCaseReg = 1 then 2
    else if s.intCaseReg = 2 then 0
    else s.intCaseReg
  intTreadyReg :=
    if !aresetn then true
    else if s.intCaseReg = 0 && i.sAxisTvalid then false
    else if s.intCaseReg = 2 then true
    else s.intTreadyReg
  intWeReg :=
    if !aresetn then false
    else if s.intCaseReg = 1 then s.ram.dout != BitVec.allOnes n
    else if s.intCaseReg = 2 then false
    else s.intWeReg
  ram := s.ram.posedge mode (s.bBramEn i) s.intWeReg (s.bBramAddr i) s.intDataReg

/-- The core out of reset, with the bins at `init`. -/
def circuit (d : Nat) (mode : WriteMode) (init : BitVec a → BitVec n) :
    Circuit (Histogram a n) (HistogramPins d) where
  Reset s := (∃ s₀ i, s = posedge (d := d) mode false s₀ i) ∧ s.ram.mem = init
  tick := posedge mode true

abbrev Tick (a n d : Nat) := Clock (Histogram a n) (HistogramPins d)

def accepted (c : Tick a n d) : List (BitVec a) :=
  beat (c.pins.sAxisTvalid && c.regs.intTreadyReg) (bin c.pins)

/-! ### Counting up to the limit of a bin -/

/-- The bins hold their initial contents and what has been counted, up to the limit. -/
def Counted (init mem : BitVec a → BitVec n) (bins : List (BitVec a)) : Prop :=
  ∀ k, (mem k).toNat = min ((init k).toNat + bins.count k) (2 ^ n - 1)

variable {mode : WriteMode} {init mem : BitVec a → BitVec n} {bins : List (BitVec a)}
  {past : List (Tick a n d)} {s : Histogram a n} {i : HistogramPins d}

theorem counted_nil (init : BitVec a → BitVec n) : Counted init init [] := by
  intro k
  have bound := (init k).isLt
  rw [List.count_nil]
  omega

theorem count_snoc (bins : List (BitVec a)) (b k : BitVec a) :
    (bins ++ [b]).count k = bins.count k + if b = k then 1 else 0 := by
  rw [List.count_append, List.count_singleton]
  simp

theorem Counted.full (counted : Counted init mem bins) {b : BitVec a}
    (full : mem b = BitVec.allOnes n) : Counted init mem (bins ++ [b]) := by
  intro k
  have before := counted k
  rw [count_snoc]
  split
  · rename_i same
    subst same
    rw [full, BitVec.toNat_allOnes] at before ⊢
    omega
  · exact before

theorem Counted.incremented (counted : Counted init mem bins) {b : BitVec a}
    (room : mem b ≠ BitVec.allOnes n) :
    Counted init (fun k => if k = b then mem b + 1 else mem k) (bins ++ [b]) := by
  intro k
  have before := counted k
  simp only [count_snoc]
  by_cases same : b = k
  · subst same
    have bound := (mem b).isLt
    have below : (mem b).toNat ≠ 2 ^ n - 1 := by
      rw [← BitVec.toNat_allOnes]
      exact fun eq => room (BitVec.eq_of_toNat_eq eq)
    rw [if_pos rfl, if_pos rfl, toNat_add_one (by omega)]
    omega
  · rw [if_neg (Ne.symm same), if_neg same]
    exact before

/-! ### The three clocks of a sample -/

/-- Idle; the RAM answers for the bin; the sum is written unless the bin is full. -/
inductive Phase (init : BitVec a → BitVec n) (past : List (Tick a n d)) (s : Histogram a n) :
    Prop where
  | idle : s.intCaseReg = 0 → s.intTreadyReg = true → s.intWeReg = false →
      Counted init s.ram.mem (past.flatMap accepted) → Phase init past s
  | reads (bins : List (BitVec a)) : s.intCaseReg = 1 → s.intTreadyReg = false →
      s.intWeReg = false → past.flatMap accepted = bins ++ [s.intAddrReg] →
      s.ram.dout = s.ram.mem s.intAddrReg → Counted init s.ram.mem bins → Phase init past s
  | writes (bins : List (BitVec a)) : s.intCaseReg = 2 → s.intTreadyReg = false →
      s.intWeReg = (s.ram.mem s.intAddrReg != BitVec.allOnes n) →
      past.flatMap accepted = bins ++ [s.intAddrReg] →
      s.intDataReg = s.ram.mem s.intAddrReg + 1 → Counted init s.ram.mem bins → Phase init past s

theorem posedge_ram_read (mode : WriteMode) (quiet : s.intWeReg = false) (i : HistogramPins d) :
    (posedge mode true s i).ram =
      ⟨s.ram.mem, if i.sAxisTvalid then s.ram.mem (bin i) else s.ram.dout⟩ := by
  have reads := SyncRam.posedge_read mode s.ram i.sAxisTvalid (bin i) s.intDataReg
  simpa [posedge, bBramEn, bBramAddr, quiet] using reads

theorem posedge_ram_write (mode : WriteMode) (writes : s.intWeReg = true) (i : HistogramPins d) :
    (posedge mode true s i).ram.mem =
      fun k => if k = s.intAddrReg then s.intDataReg else s.ram.mem k := by
  funext k
  have written := SyncRam.posedge_write mode s.ram s.intAddrReg k s.intDataReg
  simpa [posedge, bBramEn, bBramAddr, writes] using written

theorem phase_idle (idle : s.intCaseReg = 0) (ready : s.intTreadyReg = true)
    (quiet : s.intWeReg = false) (counted : Counted init s.ram.mem (past.flatMap accepted)) :
    Phase init (past ++ [⟨s, i⟩]) (posedge mode true s i) := by
  have ram := posedge_ram_read mode quiet i
  cases valid : i.sAxisTvalid with
  | false =>
    refine .idle ?_ ?_ ?_ ?_
    · simp [posedge, idle, valid]
    · simp [posedge, idle, ready, valid]
    · simp [posedge, idle, quiet]
    · rw [ram, flatMap_snoc]
      simpa [accepted, valid] using counted
  | true =>
    have addr : (posedge mode true s i).intAddrReg = bin i := by simp [posedge, idle, valid]
    refine .reads (past.flatMap accepted) ?_ ?_ ?_ ?_ ?_ ?_
    · simp [posedge, idle, valid]
    · simp [posedge, idle, valid]
    · simp [posedge, idle, quiet]
    · rw [flatMap_snoc, addr]
      simp [accepted, valid, ready]
    · rw [addr, ram, valid, if_pos rfl]
    · rw [ram]
      exact counted

theorem phase_reads (bins : List (BitVec a)) (reads : s.intCaseReg = 1)
    (unready : s.intTreadyReg = false) (quiet : s.intWeReg = false)
    (last : past.flatMap accepted = bins ++ [s.intAddrReg])
    (dout : s.ram.dout = s.ram.mem s.intAddrReg) (counted : Counted init s.ram.mem bins) :
    Phase init (past ++ [⟨s, i⟩]) (posedge mode true s i) := by
  have mem : (posedge mode true s i).ram.mem = s.ram.mem := by
    rw [posedge_ram_read mode quiet i]
  have addr : (posedge mode true s i).intAddrReg = s.intAddrReg := by simp [posedge, reads]
  refine .writes bins ?_ ?_ ?_ ?_ ?_ ?_
  · simp [posedge, reads]
  · simp [posedge, reads, unready]
  · rw [mem, addr, ← dout]
    simp [posedge, reads]
  · rw [flatMap_snoc, addr, last]
    simp [accepted, unready]
  · rw [mem, addr, ← dout]
    simp [posedge, reads]
  · rw [mem]
    exact counted

theorem phase_writes (bins : List (BitVec a)) (writes : s.intCaseReg = 2)
    (unready : s.intTreadyReg = false)
    (room : s.intWeReg = (s.ram.mem s.intAddrReg != BitVec.allOnes n))
    (last : past.flatMap accepted = bins ++ [s.intAddrReg])
    (sum : s.intDataReg = s.ram.mem s.intAddrReg + 1) (counted : Counted init s.ram.mem bins) :
    Phase init (past ++ [⟨s, i⟩]) (posedge mode true s i) := by
  refine .idle ?_ ?_ ?_ ?_
  · simp [posedge, writes]
  · simp [posedge, writes]
  · simp [posedge, writes]
  · have none : accepted (⟨s, i⟩ : Tick a n d) = [] := by simp [accepted, unready]
    rw [flatMap_snoc, none, List.append_nil, last]
    cases enabled : s.intWeReg with
    | false =>
      rw [congrArg SyncRam.mem (posedge_ram_read mode enabled i)]
      rw [enabled] at room
      exact counted.full (by simpa using room.symm)
    | true =>
      rw [posedge_ram_write mode enabled i, sum]
      rw [enabled] at room
      exact counted.incremented (by simpa using room.symm)

theorem phase_step (phase : Phase init past s) :
    Phase init (past ++ [⟨s, i⟩]) (posedge mode true s i) := by
  cases phase with
  | idle idle ready quiet counted => exact phase_idle idle ready quiet counted
  | reads bins reads unready quiet last dout counted =>
    exact phase_reads bins reads unready quiet last dout counted
  | writes bins writes unready room last sum counted =>
    exact phase_writes bins writes unready room last sum counted

theorem run_phase (run : (circuit d mode init).Run past s) : Phase init past s := by
  induction run with
  | reset reset =>
    obtain ⟨⟨s₀, i, rfl⟩, rfl⟩ := reset
    exact .idle rfl rfl rfl (counted_nil _)
  | tick run i ih => exact phase_step ih

/-- In the idle state each bin holds its initial content and the samples that have been accepted
for it, up to the limit of a bin. -/
theorem run_counted (run : (circuit d mode init).Run past s) (idle : s.intCaseReg = 0)
    (k : BitVec a) :
    (s.ram.mem k).toNat =
      min ((init k).toNat + (past.flatMap accepted).count k) (2 ^ n - 1) := by
  cases run_phase run with
  | idle _ _ _ counted => exact counted k
  | reads _ reads | writes _ reads =>
    rw [idle] at reads
    cases reads

def fresh : Histogram 2 2 := ⟨0, 0, 0, true, false, ⟨fun _ => 1, 0⟩⟩

theorem fresh_reset : (circuit 4 .readFirst fun _ => 1).Reset fresh :=
  ⟨⟨fresh, ⟨0, false⟩, rfl⟩, rfl⟩

/-- Bin 2 three times, without a gap; its two bits are full after the second. -/
def repeats : List (HistogramPins 4) := List.replicate 9 ⟨6, true⟩

theorem run_counted_repeats :
    (((circuit 4 .readFirst fun _ => 1).after fresh repeats).ram.mem 2).toNat = 3 := by
  rw [run_counted (run_trace fresh_reset repeats) (by decide)]
  decide

end Histogram

end Switcheck
