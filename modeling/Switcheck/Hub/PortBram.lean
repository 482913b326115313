import Switcheck.Sync.RegisterFile
import Switcheck.Modules.SyncRam
import Switcheck.Hub.PortHub

/-!
# Block-RAM ports

A port with a synchronous block RAM, which answers one clock after it is addressed and keeps its
output while it is not enabled. The hub has one address for the reads and the writes of all ports.
-/

namespace Switcheck

open Sync Circuit

structure BlockRam (w : Nat) where
  mem : BitVec w → BitVec 32
  dout : BitVec 32

namespace BlockRam

variable {w : Nat}

def answer (mode : WriteMode) (r : BlockRam w) (we : BitVec 4) (addr : BitVec w)
    (din : BitVec 32) : BitVec 32 :=
  if we == 0 then r.mem addr
  else match mode with
    | .writeFirst => mergeBytes (r.mem addr) din we
    | .readFirst => r.mem addr
    | .noChange => r.dout

def posedge (mode : WriteMode) (r : BlockRam w) (en : Bool) (we : BitVec 4) (addr : BitVec w)
    (din : BitVec 32) : BlockRam w where
  mem a := if en && a == addr then mergeBytes (r.mem a) din we else r.mem a
  dout := if en then r.answer mode we addr din else r.dout

end BlockRam

/-- Beat `n` of a burst reads the `n`-th word from its address. -/
def ArReq.beatAddr (ar : ArReq) (n : Nat) : BitVec 22 := BitVec.ofNat 22 (ar.word + n)

structure BramPort (p : HubParams) (w : Nat) where
  hub : PortHub p
  ram : BlockRam w

namespace BramPort

variable {p : HubParams} {w : Nat}

/-- The pins of the hub: port `j` has its block RAM and no stream. -/
def hubPins (j : HubPort) (s : BramPort p w) (i : PortPins p) : PortPins p :=
  { i with
      bramRdata := fun k => if k = j then s.ram.dout else i.bramRdata k
      sAxisTvalid := fun k => if k = j then false else i.sAxisTvalid k }

def ramNext (mode : WriteMode) (j : HubPort) (s : BramPort p w) (i : PortPins p) : BlockRam w :=
  s.ram.posedge mode (s.hub.bramEn (s.hubPins j i) j) (s.hub.bramWe (s.hubPins j i) j)
    ((s.hub.bramAddr (s.hubPins j i)).setWidth w) s.hub.bramWdata

def circuit (p : HubParams) (w : Nat) (mode : WriteMode) (j : HubPort) :
    Circuit (BramPort p w) (PortPins p) where
  Reset s := (PortHub.circuit p).Reset s.hub
  tick s i := ⟨(PortHub.circuit p).tick s.hub (s.hubPins j i), s.ramNext mode j i⟩

abbrev Tick (p : HubParams) (w : Nat) := Clock (BramPort p w) (PortPins p)

/-! ### Beats and what they return -/

def hubClock (j : HubPort) (c : Tick p w) : PortHub.Tick p := ⟨c.regs.hub, c.regs.hubPins j c.pins⟩

def arAccepted (j : HubPort) (c : Tick p w) : List ArReq := PortHub.arAccepted (hubClock j c)

def rAccepted (j : HubPort) (c : Tick p w) : List PortRBeat := PortHub.rAccepted (hubClock j c)

def rIssued (j : HubPort) (c : Tick p w) : List (Tick p w) :=
  beat (c.regs.hub.intReWire (c.regs.hubPins j c.pins)) c

def rBeat (j : HubPort) (c : Tick p w) : PortRBeat := PortHub.rBeat (hubClock j c)

def rlast (c : Tick p w) : Bool := c.regs.hub.intRlastWire

def sAxiRdata (j : HubPort) (s : BramPort p w) (i : PortPins p) : BitVec 32 :=
  PortHub.sAxiRdata s.hub.buf4.intDataReg (s.hubPins j i).bramRdata

/-- `c` issued the beat in `buf_4`, as beat `n` for the request `ar`. -/
structure Offers (j : HubPort) (past : List (Tick p w)) (s : BramPort p w) (c : Tick p w)
    (ar : ArReq) (n : Nat) : Prop where
  data : s.hub.buf4.intDataReg = rBeat j c
  place : ∃ earlier, past.flatMap (rIssued j) = earlier ++ [c] ∧
    (past.flatMap (arAccepted j))[(frames rlast earlier).length]? = some ar ∧
    n = (rest rlast earlier).length

/-- The beat is not of the port, or it shows what the RAM held when it was issued. -/
def Shows (j : HubPort) (s : BramPort p w) (c : Tick p w) (ar : ArReq) (n : Nat) : Prop :=
  ar.region = j + 2 → ∀ i : PortPins p,
    s.sAxiRdata j i = c.regs.ram.mem ((ar.beatAddr n).setWidth w)

structure ReadsFaithful (j : HubPort) (past : List (Tick p w)) (s : BramPort p w) : Prop where
  delivered : past.flatMap (rAccepted j) ++ s.hub.buf4.held =
    (past.flatMap (rIssued j)).map (rBeat j)
  faithful : s.hub.buf4.intValidReg = true → ∃ c ar n, Offers j past s c ar n ∧ Shows j s c ar n

/-- What the RAM answers to the address and the strobes of a write beat. -/
def writeAnswer (mode : WriteMode) (j : HubPort) (s : BramPort p w) (i : PortPins p) : BitVec 32 :=
  s.ram.answer mode (s.hub.bramWe (s.hubPins j i) j) (s.hub.intWaddrWire.setWidth w)
    s.hub.bramWdata

/-- A write beat in the clock of a read of the port has the RAM answer with the word read, and one
to the port while a read beat of it waits for the master with the output there is. -/
def Undisturbed (mode : WriteMode) (j : HubPort) (c : Tick p w) : Prop :=
  (c.regs.hub.intRselWire (c.regs.hubPins j c.pins) j = true →
    c.regs.hub.intWeWire (c.regs.hubPins j c.pins) = true →
    c.regs.writeAnswer mode j c.pins = c.regs.ram.mem (c.regs.hub.intRaddrWire.setWidth w)) ∧
  (c.regs.hub.buf4.intValidReg = true → c.regs.hub.buf4.intDataReg.bsel j = true →
    c.pins.sAxiRready = false → c.regs.hub.intWselWire (c.regs.hubPins j c.pins) j = true →
    c.regs.writeAnswer mode j c.pins = c.regs.ram.dout)

instance (mode : WriteMode) (j : HubPort) (c : Tick p w) : Decidable (Undisturbed mode j c) :=
  inferInstanceAs (Decidable (_ ∧ _))

variable {mode : WriteMode} {j : HubPort} {past : List (Tick p w)} {s : BramPort p w}
  {i : PortPins p} {c : Tick p w} {ar : ArReq} {n : Nat}

/-! ### The place of a beat -/

def reads (p : HubParams) (w : Nat) (mode : WriteMode) (j : HubPort) :
    BurstQueue (circuit p w mode j) ArReq (Tick p w) where
  queue s := s.hub.buf3.held
  accepted := arAccepted j
  popped c := PortHub.arPopped (hubClock j c)
  served := rIssued j
  last := rlast
  empty _ reset := (PortHub.cleared_of_reset reset).buf3
  conserve s i := (PortHub.reads p).conserve s.hub (s.hubPins j i)
  serves c := by
    have popped : PortHub.arPopped (hubClock j c) = beat (c.regs.hub.intReWire
        (c.regs.hubPins j c.pins) && rlast c) c.regs.hub.buf3.outData :=
      PortHub.arPopped_eq (hubClock j c)
    rw [rIssued, popped]
    cases re : c.regs.hub.intReWire (c.regs.hubPins j c.pins) with
    | false => exact Or.inl ⟨rfl, rfl⟩
    | true => exact Or.inr ⟨c.regs.hub.buf3.outData, c, PortHub.head?_of_re re, rfl, rfl⟩

theorem reads_counts : (reads p w mode j).Counts (fun s => s.hub.intArcntrReg.toNat)
    fun ar => ar.arlen.toNat where
  zero s reset := congrArg BitVec.toNat (PortHub.cleared_of_reset reset).arcntr
  idle s i none := by
    have re : s.hub.intReWire (s.hubPins j i) = false := beat_eq_nil.mp none
    have step := PortHub.posedge_arcntr (s := s.hub) (i := s.hubPins j i)
    rw [re] at step
    exact congrArg BitVec.toNat step
  ends s i ar d front issued := by
    obtain ⟨re, rfl⟩ := beat_eq_singleton.mp issued
    obtain rfl := Option.some.inj (front.symm.trans (PortHub.head?_of_re re))
    exact AxiHub.intRlastWire_iff
  next s i ar d front issued within := by
    obtain ⟨re, rfl⟩ := beat_eq_singleton.mp issued
    obtain rfl := Option.some.inj (front.symm.trans (PortHub.head?_of_re re))
    exact AxiHub.arcntr_next (s := s.hub.core) re within

theorem intRaddrWire_eq (s : PortHub p) :
    s.intRaddrWire = s.buf3.outData.beatAddr s.intArcntrReg.toNat := by
  refine BitVec.eq_of_toNat_eq ?_
  rw [PortHub.intRaddrWire, AxiHub.intRaddrWire, BitVec.toNat_add, BitVec.toNat_setWidth,
    ArReq.beatAddr, BitVec.toNat_ofNat, Nat.add_mod_mod]
  rfl

/-! ### The beat in `buf_4` -/

theorem ready_of_re (re : s.hub.intReWire (s.hubPins j i) = true) :
    s.hub.buf4.inReady i.sAxiRready = true ∧ s.hub.core.intRvalidWire = true :=
  Bool.and_eq_true_iff.mp re

theorem buf4_tick (s : BramPort p w) (i : PortPins p) :
    ((circuit p w mode j).tick s i).hub.buf4 =
      s.hub.buf4.posedge true (rBeat j ⟨s, i⟩) s.hub.core.intRvalidWire i.sAxiRready := rfl

theorem buf4_issued (re : s.hub.intReWire (s.hubPins j i) = true) :
    ((circuit p w mode j).tick s i).hub.buf4 = ⟨rBeat j ⟨s, i⟩, true⟩ := by
  obtain ⟨ready, valid⟩ := ready_of_re re
  rw [buf4_tick, OutputBuffer.posedge_ready ready, valid]

theorem buf4_stalled (full : s.hub.buf4.inReady i.sAxiRready = false) :
    ((circuit p w mode j).tick s i).hub.buf4 = s.hub.buf4 :=
  OutputBuffer.posedge_stalled full ..

theorem buf4_drained (re : s.hub.intReWire (s.hubPins j i) = false)
    (ready : s.hub.buf4.inReady i.sAxiRready = true) :
    ((circuit p w mode j).tick s i).hub.buf4.intValidReg = false := by
  have idle : s.hub.core.intRvalidWire = false := by
    have both : (s.hub.buf4.inReady i.sAxiRready && s.hub.core.intRvalidWire) = false := re
    rwa [ready, Bool.true_and] at both
  rw [buf4_tick, OutputBuffer.posedge_ready ready, idle]

theorem re_of_full (full : s.hub.buf4.inReady i.sAxiRready = false) :
    s.hub.intReWire (s.hubPins j i) = false :=
  Bool.and_eq_false_iff.mpr (Or.inl full)

theorem offers_issued (run : (circuit p w mode j).Run past s)
    (re : s.hub.intReWire (s.hubPins j i) = true) :
    Offers j (past ++ [⟨s, i⟩]) ((circuit p w mode j).tick s i) ⟨s, i⟩ s.hub.buf3.outData
      s.hub.intArcntrReg.toNat := by
  refine ⟨?_, past.flatMap (rIssued j), ?_, ?_, (reads_counts.run run).1⟩
  · rw [buf4_issued re]
  · rw [flatMap_snoc, rIssued, re, beat_true]
  · have front := (reads p w mode j).run_front run (PortHub.head?_of_re re)
    exact getElem?_mono ⟨_, List.flatMap_append.symm⟩ front

theorem Offers.kept (offers : Offers j past s c ar n)
    (full : s.hub.buf4.inReady i.sAxiRready = false) :
    Offers j (past ++ [⟨s, i⟩]) ((circuit p w mode j).tick s i) c ar n := by
  obtain ⟨data, earlier, issued, request, place⟩ := offers
  refine ⟨?_, earlier, ?_, getElem?_mono (by simp) request, place⟩
  · rw [buf4_stalled full]
    exact data
  · rw [flatMap_snoc, rIssued, re_of_full full, beat_false, List.append_nil]
    exact issued

theorem Offers.unique {d : Tick p w} {ar' : ArReq} {m : Nat} (offers : Offers j past s c ar n)
    (other : Offers j past s d ar' m) : c = d ∧ ar = ar' ∧ n = m := by
  obtain ⟨-, earlier, issued, request, place⟩ := offers
  obtain ⟨-, earlier', issued', request', place'⟩ := other
  obtain ⟨rfl, last⟩ := List.append_inj' (issued.symm.trans issued') rfl
  obtain rfl := Option.some.inj (request.symm.trans request')
  exact ⟨List.singleton_inj.mp last, rfl, place.trans place'.symm⟩

theorem run_offers (run : (circuit p w mode j).Run past s)
    (valid : s.hub.buf4.intValidReg = true) : ∃ c n,
      Offers j past s c c.regs.hub.buf3.outData n ∧
        c.regs.hub.intReWire (c.regs.hubPins j c.pins) = true := by
  induction run with
  | reset reset =>
    have none := (PortHub.cleared_of_reset reset).buf4
    simp [OutputBuffer.held, valid] at none
  | @tick past s run i ih =>
    cases re : s.hub.intReWire (s.hubPins j i) with
    | true => exact ⟨⟨s, i⟩, _, offers_issued run re, re⟩
    | false =>
      cases ready : s.hub.buf4.inReady i.sAxiRready with
      | true => exact absurd valid (Bool.eq_false_iff.mp (buf4_drained re ready))
      | false =>
        obtain ⟨c, n, offers, issued⟩ := ih (OutputBuffer.inReady_eq_false.mp ready).1
        exact ⟨c, n, offers.kept ready, issued⟩

theorem run_delivered (run : (circuit p w mode j).Run past s) :
    past.flatMap (rAccepted j) ++ s.hub.buf4.held = (past.flatMap (rIssued j)).map (rBeat j) := by
  rw [List.map_flatMap]
  refine run.conserve (fun s : BramPort p w => s.hub.buf4.held)
    (fun _ reset => (PortHub.cleared_of_reset reset).buf4) ?_
  intro s i
  rw [rIssued, map_beat]
  exact PortHub.buf4_step s.hub (s.hubPins j i)

theorem readsFaithful_iff (run : (circuit p w mode j).Run past s)
    (valid : s.hub.buf4.intValidReg = true) (offers : Offers j past s c ar n) :
    ReadsFaithful j past s ↔ Shows j s c ar n := by
  constructor
  · intro reads
    obtain ⟨d, ar', m, offers', shows⟩ := reads.faithful valid
    obtain ⟨rfl, rfl, rfl⟩ := offers.unique offers'
    exact shows
  · exact fun shows => ⟨run_delivered run, fun _ => ⟨c, ar, n, offers, shows⟩⟩

theorem readsFaithful_of_empty (run : (circuit p w mode j).Run past s)
    (none : s.hub.buf4.intValidReg = false) : ReadsFaithful j past s :=
  ⟨run_delivered run, fun valid => absurd valid (Bool.eq_false_iff.mp none)⟩

/-! ### What the master sees -/

theorem rBeat_bsel (issued : c.regs.hub.intReWire (c.regs.hubPins j c.pins) = true) :
    (rBeat j c).bsel j = decide (c.regs.hub.buf3.outData.region = j + 2) := by
  have selected := PortHub.rBeatNext_bsel (s := c.regs.hub) (i := c.regs.hubPins j c.pins) j
  have streamless : (c.regs.hubPins j c.pins).sAxisTvalid j = false := if_pos rfl
  rw [issued, streamless, Bool.true_and, Bool.not_false, Bool.and_true] at selected
  exact selected

theorem sAxiRdata_eq (data : s.hub.buf4.intDataReg = rBeat j c)
    (issued : c.regs.hub.intReWire (c.regs.hubPins j c.pins) = true)
    (region : c.regs.hub.buf3.outData.region = j + 2) (i : PortPins p) :
    s.sAxiRdata j i = s.ram.dout := by
  have one (k : HubPort) : (rBeat j c).bsel k = decide (k = j) := by
    by_cases same : k = j
    · rw [same, rBeat_bsel issued, region]
      simp
    · have other : c.regs.hub.buf3.outData.region ≠ k + 2 := fun eq => same (Fin.ext (by omega))
      have selected := PortHub.rBeatNext_bsel (s := c.regs.hub) (i := c.regs.hubPins j c.pins) k
      rw [decide_eq_false other, Bool.and_false, Bool.false_and] at selected
      rw [decide_eq_false same]
      exact selected
  have zero : (rBeat j c).rdata = 0 := by
    have streamless : (c.regs.hubPins j c.pins).sAxisTvalid j = false := if_pos rfl
    have word := PortHub.intRdataMux_port (s := c.regs.hub) (i := c.regs.hubPins j c.pins) j
    rw [streamless, if_neg Bool.false_ne_true, ← region] at word
    exact word
  rw [sAxiRdata, data, PortHub.sAxiRdata_of_bram one zero]
  exact if_pos rfl

theorem shows_iff (data : s.hub.buf4.intDataReg = rBeat j c)
    (issued : c.regs.hub.intReWire (c.regs.hubPins j c.pins) = true) :
    Shows j s c c.regs.hub.buf3.outData n ↔ (c.regs.hub.buf3.outData.region = j + 2 →
      s.ram.dout = c.regs.ram.mem ((c.regs.hub.buf3.outData.beatAddr n).setWidth w)) := by
  constructor
  · intro shows region
    rw [← sAxiRdata_eq data issued region c.pins]
    exact shows region c.pins
  · intro same region i
    rw [sAxiRdata_eq data issued region i]
    exact same region

/-! ### One clock -/

theorem ramNext_read (selected : s.hub.intRselWire (s.hubPins j i) j = true)
    (idle : s.hub.intWeWire (s.hubPins j i) = false) :
    (s.ramNext mode j i).dout = s.ram.mem (s.hub.intRaddrWire.setWidth w) := by
  have unwritten : s.hub.intWselWire (s.hubPins j i) j = false := by
    rw [PortHub.intWselWire_eq, idle, Bool.false_and]
  unfold ramNext PortHub.bramEn PortHub.bramWe PortHub.bramAddr
  rw [selected, idle, unwritten]
  rfl

theorem ramNext_idle (unread : s.hub.intRselWire (s.hubPins j i) j = false)
    (unwritten : s.hub.intWselWire (s.hubPins j i) j = false) :
    (s.ramNext mode j i).dout = s.ram.dout := by
  unfold ramNext PortHub.bramEn
  rw [unread, unwritten]
  rfl

theorem ramNext_write (we : s.hub.intWeWire (s.hubPins j i) = true)
    (selected : s.hub.intRselWire (s.hubPins j i) j = true ∨
      s.hub.intWselWire (s.hubPins j i) j = true) :
    (s.ramNext mode j i).dout = s.writeAnswer mode j i := by
  have enabled : s.hub.bramEn (s.hubPins j i) j = true := Bool.or_eq_true_iff.mpr selected
  unfold ramNext writeAnswer PortHub.bramAddr
  rw [enabled, we]
  rfl

theorem we_of_wsel (written : s.hub.intWselWire (s.hubPins j i) j = true) :
    s.hub.intWeWire (s.hubPins j i) = true := by
  rw [PortHub.intWselWire_eq, Bool.and_eq_true] at written
  exact written.1

theorem shows_issued_iff (re : s.hub.intReWire (s.hubPins j i) = true) :
    Shows j ((circuit p w mode j).tick s i) ⟨s, i⟩ s.hub.buf3.outData s.hub.intArcntrReg.toNat ↔
      Undisturbed mode j ⟨s, i⟩ := by
  have selected : s.hub.intRselWire (s.hubPins j i) j =
      decide (s.hub.buf3.outData.region = j + 2) := by
    rw [PortHub.intRselWire_eq, re, Bool.true_and]
  have data : ((circuit p w mode j).tick s i).hub.buf4.intDataReg = rBeat j ⟨s, i⟩ := by
    rw [buf4_issued re]
  rw [shows_iff (c := ⟨s, i⟩) data re, ← intRaddrWire_eq]
  constructor
  · intro same
    refine ⟨fun read we => ?_, fun valid _ waits _ => ?_⟩
    · rw [← ramNext_write we (Or.inl read)]
      exact same (of_decide_eq_true (selected.symm.trans read))
    · have full := OutputBuffer.inReady_eq_false.mpr ⟨valid, waits⟩
      exact absurd (ready_of_re re).1 (Bool.eq_false_iff.mp full)
  · rintro ⟨apart, -⟩ region
    have read := selected.trans (decide_eq_true region)
    cases we : s.hub.intWeWire (s.hubPins j i) with
    | false => exact ramNext_read read we
    | true => exact (ramNext_write we (Or.inl read)).trans (apart read we)

theorem shows_stalled_iff (data : s.hub.buf4.intDataReg = rBeat j c)
    (issued : c.regs.hub.intReWire (c.regs.hubPins j c.pins) = true)
    (full : s.hub.buf4.inReady i.sAxiRready = false)
    (shows : Shows j s c c.regs.hub.buf3.outData n) :
    Shows j ((circuit p w mode j).tick s i) c c.regs.hub.buf3.outData n ↔
      Undisturbed mode j ⟨s, i⟩ := by
  obtain ⟨valid, waits⟩ := OutputBuffer.inReady_eq_false.mp full
  have unread : s.hub.intRselWire (s.hubPins j i) j = false := by
    rw [PortHub.intRselWire_eq, re_of_full full, Bool.false_and]
  have selected := rBeat_bsel issued
  have data' : ((circuit p w mode j).tick s i).hub.buf4.intDataReg = rBeat j c := by
    rw [buf4_stalled full]
    exact data
  rw [← data] at selected
  have before := (shows_iff data issued).mp shows
  rw [shows_iff data' issued]
  constructor
  · intro same
    refine ⟨fun read => absurd read (Bool.eq_false_iff.mp unread), ?_⟩
    intro _ read _ written
    have region := of_decide_eq_true (selected.symm.trans read)
    rw [← ramNext_write (we_of_wsel written) (Or.inr written), before region]
    exact same region
  · rintro ⟨-, still⟩ region
    rw [← before region]
    cases written : s.hub.intWselWire (s.hubPins j i) j with
    | false => exact ramNext_idle unread written
    | true =>
      have kept := still valid (selected.trans (decide_eq_true region)) waits written
      exact (ramNext_write (we_of_wsel written) (Or.inr written)).trans kept

theorem undisturbed_drained (re : s.hub.intReWire (s.hubPins j i) = false)
    (ready : s.hub.buf4.inReady i.sAxiRready = true) : Undisturbed mode j ⟨s, i⟩ := by
  have unread : s.hub.intRselWire (s.hubPins j i) j = false := by
    rw [PortHub.intRselWire_eq, re, Bool.false_and]
  refine ⟨fun read => absurd read (Bool.eq_false_iff.mp unread), ?_⟩
  intro valid _ waits _
  have full := OutputBuffer.inReady_eq_false.mpr ⟨valid, waits⟩
  exact absurd ready (Bool.eq_false_iff.mp full)

theorem readsFaithful_step (run : (circuit p w mode j).Run past s)
    (inv : ReadsFaithful j past s) :
    ReadsFaithful j (past ++ [⟨s, i⟩]) ((circuit p w mode j).tick s i) ↔
      Undisturbed mode j ⟨s, i⟩ := by
  have next := run.tick i
  cases ready : s.hub.buf4.inReady i.sAxiRready with
  | false =>
    obtain ⟨valid, -⟩ := OutputBuffer.inReady_eq_false.mp ready
    obtain ⟨c, n, offers, issued⟩ := run_offers run valid
    have valid' : ((circuit p w mode j).tick s i).hub.buf4.intValidReg = true := by
      rw [buf4_stalled ready]
      exact valid
    rw [readsFaithful_iff next valid' (offers.kept ready)]
    exact shows_stalled_iff offers.data issued ready ((readsFaithful_iff run valid offers).mp inv)
  | true =>
    cases re : s.hub.intReWire (s.hubPins j i) with
    | false =>
      exact iff_of_true (readsFaithful_of_empty next (buf4_drained re ready))
        (undisturbed_drained re ready)
    | true =>
      have valid' : ((circuit p w mode j).tick s i).hub.buf4.intValidReg = true := by
        rw [buf4_issued re]
      rw [readsFaithful_iff next valid' (offers_issued run re)]
      exact shows_issued_iff re

/-- Every read beat of the port shows the word of its address as it was when the beat was issued,
for as long as the beat is offered, exactly when no write beat moves the output of the RAM. -/
theorem run_readsFaithful_iff (run : (circuit p w mode j).Run past s) :
    (ReadsFaithful j past s ∧ Held (fun before c => ReadsFaithful j before c.regs) past) ↔
      Held (fun _ c => Undisturbed mode j c) past := by
  refine run.throughout_iff ?_ ?_
  · intro s reset
    have none := (PortHub.cleared_of_reset reset).buf4
    have idle : s.hub.buf4.intValidReg = false := by
      cases valid : s.hub.buf4.intValidReg with
      | false => rfl
      | true => simp [OutputBuffer.held, valid] at none
    exact readsFaithful_of_empty (.reset reset) idle
  · intro past s i run inv
    exact readsFaithful_step run inv

/-- Word `a` holds `0x100 + a`. -/
def fresh : BramPort AxiHub.deployed 10 := ⟨PortHub.fresh, ⟨fun a => 0x100 + a.setWidth 32, 0⟩⟩

theorem fresh_reset (mode : WriteMode) (j : HubPort) :
    (circuit AxiHub.deployed 10 mode j).Reset fresh := PortHub.fresh_reset

/-- A read of word 5 of region 2. -/
def readWordFive : PortPins AxiHub.deployed :=
  { PortHub.quiet with sAxiAr := ⟨7, 0, 0x2000014⟩, sAxiArvalid := true }

/-- The read waits for the master while word 1 of the configuration is written, and a write to the
port comes after it. -/
def readThenWrite : List (PortPins AxiHub.deployed) :=
  [{ readWordFive with sAxiRready := false },
    { PortHub.quiet with
        sAxiAw := ⟨1, 4⟩, sAxiAwvalid := true, sAxiW := ⟨15, true, 77⟩, sAxiWvalid := true
        sAxiRready := false },
    { PortHub.writeFirstPort 33 with sAxiRready := false }, PortHub.quiet, PortHub.quiet]

theorem run_readsFaithful_iff_apart :
    ReadsFaithful 0 ((circuit AxiHub.deployed 10 .writeFirst 0).trace fresh readThenWrite)
      ((circuit AxiHub.deployed 10 .writeFirst 0).after fresh readThenWrite) ∧
    ((circuit AxiHub.deployed 10 .writeFirst 0).after fresh (readThenWrite.take 3)).sAxiRdata 0
      PortHub.quiet = 0x105 ∧
    (((circuit AxiHub.deployed 10 .writeFirst 0).trace fresh readThenWrite).flatMap
      (rAccepted 0)).length = 1 :=
  ⟨((run_readsFaithful_iff (run_trace (fresh_reset .writeFirst 0) readThenWrite)).mpr
    (by decide +kernel)).1, by decide +kernel, by decide +kernel⟩

/-- The read and a write to word 1 of the configuration arrive together. -/
def readAndWrite : PortPins AxiHub.deployed :=
  { readWordFive with
      sAxiAw := ⟨1, 4⟩, sAxiAwvalid := true, sAxiW := ⟨15, true, 77⟩, sAxiWvalid := true }

/-- The write addresses the RAM in the clock of the read, which returns word 1 for word 5. -/
theorem write_redirects_read :
    (circuit AxiHub.deployed 10 .readFirst 0).Run
      ((circuit AxiHub.deployed 10 .readFirst 0).trace fresh [readAndWrite, PortHub.quiet])
      ((circuit AxiHub.deployed 10 .readFirst 0).after fresh [readAndWrite, PortHub.quiet]) ∧
    ((circuit AxiHub.deployed 10 .readFirst 0).after fresh
      [readAndWrite, PortHub.quiet]).hub.buf4.intValidReg = true ∧
    ((circuit AxiHub.deployed 10 .readFirst 0).after fresh
      [readAndWrite, PortHub.quiet]).sAxiRdata 0 PortHub.quiet = 0x101 ∧
    ¬ ReadsFaithful 0
      ((circuit AxiHub.deployed 10 .readFirst 0).trace fresh [readAndWrite, PortHub.quiet])
      ((circuit AxiHub.deployed 10 .readFirst 0).after fresh [readAndWrite, PortHub.quiet]) := by
  refine ⟨run_trace (fresh_reset .readFirst 0) _, by decide +kernel, by decide +kernel, ?_⟩
  intro reads
  have first := run_trace (fresh_reset .readFirst 0) [readAndWrite]
  have none := readsFaithful_of_empty first (by decide +kernel)
  exact absurd ((readsFaithful_step first none).mp reads) (by decide +kernel)

end BramPort

end Switcheck
