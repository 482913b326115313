import Mathlib.Data.List.Forall2
import Switcheck.Sync.Circuit
import Switcheck.Modules.Buffers

/-!
# `axis_gate_controller`

An event plays for one clock more than its count: the first clock from the input port, the others
from the registers, while a counter runs down.
-/

namespace Switcheck

open Sync Circuit

structure GateController where
  intCntrReg : BitVec 64
  intDataReg : BitVec 49
  intPoffReg : BitVec 32
  intLevelReg : BitVec 16
  intDoutReg : Bool
  deriving DecidableEq

structure GatePins where
  sAxisTdata : BitVec 128
  sAxisTvalid : Bool

/-- An event as it is cut out of the input word: the count, and what is shown while it plays. -/
structure GateEvent where
  count : BitVec 64
  data : BitVec 49
  deriving DecidableEq

structure GateOutput where
  poff : BitVec 32
  level : BitVec 16
  dout : Bool
  deriving DecidableEq

namespace GateEvent

def ofWord (tdata : BitVec 128) : GateEvent := ⟨tdata.extractLsb' 0 64, tdata.extractLsb' 64 49⟩

def poff (e : GateEvent) : BitVec 32 := e.data.extractLsb' 0 32

def level (e : GateEvent) : BitVec 16 := e.data.extractLsb' 32 16

def gate (e : GateEvent) : Bool := e.data.getLsbD 48

def output (e : GateEvent) : GateOutput := ⟨e.poff, e.level, e.gate⟩

end GateEvent

namespace GateController

/-- `|int_cntr_reg`. -/
def intEnblWire (s : GateController) : Bool := s.intCntrReg != 0

def intDataWire (s : GateController) (i : GatePins) : BitVec 49 :=
  if s.intEnblWire then s.intDataReg else i.sAxisTdata.extractLsb' 64 49

def sAxisTready (aresetn : Bool) (s : GateController) : Bool := !s.intEnblWire && aresetn

def posedge (aresetn : Bool) (s : GateController) (i : GatePins) : GateController where
  intCntrReg :=
    if !aresetn then 0
    else if s.intEnblWire then s.intCntrReg - 1
    else if i.sAxisTvalid then i.sAxisTdata.extractLsb' 0 64
    else s.intCntrReg
  intDataReg :=
    if !aresetn then 0
    else if s.intEnblWire then s.intDataReg
    else if i.sAxisTvalid then i.sAxisTdata.extractLsb' 64 49
    else s.intDataReg
  intPoffReg := if !aresetn then 0 else (s.intDataWire i).extractLsb' 0 32
  intLevelReg := if !aresetn then 0 else (s.intDataWire i).extractLsb' 32 16
  intDoutReg :=
    if !aresetn then false
    else (s.intDataWire i).getLsbD 48 && (s.intEnblWire || i.sAxisTvalid)

def circuit : Circuit GateController GatePins where
  Reset s := ∃ s₀ i, s = posedge false s₀ i
  tick := posedge true

abbrev Tick := Clock GateController GatePins

/-! ### The ports -/

def accepted (c : Tick) : List GateEvent :=
  beat (c.pins.sAxisTvalid && c.regs.sAxisTready true) (GateEvent.ofWord c.pins.sAxisTdata)

def output (s : GateController) : GateOutput := ⟨s.intPoffReg, s.intLevelReg, s.intDoutReg⟩

/-- The pins in the clock after `c`. -/
def shown (c : Tick) : GateOutput := (posedge true c.regs c.pins).output

/-! ### What is to be played -/

/-- What starts in a clock in which the input port is ready: the event it takes, or an idle
clock when there is none to take. -/
def starts (c : Tick) : List (Option GateEvent) :=
  if c.regs.sAxisTready true then
    [if c.pins.sAxisTvalid then some (GateEvent.ofWord c.pins.sAxisTdata) else none]
  else []

def lasts (e : Option GateEvent) : List (Option GateEvent) :=
  List.replicate ((e.map fun e => e.count.toNat).getD 0 + 1) e

/-- What the clocks started so far last, the whole of an event that is not over included. -/
def schedule (past : List Tick) : List (Option GateEvent) := (past.flatMap starts).flatMap lasts

inductive Shows : Option GateEvent → GateOutput → Prop where
  | event (e : GateEvent) : Shows (some e) e.output
  | idle (o : GateOutput) : o.dout = false → Shows none o

variable {past : List Tick} {s : GateController} {i : GatePins}

/-- The schedule is what has been shown and the rest of the event that plays. -/
def Playing (past : List Tick) (s : GateController) : Prop :=
  ∃ played e, schedule past = played ++ List.replicate s.intCntrReg.toNat (some e) ∧
    List.Forall₂ Shows played (past.map shown) ∧ (s.intEnblWire = true → s.intDataReg = e.data)

theorem intEnblWire_eq_false : s.intEnblWire = false ↔ s.intCntrReg = 0 := by
  simp [intEnblWire]

theorem schedule_snoc (past : List Tick) (c : Tick) :
    schedule (past ++ [c]) = schedule past ++ (starts c).flatMap lasts := by
  simp [schedule]

theorem shown_enabled (enabled : s.intEnblWire = true) (e : GateEvent)
    (data : s.intDataReg = e.data) : shown ⟨s, i⟩ = e.output := by
  simp [shown, posedge, output, intDataWire, enabled, data, GateEvent.output, GateEvent.poff,
    GateEvent.level, GateEvent.gate]

theorem shown_taken (ready : s.intEnblWire = false) (valid : i.sAxisTvalid = true) :
    shown ⟨s, i⟩ = (GateEvent.ofWord i.sAxisTdata).output := by
  simp [shown, posedge, output, intDataWire, ready, valid, GateEvent.output, GateEvent.poff,
    GateEvent.level, GateEvent.gate, GateEvent.ofWord]

theorem shown_idle (ready : s.intEnblWire = false) (none : i.sAxisTvalid = false) :
    (shown ⟨s, i⟩).dout = false := by
  simp [shown, posedge, output, ready, none]

theorem playing_onward (inv : Playing past s) (enabled : s.intEnblWire = true) :
    Playing (past ++ [⟨s, i⟩]) (posedge true s i) := by
  obtain ⟨played, e, plan, shows, data⟩ := inv
  have count : s.intCntrReg.toNat = (posedge true s i).intCntrReg.toNat + 1 := by
    have nonzero : s.intCntrReg ≠ 0 := by simpa [intEnblWire] using enabled
    have positive : s.intCntrReg.toNat ≠ 0 := fun zero => nonzero (BitVec.eq_of_toNat_eq zero)
    simp only [posedge, enabled, Bool.not_true, Bool.false_eq_true, if_false, if_true]
    bv_omega
  have none : starts ⟨s, i⟩ = [] := by simp [starts, sAxisTready, enabled]
  refine ⟨played ++ [some e], e, ?_, ?_, fun _ => ?_⟩
  · rw [schedule_snoc, none, List.flatMap_nil, List.append_nil, plan, count, List.replicate_succ,
      List.append_assoc, List.singleton_append]
  · rw [List.map_append, List.map_singleton]
    refine List.rel_append shows (.cons ?_ .nil)
    rw [shown_enabled enabled e (data enabled)]
    exact .event e
  · rw [← data enabled]
    simp [posedge, enabled]

theorem playing_taken (inv : Playing past s) (ready : s.intEnblWire = false)
    (valid : i.sAxisTvalid = true) : Playing (past ++ [⟨s, i⟩]) (posedge true s i) := by
  obtain ⟨played, _, plan, shows, -⟩ := inv
  have zero := intEnblWire_eq_false.mp ready
  have whole : schedule past = played := by simpa [zero] using plan
  have takes : starts ⟨s, i⟩ = [some (GateEvent.ofWord i.sAxisTdata)] := by
    simp [starts, sAxisTready, ready, valid]
  have count : (posedge true s i).intCntrReg = (GateEvent.ofWord i.sAxisTdata).count := by
    simp [posedge, ready, valid, GateEvent.ofWord]
  refine ⟨played ++ [some (GateEvent.ofWord i.sAxisTdata)], GateEvent.ofWord i.sAxisTdata, ?_, ?_,
    fun _ => ?_⟩
  · rw [schedule_snoc, takes, whole, count, List.flatMap_singleton, lasts, Option.map_some,
      Option.getD_some, List.replicate_succ, List.append_assoc, List.singleton_append]
  · rw [List.map_append, List.map_singleton]
    refine List.rel_append shows (.cons ?_ .nil)
    rw [shown_taken ready valid]
    exact .event _
  · simp [posedge, ready, valid, GateEvent.ofWord]

theorem playing_idle (inv : Playing past s) (ready : s.intEnblWire = false)
    (none : i.sAxisTvalid = false) : Playing (past ++ [⟨s, i⟩]) (posedge true s i) := by
  obtain ⟨played, e, plan, shows, -⟩ := inv
  have zero := intEnblWire_eq_false.mp ready
  have whole : schedule past = played := by simpa [zero] using plan
  have idles : starts ⟨s, i⟩ = [.none] := by simp [starts, sAxisTready, ready, none]
  have still : (posedge true s i).intCntrReg = 0 := by simp [posedge, ready, none, zero]
  refine ⟨played ++ [.none], e, ?_, ?_, fun enabled => ?_⟩
  · rw [schedule_snoc, idles, whole, still]
    simp [lasts]
  · rw [List.map_append, List.map_singleton]
    exact List.rel_append shows (.cons (.idle _ (shown_idle ready none)) .nil)
  · rw [intEnblWire_eq_false.mpr still] at enabled
    cases enabled

theorem run_playing (run : circuit.Run past s) : Playing past s := by
  induction run with
  | reset reset =>
    obtain ⟨s₀, i, rfl⟩ := reset
    refine ⟨[], ⟨0, 0⟩, rfl, .nil, fun enabled => ?_⟩
    simp [intEnblWire, posedge] at enabled
  | @tick past s run i ih =>
    cases enabled : s.intEnblWire with
    | true => exact playing_onward ih enabled
    | false =>
      cases valid : i.sAxisTvalid with
      | true => exact playing_taken ih enabled valid
      | false => exact playing_idle ih enabled valid

/-- The events in the schedule are the accepted ones, and it idles only when none is offered. -/
theorem starts_accepted (c : Tick) : (starts c).reduceOption = accepted c := by
  unfold starts accepted
  cases c.regs.sAxisTready true <;> cases c.pins.sAxisTvalid <;> rfl

/-- Each clock shows its entry of the schedule: every accepted event for one clock more than its
count, in order and without a break, and an idle clock for each in which the core was ready and
there was no event. -/
theorem run_plays (run : circuit.Run past s) :
    List.Forall₂ Shows ((schedule past).take past.length) (past.map shown) ∧
    (past.flatMap starts).reduceOption = past.flatMap accepted := by
  refine ⟨?_, reduceOption_flatMap starts_accepted past⟩
  obtain ⟨played, e, plan, shows, -⟩ := run_playing run
  have all : played.length = past.length := by
    rw [shows.length_eq, List.length_map]
  rw [plan, List.take_append_of_le_length (by omega), ← all, List.take_length]
  exact shows

def fresh : GateController := ⟨0, 0, 0, 0, false⟩

theorem fresh_reset : circuit.Reset fresh := ⟨fresh, ⟨0, false⟩, rfl⟩

def gateWord (count : BitVec 64) (poff : BitVec 32) (level : BitVec 16) : BitVec 128 :=
  0#15 ++ 1#1 ++ level ++ poff ++ count

/-- An event of two clocks, with one of a single clock waiting behind it. -/
def backToBack : List GatePins :=
  [⟨0, false⟩, ⟨gateWord 1 7 5, true⟩, ⟨gateWord 0 8 6, true⟩, ⟨gateWord 0 8 6, true⟩, ⟨0, false⟩]

theorem run_plays_backToBack :
    List.Forall₂ Shows ((schedule (circuit.trace fresh backToBack)).take 5)
      ((circuit.trace fresh backToBack).map shown) ∧
    ((circuit.trace fresh backToBack).map shown).map GateOutput.level = [0, 5, 5, 6, 0] :=
  ⟨(run_plays (run_trace fresh_reset backToBack)).1, by decide⟩

end GateController

end Switcheck
