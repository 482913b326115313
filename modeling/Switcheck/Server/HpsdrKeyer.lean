import Mathlib.Data.Fin.VecNotation
import Switcheck.Modules.Verilog
import Switcheck.Sync.Circuit
import Switcheck.Sync.Script

/-!
# The keyer of `sdr-transceiver-hpsdr`

`handler_keyer` runs beside the main loop, whose `process_ep2` stores the settings. A step is one
access of one of them to what they share.
-/

namespace Switcheck

open Sync Circuit

namespace HpsdrKeyer

structure Settings where
  cwIntData : BitVec 8
  dacLevelData : BitVec 8
  cwHang : BitVec 16
  cwReversed : BitVec 8
  cwSpeed : BitVec 8
  cwMode : BitVec 8
  cwWeight : BitVec 8
  cwSpacing : BitVec 8
  cwDelay : BitVec 8
  deriving DecidableEq

/-- A store of `process_ep2` to one of them. -/
inductive Store where
  | cwIntData (value : BitVec 8)
  | dacLevelData (value : BitVec 8)
  | cwHang (value : BitVec 16)
  | cwReversed (value : BitVec 8)
  | cwSpeed (value : BitVec 8)
  | cwMode (value : BitVec 8)
  | cwWeight (value : BitVec 8)
  | cwSpacing (value : BitVec 8)
  | cwDelay (value : BitVec 8)
  deriving DecidableEq

def Settings.store (s : Settings) : Store → Settings
  | .cwIntData value => { s with cwIntData := value }
  | .dacLevelData value => { s with dacLevelData := value }
  | .cwHang value => { s with cwHang := value }
  | .cwReversed value => { s with cwReversed := value }
  | .cwSpeed value => { s with cwSpeed := value }
  | .cwMode value => { s with cwMode := value }
  | .cwWeight value => { s with cwWeight := value }
  | .cwSpacing value => { s with cwSpacing := value }
  | .cwDelay value => { s with cwDelay := value }

/-- The control bytes of half a datagram. -/
abbrev Frame := Fin 5 → BitVec 8

def processEp2 (frame : Frame) : List Store :=
  match (frame 0).toNat with
  | 22 | 23 => [.cwReversed ((frame 2 >>> 6) &&& 1), .cwSpeed (frame 3 &&& 63),
      .cwMode ((frame 3 >>> 6) &&& 3), .cwWeight (frame 4 &&& 127),
      .cwSpacing ((frame 4 >>> 7) &&& 1)]
  | 30 | 31 => [.cwIntData (frame 1 &&& 1), .dacLevelData (frame 2), .cwDelay (frame 3)]
  | 32 | 33 => [.cwHang (((frame 1).setWidth 16 <<< 2) ||| ((frame 2).setWidth 16 &&& 3))]
  | _ => []

/-- The loops that count `delay` down. Those of `cw_on` and `cw_signal_delay` are the same. -/
inductive Wait where
  | signal
  | off
  | space
  deriving DecidableEq

/-- The bits of `tx_rst` that the keyer sets and clears. -/
inductive TxRst where
  | fifo
  | rf
  | sidetone
  | mux
  | ptt
  deriving DecidableEq

def TxRst.mask : TxRst → BitVec 8
  | fifo => 1
  | rf => 4
  | sidetone => 8
  | mux => 16
  | ptt => 32

/-- The statements of the keyer, with those that read two shared variables in two parts. -/
inductive Statement where
  | usleep
  | usleepDelay
  | txRstOr (bit : TxRst)
  | txRstAnd (bit : TxRst)
  | cwPtt (on : Bool)
  | txMuxData (on : Bool)
  | sidetoneOn
  | sidetoneOff
  | cwInput
  | pads
  | reversed
  | memory
  | memoryMode
  | clearMemory
  | dot
  | dashWeight
  | dash
  | word
  | lessCwDelay
  | notNegative
  | limitDelay
  | limitCwDelay
  | whileDelay (wait : Wait)
  | hang
  | hangCwHang
  | ifPtt
  | cwPttOff
  | loop
  | ifInput
  | ifMode
  | straight
  | iambic
  | forget
  | other
  | ifSpacing
  | again
  deriving DecidableEq

/-- What the keyer reads and writes, its locals `delay`, `state` and `input` among them; no two
functions that have a `delay` are in each other. -/
structure Vars where
  settings : Settings
  txRst : BitVec 8
  cwPtt : BitVec 8
  txMuxData : BitVec 8
  cwMemory0 : BitVec 32
  cwMemory1 : BitVec 32
  cwPttDelay : Int
  delay : Int
  state : Nat
  input : BitVec 32
  deriving DecidableEq

open Statement

def cwOn : List Statement :=
  [dot, limitDelay, txRstOr .ptt, cwPtt true, txRstOr .mux, txMuxData true, sidetoneOn,
    whileDelay .signal, txRstOr .rf]

def cwOff : List Statement :=
  [dot, limitDelay, sidetoneOff, whileDelay .off, txRstAnd .rf, hang]

def cwSignalDelay (code : Nat) : List Statement :=
  (if code ≠ 0 then [dot] else [dashWeight, dash]) ++
    [lessCwDelay, notNegative, whileDelay .signal]

def cwSpaceDelay (code : Nat) : List Statement :=
  (if code ≠ 0 then [dot, lessCwDelay] else [word]) ++ [notNegative, whileDelay .space]

/-- What `cw_ptt_off` does once its count is over. -/
def pttOff : List Statement :=
  [txRstAnd .ptt, cwPtt false, txRstAnd .fifo, txRstOr .fifo, txRstAnd .mux, txMuxData false]

def Wait.body : Wait → List Statement
  | .signal => [usleep, cwInput, memoryMode]
  | .off => [usleep, cwInput, memory]
  | .space => [usleep, ifPtt, cwInput, memory]

/-- A division, with nothing after it if the divisor is zero. -/
def divide (v : Vars) (dividend : Int) (divisor : Nat) : Option (Vars × List Statement) :=
  if divisor = 0 then none else some ({ v with delay := dividend / divisor }, [])

def exec (codec : Bool) (statement : Statement) (v : Vars) (gpioIn : BitVec 8) :
    Option (Vars × List Statement) :=
  match statement with
  | usleep => some (v, [])
  | usleepDelay => some (v, [])
  | txRstOr bit => some ({ v with txRst := v.txRst ||| bit.mask }, [])
  | txRstAnd bit => some ({ v with txRst := v.txRst &&& ~~~bit.mask }, [])
  | cwPtt on => some ({ v with cwPtt := if on then 1 else 0 }, [])
  | txMuxData on => some ({ v with txMuxData := if on then 1 else 0 }, [])
  | sidetoneOn =>
    some (v, if codec = true ∧ v.settings.dacLevelData ≠ 0 then [txRstOr .sidetone] else [])
  | sidetoneOff => some (v, if codec = true then [txRstAnd .sidetone] else [])
  | cwInput =>
    if v.settings.cwIntData = 0 then some ({ v with cwMemory0 := 0 }, [])
    else some (v, [pads, reversed])
  | pads => some ({ v with input := (gpioIn.setWidth 32 >>> 1) &&& 3 }, [])
  | reversed =>
    if v.settings.cwReversed = 0 then some ({ v with cwMemory0 := v.input }, [])
    else some ({ v with cwMemory0 := ((v.input &&& 1) <<< 1) ||| (v.input >>> 1) }, [])
  | memory => some ({ v with cwMemory1 := v.cwMemory1 ||| v.cwMemory0 }, [])
  | memoryMode =>
    if v.settings.cwMode = 1 ∧ v.cwMemory0 = 0 then some ({ v with cwMemory1 := 0 }, [])
    else some ({ v with cwMemory1 := v.cwMemory1 ||| v.cwMemory0 }, [])
  | clearMemory => some ({ v with cwMemory1 := 0 }, [])
  | dot => divide v 1200 v.settings.cwSpeed.toNat
  | dashWeight => some ({ v with delay := 3600 * v.settings.cwWeight.toNat }, [])
  | dash => divide v v.delay (50 * v.settings.cwSpeed.toNat)
  | word => divide v 2400 v.settings.cwSpeed.toNat
  | lessCwDelay => some ({ v with delay := v.delay - v.settings.cwDelay.toNat }, [])
  | notNegative => some (if v.delay < 0 then { v with delay := 0 } else v, [])
  | limitDelay => some (v, if v.settings.cwDelay.toNat < v.delay then [limitCwDelay] else [])
  | limitCwDelay => some ({ v with delay := v.settings.cwDelay.toNat }, [])
  | whileDelay wait =>
    some ({ v with delay := v.delay - 1 },
      if v.delay ≠ 0 then wait.body ++ [whileDelay wait] else [])
  | hang =>
    if v.settings.cwHang.toNat > 0 then some (v, [hangCwHang])
    else some ({ v with cwPttDelay := 10 }, [])
  | hangCwHang => some ({ v with cwPttDelay := v.settings.cwHang.toNat }, [])
  | ifPtt => some (v, if v.cwPtt ≠ 0 then [cwPttOff] else [])
  | cwPttOff =>
    some ({ v with cwPttDelay := v.cwPttDelay - 1 }, if v.cwPttDelay - 1 > 0 then [] else pttOff)
  | loop => some (v, [usleep, ifPtt, cwInput, ifInput])
  | ifInput => some (v, if v.cwMemory0 = 0 then [loop] else [ifMode])
  | ifMode =>
    if v.settings.cwMode = 0 then
      if v.cwMemory0 &&& 1 ≠ 0 then some (v, cwOn ++ [straight])
      else
        some (v, cwOn ++ [dot, lessCwDelay, usleepDelay] ++ cwOff ++ cwSpaceDelay 1 ++ [loop])
    else some ({ v with state := 1, cwMemory1 := v.cwMemory0 }, [iambic])
  | straight =>
    some (v, if v.cwMemory0 &&& 1 ≠ 0 then [usleep, cwInput, straight] else cwOff ++ [loop])
  | iambic =>
    some (v, if v.cwMemory1 &&& (1#32 <<< v.state) ≠ 0 then
      [clearMemory] ++ cwOn ++ cwSignalDelay v.state ++ cwOff ++ cwSpaceDelay 1 ++
        [forget, memory, other]
    else [other])
  | forget => some ({ v with cwMemory1 := v.cwMemory1 &&& ~~~(1#32 <<< v.state) }, [])
  | other =>
    if v.cwMemory1 ≠ 0 then some ({ v with state := v.state ^^^ 1 }, [iambic])
    else some (v, [ifSpacing])
  | ifSpacing =>
    if v.settings.cwSpacing ≠ 0 then some ({ v with state := 1 }, cwSpaceDelay 0 ++ [again])
    else some (v, [loop])
  | again => some (v, if v.cwMemory1 ≠ 0 then [iambic] else [loop])

end HpsdrKeyer

/-- The stores that the frames received so far have still to make, and the keyer. -/
structure HpsdrKeyer where
  stores : List HpsdrKeyer.Store
  keyer : Thread HpsdrKeyer.Vars HpsdrKeyer.Statement

namespace HpsdrKeyer

inductive Move where
  | frame (frame : Frame)
  | store
  | keyer (gpioIn : BitVec 8)

def store (s : HpsdrKeyer) : HpsdrKeyer :=
  match s.stores with
  | [] => s
  | first :: rest =>
    { stores := rest
      keyer := { s.keyer with
        vars := { s.keyer.vars with settings := s.keyer.vars.settings.store first } } }

def step (codec : Bool) (s : HpsdrKeyer) : Move → HpsdrKeyer
  | .frame frame => { s with stores := s.stores ++ processEp2 frame }
  | .store => s.store
  | .keyer gpioIn => { s with keyer := s.keyer.step (exec codec) gpioIn }

/-- `main` sets up `tx_rst`, which is zero in a new bitstream, and starts the keyer. -/
def setUp (txRst : BitVec 8) : BitVec 8 := ((txRst &&& ~~~16) &&& ~~~3) ||| 3

def start : HpsdrKeyer where
  stores := []
  keyer :=
    { vars :=
        { settings := ⟨0, 0, 0, 0, 25, 0, 50, 0, 0⟩
          txRst := setUp 0
          cwPtt := 0
          txMuxData := 0
          cwMemory0 := 0
          cwMemory1 := 0
          cwPttDelay := 0
          delay := 0
          state := 0
          input := 0 }
      todo := [Statement.loop]
      failed := false }

def circuit (codec : Bool) : Circuit HpsdrKeyer Move where
  Reset s := s = start
  tick := step codec

abbrev Tick := Clock HpsdrKeyer Move

variable {codec : Bool} {past : List Tick} {s : HpsdrKeyer} {statement : Statement}
  {v v' : Vars} {gpioIn : BitVec 8} {body : List Statement}

theorem divide_none {dividend : Int} {divisor : Nat} :
    divide v dividend divisor = none ↔ divisor = 0 := by
  unfold divide
  split <;> simp_all

theorem divide_some {dividend : Int} {divisor : Nat}
    (ran : divide v dividend divisor = some (v', body)) :
    v' = { v with delay := dividend / divisor } ∧ body = [] := by
  unfold divide at ran
  split at ran <;> cases ran
  exact ⟨rfl, rfl⟩

def isStore : Statement → Bool
  | .txRstOr _ | .txRstAnd _ | .cwPtt _ | .txMuxData _ => true
  | _ => false

/-- No statement changes the settings, and only the stores change what the radio sees. -/
theorem exec_keeps (ran : exec codec statement v gpioIn = some (v', body)) :
    v'.settings = v.settings ∧ (isStore statement = false →
      v'.txRst = v.txRst ∧ v'.cwPtt = v.cwPtt ∧ v'.txMuxData = v.txMuxData) := by
  cases statement with
  | txRstOr | txRstAnd | cwPtt | txMuxData =>
    cases ran
    exact ⟨rfl, fun other => by cases other⟩
  | dot | dash | word =>
    rw [(divide_some ran).1]
    exact ⟨rfl, fun _ => ⟨rfl, rfl, rfl⟩⟩
  | notNegative =>
    cases ran
    split <;> exact ⟨rfl, fun _ => ⟨rfl, rfl, rfl⟩⟩
  | cwInput | reversed | memoryMode | hang | other | ifSpacing =>
    rw [exec] at ran
    split at ran <;> cases ran <;> exact ⟨rfl, fun _ => ⟨rfl, rfl, rfl⟩⟩
  | ifMode =>
    rw [exec] at ran
    repeat split at ran
    all_goals
      cases ran
      exact ⟨rfl, fun _ => ⟨rfl, rfl, rfl⟩⟩
  | _ =>
    cases ran
    exact ⟨rfl, fun _ => ⟨rfl, rfl, rfl⟩⟩

/-! ### Divisions -/

/-- A frame that sets the speed sets it to one at least. -/
def SetsSpeed (_ : List Tick) (c : Tick) : Prop :=
  match c.pins with
  | .frame frame => (frame 0).toNat = 22 ∨ (frame 0).toNat = 23 → frame 3 &&& 63 ≠ 0
  | _ => True

structure Divides (s : HpsdrKeyer) : Prop where
  speed : s.keyer.vars.settings.cwSpeed ≠ 0
  stores : Store.cwSpeed 0 ∉ s.stores
  running : s.keyer.failed = false

theorem exec_speed (stops : exec codec statement v gpioIn = none) : v.settings.cwSpeed = 0 := by
  refine BitVec.eq_of_toNat_eq ?_
  cases statement with
  | dot | word => exact divide_none.mp stops
  | dash => exact (Nat.mul_eq_zero.mp (divide_none.mp stops)).resolve_left (by decide)
  | cwInput | reversed | memoryMode | hang | other | ifSpacing =>
    rw [exec] at stops
    split at stops <;> cases stops
  | ifMode =>
    rw [exec] at stops
    repeat split at stops
    all_goals cases stops
  | _ => cases stops

theorem processEp2_speed {frame : Frame} (sets : Store.cwSpeed 0 ∈ processEp2 frame) :
    ((frame 0).toNat = 22 ∨ (frame 0).toNat = 23) ∧ frame 3 &&& 63 = 0 := by
  unfold processEp2 at sets
  split at sets <;> simp_all

theorem Settings.store_speed {settings : Settings} {value : Store} (speed : settings.cwSpeed ≠ 0)
    (other : value ≠ .cwSpeed 0) : (settings.store value).cwSpeed ≠ 0 := by
  cases value with
  | cwSpeed value => exact fun zero => other (congrArg Store.cwSpeed zero)
  | _ => exact speed

theorem divides_store (divides : Divides s) : Divides s.store := by
  obtain ⟨speed, stores, running⟩ := divides
  obtain ⟨pending, keyer⟩ := s
  cases pending with
  | nil => exact ⟨speed, stores, running⟩
  | cons first rest =>
    rw [List.mem_cons, not_or] at stores
    exact ⟨Settings.store_speed speed (Ne.symm stores.1), stores.2, running⟩

theorem divides_keyer (divides : Divides s) (gpioIn : BitVec 8) :
    Divides (step codec s (.keyer gpioIn)) := by
  obtain ⟨speed, stores, running⟩ := divides
  rcases s.keyer.step_cases (exec codec) gpioIn with same | ⟨op, -, -, stops, -⟩ | ⟨op, rest, vars,
    body, -, ran, next⟩
  · refine ⟨?_, stores, ?_⟩
    · rw [step, same]
      exact speed
    · rw [step, same]
      exact running
  · exact absurd (exec_speed stops) speed
  · refine ⟨?_, stores, ?_⟩
    · rw [step, next]
      exact (exec_keeps ran).1.symm ▸ speed
    · rw [step, next]
      exact running

/-- In every run whose frames set a speed of one at least, no division has a zero divisor. -/
theorem run_divides (run : (circuit codec).Run past s) (speeds : Held SetsSpeed past) :
    s.keyer.failed = false := by
  refine (run.invariant (P := fun _ => Divides) ?_ ?_ speeds).running
  · rintro s rfl
    exact ⟨by decide, List.not_mem_nil, rfl⟩
  · intro past s i _ divides sets
    cases i with
    | store => exact divides_store divides
    | keyer gpioIn => exact divides_keyer divides gpioIn
    | frame frame =>
      obtain ⟨speed, stores, running⟩ := divides
      refine ⟨speed, ?_, running⟩
      show _ ∉ s.stores ++ processEp2 frame
      rw [List.mem_append, not_or]
      refine ⟨stores, fun member => ?_⟩
      obtain ⟨kind, zero⟩ := processEp2_speed member
      exact sets kind zero

/-- The frames and their stores. -/
def sends (frames : List Frame) : List Move :=
  frames.map .frame ++ frames.flatMap fun frame => (processEp2 frame).map fun _ => .store

/-- The internal keyer is on. -/
def enables : Frame := ![30, 1, 0, 0, 0]

def speed (value : BitVec 8) : Frame := ![22, 0, 0, value, 0]

/-- The key is down. -/
def key (steps : Nat) : List Move := List.replicate steps (.keyer 2)

instance (past : List Tick) : (c : Tick) → Decidable (SetsSpeed past c)
  | ⟨_, .frame frame⟩ => inferInstanceAs (Decidable
      ((frame 0).toNat = 22 ∨ (frame 0).toNat = 23 → frame 3 &&& 63 ≠ 0))
  | ⟨_, .store⟩ => inferInstanceAs (Decidable True)
  | ⟨_, .keyer _⟩ => inferInstanceAs (Decidable True)

theorem run_divides_speed :
    ((circuit true).after start (sends [enables, speed 20] ++ key 18)).keyer.failed = false :=
  run_divides (run_trace (C := circuit true) rfl _) (by decide)

/-- A speed of zero and the key: `cw_on` divides by it. -/
theorem speed0_fails : ¬ ∀ (past : List Tick) (s : HpsdrKeyer),
    (circuit true).Run past s → s.keyer.failed = false := by
  intro claim
  have runs := claim _ _ (run_trace (C := circuit true) rfl (sends [enables, speed 0] ++ key 9))
  exact absurd runs (by decide)

/-! ### The carrier -/

/-- The first `n` of the four steps that take the transmitter have been made; at five the carrier
may be on. -/
structure Taken (n : Nat) (v : Vars) : Prop where
  off : n < 5 → v.txRst.getLsbD 2 = false
  ptt : 1 ≤ n → v.txRst.getLsbD 5 = true
  cwPtt : 2 ≤ n → v.cwPtt = 1
  mux : 3 ≤ n → v.txRst.getLsbD 4 = true
  txMuxData : 4 ≤ n → v.txMuxData = 1

/-- How many of them each statement needs, and leaves; most do not touch them. -/
def phase : Statement → Option (Nat × Nat)
  | .txRstOr .ptt => some (0, 1)
  | .cwPtt true => some (1, 2)
  | .txRstOr .mux => some (2, 3)
  | .txMuxData true => some (3, 4)
  | .sidetoneOn | .txRstOr .sidetone => some (4, 4)
  | .txRstOr .rf => some (4, 5)
  | .sidetoneOff | .txRstAnd .sidetone => some (5, 5)
  | .straight | .txRstAnd .rf => some (5, 0)
  | .txRstOr .fifo | .txRstAnd _ | .cwPtt false | .txMuxData false | .ifPtt | .cwPttOff
  | .whileDelay .space | .loop | .ifInput | .ifMode | .iambic | .other | .ifSpacing
  | .again => some (0, 0)
  | _ => none

def after (statement : Statement) (n : Nat) : Option Nat :=
  match phase statement with
  | none => some n
  | some (pre, post) => if n = pre then some post else none

def outline : Outline Vars Statement Nat := ⟨Taken, after⟩

theorem Taken.frame {n : Nat} (taken : Taken n v) (txRst : v'.txRst = v.txRst)
    (cwPtt : v'.cwPtt = v.cwPtt) (txMuxData : v'.txMuxData = v.txMuxData) : Taken n v' := by
  obtain ⟨off, ptt, keyed, mux, muxed⟩ := taken
  rw [← txRst] at off ptt mux
  exact ⟨off, ptt, cwPtt ▸ keyed, mux, txMuxData ▸ muxed⟩

theorem through_plain {n : Nat} (plain : ∀ op ∈ body, phase op = none) :
    outline.through body n = some n := by
  induction body with
  | nil => rfl
  | cons op rest ih =>
    rw [List.forall_mem_cons] at plain
    have here : outline.after op n = some n := by simp [outline, after, plain.1]
    rw [Outline.through, here]
    exact ih plain.2

theorem body_plain (plain : phase statement = none)
    (ran : exec codec statement v gpioIn = some (v', body)) : ∀ op ∈ body, phase op = none := by
  cases statement with
  | txRstOr bit => cases bit <;> cases plain
  | txRstAnd bit => cases bit <;> cases plain
  | cwPtt on => cases on <;> cases plain
  | txMuxData on => cases on <;> cases plain
  | dot | dash | word =>
    rw [(divide_some ran).2]
    exact List.forall_mem_nil _
  | whileDelay wait =>
    cases ran
    split
    · cases wait <;> cases plain <;> decide
    · exact List.forall_mem_nil _
  | limitDelay =>
    cases ran
    split <;> decide
  | cwInput | reversed | memoryMode | hang =>
    rw [exec] at ran
    split at ran <;> cases ran <;> decide
  | usleep | usleepDelay | pads | memory | clearMemory | dashWeight | lessCwDelay | notNegative
  | limitCwDelay | hangCwHang | forget =>
    cases ran
    exact List.forall_mem_nil _
  | _ => cases plain

theorem isStore_of_plain (plain : phase statement = none) : isStore statement = false := by
  cases statement with
  | txRstOr bit => cases bit <;> cases plain
  | txRstAnd bit => cases bit <;> cases plain
  | cwPtt on => cases on <;> cases plain
  | txMuxData on => cases on <;> cases plain
  | _ => rfl

theorem store_taken {pre post : Nat} (store : isStore statement = true)
    (needs : phase statement = some (pre, post)) (taken : Taken pre v)
    (ran : exec codec statement v gpioIn = some (v', body)) : body = [] ∧ Taken post v' := by
  obtain ⟨off, ptt, keyed, mux, muxed⟩ := taken
  cases statement with
  | txRstOr bit =>
    cases ran
    refine ⟨rfl, ?_⟩
    cases bit <;> cases needs <;> constructor <;> simp_all [TxRst.mask]
  | txRstAnd bit =>
    cases ran
    refine ⟨rfl, ?_⟩
    cases bit <;> cases needs <;> constructor <;> simp_all [TxRst.mask]
  | cwPtt on =>
    cases ran
    refine ⟨rfl, ?_⟩
    cases on <;> cases needs <;> constructor <;> simp_all
  | txMuxData on =>
    cases ran
    refine ⟨rfl, ?_⟩
    cases on <;> cases needs <;> constructor <;> simp_all
  | _ => cases store

theorem through_cwOn : outline.through cwOn 0 = some 5 := rfl

theorem through_cwOff : outline.through cwOff 5 = some 0 := rfl

theorem through_cwSignalDelay (code n : Nat) :
    outline.through (cwSignalDelay code) n = some n := by
  refine through_plain ?_
  unfold cwSignalDelay
  split <;> decide

theorem through_cwSpaceDelay (code : Nat) : outline.through (cwSpaceDelay code) 0 = some 0 := by
  unfold cwSpaceDelay
  split <;> rfl

/-- An element of the automatic modes. -/
theorem through_element (code : Nat) :
    outline.through ([.clearMemory] ++ cwOn ++ cwSignalDelay code ++ cwOff ++ cwSpaceDelay 1 ++
      [.forget, .memory, .other]) 0 = some 0 := by
  have clear : outline.through [.clearMemory] 0 = some 0 := rfl
  have rest : outline.through [.forget, .memory, .other] 0 = some 0 := rfl
  simp only [Outline.through_append, clear, through_cwOn, through_cwSignalDelay, through_cwOff,
    through_cwSpaceDelay, rest, Option.bind_some]

theorem body_through {pre post : Nat} (other : isStore statement = false)
    (needs : phase statement = some (pre, post))
    (ran : exec codec statement v gpioIn = some (v', body)) :
    outline.through body pre = some post := by
  cases statement with
  | whileDelay wait =>
    cases wait <;> cases needs
    cases ran
    split <;> rfl
  | loop =>
    cases needs
    cases ran
    rfl
  | iambic =>
    cases needs
    cases ran
    split
    · exact through_element v.state
    · rfl
  | ifMode =>
    cases needs
    rw [exec] at ran
    split at ran
    · split at ran <;> cases ran <;> rfl
    · cases ran
      rfl
  | other =>
    cases needs
    rw [exec] at ran
    split at ran <;> cases ran <;> rfl
  | ifSpacing =>
    cases needs
    rw [exec] at ran
    split at ran <;> cases ran <;> rfl
  | sidetoneOn | sidetoneOff | straight | ifPtt | cwPttOff | ifInput | again =>
    cases needs
    cases ran
    split <;> rfl
  | _ => first | cases needs | cases other

theorem sound : outline.Sound (exec codec) := by
  intro statement n m v i v' body leads taken ran
  cases needs : phase statement with
  | none =>
    obtain rfl : n = m := by simpa [outline, after, needs] using leads
    obtain ⟨txRst, cwPtt, txMuxData⟩ := (exec_keeps ran).2 (isStore_of_plain needs)
    exact ⟨n, Taken.frame taken txRst cwPtt txMuxData, through_plain (body_plain needs ran)⟩
  | some pair =>
    obtain ⟨pre, post⟩ := pair
    obtain ⟨rfl, rfl⟩ : n = pre ∧ post = m := by simpa [outline, after, needs] using leads
    cases store : isStore statement with
    | true =>
      obtain ⟨rfl, taken'⟩ := store_taken store needs taken ran
      exact ⟨post, taken', rfl⟩
    | false =>
      obtain ⟨txRst, cwPtt, txMuxData⟩ := (exec_keeps ran).2 store
      exact ⟨n, Taken.frame taken txRst cwPtt txMuxData, body_through store needs ran⟩

theorem covers_store (covers : outline.Covers s.keyer) : outline.Covers s.store.keyer := by
  obtain ⟨pending, keyer⟩ := s
  cases pending with
  | nil => exact covers
  | cons => exact covers.frame fun _ taken => Taken.frame taken rfl rfl rfl

theorem run_covers (run : (circuit codec).Run past s) : outline.Covers s.keyer := by
  induction run with
  | reset start =>
    subst start
    exact ⟨0, ⟨fun _ => by decide, by simp, by simp, by simp, by simp⟩, rfl⟩
  | tick run i ih =>
    cases i with
    | frame frame => exact ih
    | store => exact covers_store ih
    | keyer gpioIn => exact ih.step sound gpioIn

/-- While bit 2 of `tx_rst` lets the carrier through, bits 5 and 4 hold PTT and the transmitter's
multiplexer, and the flags of both are set. -/
theorem run_carrier (run : (circuit codec).Run past s)
    (carrier : s.keyer.vars.txRst.getLsbD 2 = true) :
    s.keyer.vars.txRst.getLsbD 5 = true ∧ s.keyer.vars.txRst.getLsbD 4 = true ∧
      s.keyer.vars.cwPtt = 1 ∧ s.keyer.vars.txMuxData = 1 := by
  obtain ⟨n, taken, -⟩ := run_covers run
  have all : 5 ≤ n := by
    by_contra fewer
    rw [taken.off (by omega)] at carrier
    cases carrier
  exact ⟨taken.ptt (by omega), taken.mux (by omega), taken.cwPtt (by omega),
    taken.txMuxData (by omega)⟩

theorem run_carrier_key :
    ((circuit true).after start (sends [enables, speed 20] ++ key 18)).keyer.vars.cwPtt = 1 :=
  (run_carrier (run_trace (C := circuit true) rfl _) (by decide)).2.2.1

end HpsdrKeyer

end Switcheck
