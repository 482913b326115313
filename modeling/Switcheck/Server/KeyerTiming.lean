import Mathlib.Algebra.Ring.Nat
import Switcheck.Server.HpsdrKeyer

/-!
# The lengths of the keyer's elements

In the automatic modes the keyer sends dots and dashes. RF stays on while `cw_signal_delay` and
the loop of `cw_off` count, each up to a bound of its own; each `usleep(1000)` is a millisecond.
-/

namespace Switcheck

open Sync Circuit

namespace HpsdrKeyer

open Statement

/-- Where `handler_keyer` sends the element `code`: 0 is a dash and 1 a dot. -/
def element (code : Nat) : List Statement :=
  [clearMemory] ++ cwOn ++ cwSignalDelay code ++ cwOff

/-- The keyer is about to send an element. -/
def Begins (code : Nat) (s : HpsdrKeyer) : Prop :=
  s.keyer.failed = false ∧ element code <+: s.keyer.todo

/-- The keyer is about to turn RF off. -/
def Ends (s : HpsdrKeyer) : Prop := s.keyer.todo.head? = some (.txRstAnd .rf)

/-- The element that `s` is about to send, up to where RF is turned off, with the settings
constant. -/
structure Element (codec : Bool) (s : HpsdrKeyer) (moves : List Move) : Prop where
  settings : ∀ c ∈ (circuit codec).trace s moves,
    c.regs.keyer.vars.settings = s.keyer.vars.settings
  settled : ((circuit codec).after s moves).keyer.vars.settings = s.keyer.vars.settings
  within : ∀ c ∈ (circuit codec).trace s moves, ¬ Ends c.regs
  ends : Ends ((circuit codec).after s moves)

/-- The milliseconds with RF on. -/
def onAir : Statement → Vars → Nat
  | usleep, v => (v.txRst.getLsbD 2).toNat
  | _, _ => 0

def onAirAt (c : Tick) : Nat :=
  match c.pins, c.regs.keyer.failed, c.regs.keyer.todo with
  | .keyer _, false, op :: _ => onAir op c.regs.keyer.vars
  | _, _, _ => 0

def airTime (past : List Tick) : Nat := (past.map onAirAt).sum

def dotLength (settings : Settings) : Nat := 1200 / settings.cwSpeed.toNat

def dashLength (settings : Settings) : Nat :=
  3600 * settings.cwWeight.toNat / (50 * settings.cwSpeed.toNat)

def elementLength (settings : Settings) (code : Nat) : Nat :=
  if code ≠ 0 then dotLength settings else dashLength settings

/-- The element is as long as a dot, or the PTT delay is no longer than a dot and no longer than
the element. -/
def Suits (settings : Settings) (code : Nat) : Prop :=
  elementLength settings code = dotLength settings ∨
    settings.cwDelay.toNat ≤ dotLength settings ∧
      settings.cwDelay.toNat ≤ elementLength settings code

variable {codec rf : Bool} {past : List Tick} {s : HpsdrKeyer} {v v' : Vars} {code n d : Nat}
  {delay : Int} {settings : Settings} {gpioIn : BitVec 8} {ops rest body : List Statement}

/-- The settings, bit 2 of `tx_rst` and the count. -/
structure Counts (settings : Settings) (rf : Bool) (delay : Int) (v : Vars) : Prop where
  settings : v.settings = settings
  rf : v.txRst.getLsbD 2 = rf
  delay : v.delay = delay

/-- The statements are run to their end with `n` milliseconds of RF, which they leave on or off. -/
abbrev Lasts (codec : Bool) (settings : Settings) (rf : Bool) (delay : Int) :
    List Statement → Vars → Nat → Prop :=
  Completes (exec codec) (· ≠ .txRstAnd .rf) onAir (Counts settings rf delay)

/-- The statements that change neither of these, and take no time. -/
def isQuiet : Statement → Bool
  | .txRstOr .rf | .txRstAnd .rf => false
  | .txRstOr _ | .txRstAnd _ | .cwPtt _ | .txMuxData _ | .sidetoneOn | .sidetoneOff | .cwInput
  | .pads | .reversed | .memory | .memoryMode | .clearMemory => true
  | _ => false

def rank : Statement → Nat
  | .sidetoneOn | .sidetoneOff | .cwInput => 1
  | _ => 0

theorem exec_quiet (op : Statement) (v : Vars) (quiet : isQuiet op = true)
    (counts : Counts settings rf delay v) :
    op ≠ .txRstAnd .rf ∧ onAir op v = 0 ∧ ∀ gpioIn, ∃ v' body,
      exec codec op v gpioIn = some (v', body) ∧ Counts settings rf delay v' ∧
        ∀ inner ∈ body, isQuiet inner = true ∧ rank inner < rank op := by
  obtain ⟨rfl, rfl, rfl⟩ := counts
  refine ⟨?_, ?_, fun gpioIn => ?_⟩
  · rintro rfl
    cases quiet
  · cases op with
    | usleep => cases quiet
    | _ => rfl
  · cases op with
    | txRstOr bit | txRstAnd bit =>
      refine ⟨_, _, rfl, ⟨rfl, ?_, rfl⟩, List.forall_mem_nil _⟩
      cases bit with
      | rf => cases quiet
      | _ => simp [TxRst.mask]
    | sidetoneOn | sidetoneOff =>
      refine ⟨_, _, rfl, ⟨rfl, rfl, rfl⟩, ?_⟩
      split <;> decide
    | cwInput =>
      rw [exec]
      split
      · exact ⟨_, _, rfl, ⟨rfl, rfl, rfl⟩, by decide⟩
      · exact ⟨_, _, rfl, ⟨rfl, rfl, rfl⟩, by decide⟩
    | reversed | memoryMode =>
      rw [exec]
      split <;> exact ⟨_, _, rfl, ⟨rfl, rfl, rfl⟩, List.forall_mem_nil _⟩
    | cwPtt | txMuxData | pads | memory | clearMemory =>
      exact ⟨_, _, rfl, ⟨rfl, rfl, rfl⟩, List.forall_mem_nil _⟩
    | _ => cases quiet

theorem lasts_quiet (quiet : ∀ op ∈ ops, isQuiet op = true)
    (counts : Counts settings rf delay v) : Lasts codec settings rf delay ops v 0 :=
  Completes.quiet exec_quiet quiet counts

theorem lasts_single {op : Statement} {m : Nat} (other : op ≠ .txRstAnd .rf)
    (air : onAir op v = m) (runs : ∀ gpioIn, exec codec op v gpioIn = some (v', body))
    (within : Lasts codec settings rf delay body v' n) :
    Lasts codec settings rf delay [op] v (m + n) := by
  rw [← air]
  refine Completes.single other (fun gpioIn stops => ?_) fun gpioIn v'' body' ran => ?_
  · rw [runs] at stops
    cases stops
  · rw [runs] at ran
    cases ran
    exact within

/-- A statement that has no body and takes no time. -/
theorem lasts_plain {op : Statement} (other : op ≠ .txRstAnd .rf) (free : onAir op v = 0)
    (runs : ∀ gpioIn, exec codec op v gpioIn = some (v', []))
    (counts : Counts settings rf delay v') : Lasts codec settings rf delay [op] v 0 :=
  lasts_single other free runs (.done counts)

/-- What follows statements that take no time. -/
theorem lasts_then {rf' : Bool} {delay' : Int} {first second : List Statement}
    (before : Lasts codec settings rf delay first v 0)
    (onward : ∀ v', Counts settings rf delay v' → Lasts codec settings rf' delay' second v' n) :
    Lasts codec settings rf' delay' (first ++ second) v n := by
  have all := Completes.append before onward
  rwa [Nat.zero_add] at all

theorem lasts_cons {op : Statement} {rf' : Bool} {delay' : Int}
    (before : Lasts codec settings rf delay [op] v 0)
    (onward : ∀ v', Counts settings rf delay v' → Lasts codec settings rf' delay' rest v' n) :
    Lasts codec settings rf' delay' (op :: rest) v n :=
  lasts_then before onward

/-! ### The delays -/

theorem speed_pos (speed : settings.cwSpeed ≠ 0) : settings.cwSpeed.toNat ≠ 0 :=
  fun zero => speed (BitVec.eq_of_toNat_eq zero)

theorem divide_runs {dividend divisor : Nat} (nonzero : divisor ≠ 0) :
    divide v dividend divisor = some ({ v with delay := (dividend / divisor : Nat) }, []) := by
  rw [divide, if_neg nonzero, Int.natCast_ediv]

theorem lasts_dot (speed : settings.cwSpeed ≠ 0) (counts : Counts settings rf delay v) :
    Lasts codec settings rf (dotLength settings) [dot] v 0 := by
  obtain ⟨rfl, rfl, rfl⟩ := counts
  exact lasts_plain (by decide) rfl (fun _ => divide_runs (speed_pos speed)) ⟨rfl, rfl, rfl⟩

theorem lasts_dash (speed : settings.cwSpeed ≠ 0) (counts : Counts settings rf delay v) :
    Lasts codec settings rf (dashLength settings) [dashWeight, dash] v 0 := by
  have weighted : Lasts codec settings rf (3600 * settings.cwWeight.toNat : Nat) [dashWeight] v
      0 := by
    obtain ⟨rfl, rfl, rfl⟩ := counts
    exact lasts_plain (by decide) rfl (fun _ => rfl) ⟨rfl, rfl, by simp⟩
  refine lasts_cons weighted fun w counts => ?_
  obtain ⟨rfl, rfl, weight⟩ := counts
  have divides (gpioIn : BitVec 8) : exec codec dash w gpioIn =
      some ({ w with delay := (dashLength w.settings : Nat) }, []) := by
    rw [exec, weight]
    exact divide_runs (Nat.mul_ne_zero (Nat.succ_ne_zero 49) (speed_pos speed))
  exact lasts_plain (by decide) rfl divides ⟨rfl, rfl, rfl⟩

theorem lasts_length (speed : settings.cwSpeed ≠ 0) (counts : Counts settings rf delay v) :
    Lasts codec settings rf (elementLength settings code)
      (if code ≠ 0 then [dot] else [dashWeight, dash]) v 0 := by
  unfold elementLength
  split
  · exact lasts_dot speed counts
  · exact lasts_dash speed counts

/-- `cw_on` and `cw_off` count to the PTT delay at most. -/
theorem lasts_limit (counts : Counts settings rf n v) :
    Lasts codec settings rf (min n settings.cwDelay.toNat : Nat) [limitDelay] v 0 := by
  obtain ⟨rfl, rfl, count⟩ := counts
  show Lasts _ _ _ _ _ v (0 + 0)
  refine lasts_single (by decide) rfl (fun _ => rfl) ?_
  split
  · refine lasts_plain (by decide) rfl (fun _ => rfl) ⟨rfl, rfl, ?_⟩
    show (v.settings.cwDelay.toNat : Int) = _
    omega
  · exact .done ⟨rfl, rfl, by omega⟩

/-- `cw_signal_delay` counts what the PTT delay leaves. -/
theorem lasts_less (counts : Counts settings rf n v) :
    Lasts codec settings rf (n - settings.cwDelay.toNat : Nat) [lessCwDelay, notNegative] v 0 := by
  obtain ⟨rfl, rfl, count⟩ := counts
  have less : Lasts codec v.settings (v.txRst.getLsbD 2)
      ((n : Int) - v.settings.cwDelay.toNat) [lessCwDelay] v 0 :=
    lasts_plain (by decide) rfl (fun _ => rfl) ⟨rfl, rfl, by rw [← count]⟩
  refine lasts_cons less fun w counts => ?_
  obtain ⟨same, lit, count⟩ := counts
  refine lasts_plain (by decide) rfl (fun _ => rfl) ⟨?_, ?_, ?_⟩
  · split <;> exact same
  · split <;> exact lit
  · split
    · show (0 : Int) = _
      omega
    · omega

/-- A turn of a loop is a millisecond. -/
theorem lasts_turn {wait : Wait} (other : wait ≠ .space) (counts : Counts settings rf delay v) :
    Lasts codec settings rf delay wait.body v rf.toNat := by
  have asleep : Lasts codec settings rf delay [usleep] v rf.toNat := by
    obtain ⟨rfl, rfl, rfl⟩ := counts
    exact lasts_single (by decide) rfl (fun _ => rfl) (.done ⟨rfl, rfl, rfl⟩)
  cases wait with
  | signal =>
    show Lasts codec settings rf delay ([usleep] ++ [cwInput, memoryMode]) v (rf.toNat + 0)
    exact asleep.append fun w => lasts_quiet (by decide)
  | off =>
    show Lasts codec settings rf delay ([usleep] ++ [cwInput, memory]) v (rf.toNat + 0)
    exact asleep.append fun w => lasts_quiet (by decide)
  | space => exact absurd rfl other

theorem lasts_wait {wait : Wait} (other : wait ≠ .space) (counts : Counts settings rf n v) :
    Lasts codec settings rf (-1) [whileDelay wait] v (n * rf.toNat) := by
  induction n generalizing v with
  | zero =>
    obtain ⟨rfl, rfl, count⟩ := counts
    rw [Nat.zero_mul, ← Nat.zero_add 0]
    refine lasts_single (by simp) rfl (fun _ => rfl) ?_
    rw [if_neg (by omega)]
    exact .done ⟨rfl, rfl, by rw [count]; rfl⟩
  | succ n ih =>
    rw [Nat.succ_mul, Nat.add_comm, ← Nat.zero_add (rf.toNat + _)]
    refine lasts_single (by simp) rfl (fun _ => rfl) ?_
    obtain ⟨rfl, rfl, count⟩ := counts
    rw [if_pos (by omega)]
    have turned : Counts v.settings (v.txRst.getLsbD 2) n { v with delay := v.delay - 1 } :=
      ⟨rfl, rfl, by rw [count]; simp⟩
    exact (lasts_turn other turned).append fun w => ih

/-! ### The element -/

/-- The element up to where RF is turned off. -/
def sounding (code : Nat) : List Statement :=
  [clearMemory] ++ cwOn ++ cwSignalDelay code ++ [dot, limitDelay, sidetoneOff, whileDelay .off]

theorem element_eq (code : Nat) : element code = sounding code ++ [.txRstAnd .rf, hang] := by
  simp [element, sounding, cwOff]

theorem lasts_cwOn (speed : settings.cwSpeed ≠ 0) (counts : Counts settings false delay v) :
    Lasts codec settings true (-1) cwOn v 0 := by
  refine lasts_cons (lasts_dot speed counts) fun v counts => ?_
  refine lasts_cons (lasts_limit counts) fun v counts => ?_
  have quiet : ∀ op ∈ [.txRstOr .ptt, .cwPtt true, .txRstOr .mux, .txMuxData true, sidetoneOn],
      isQuiet op = true := by decide
  refine lasts_then (lasts_quiet quiet counts) fun v counts => ?_
  have silent : Lasts codec settings false (-1) [whileDelay .signal] v 0 :=
    lasts_wait (by decide) counts
  refine lasts_cons silent fun v counts => ?_
  obtain ⟨rfl, -, count⟩ := counts
  exact lasts_plain (by decide) rfl (fun _ => rfl) ⟨rfl, by simp [TxRst.mask], count⟩

theorem lasts_cwSignalDelay (speed : settings.cwSpeed ≠ 0)
    (counts : Counts settings true delay v) :
    Lasts codec settings true (-1) (cwSignalDelay code) v
      (elementLength settings code - settings.cwDelay.toNat) := by
  unfold cwSignalDelay
  refine lasts_then (lasts_length speed counts) fun v counts => ?_
  rw [show [lessCwDelay, notNegative, whileDelay .signal] =
    [lessCwDelay, notNegative] ++ [whileDelay .signal] from rfl]
  refine lasts_then (lasts_less counts) fun v counts => ?_
  have wait : Lasts codec settings true (-1) [whileDelay .signal] v (_ * true.toNat) :=
    lasts_wait (by decide) counts
  simpa using wait

/-- The carrier is on while `cw_signal_delay` counts and while `cw_off` does. -/
theorem lasts_sounding (speed : settings.cwSpeed ≠ 0) (counts : Counts settings false delay v) :
    Lasts codec settings true (-1) (sounding code) v
      (elementLength settings code - settings.cwDelay.toNat +
        min (dotLength settings) settings.cwDelay.toNat) := by
  have clear : Lasts codec settings false delay [clearMemory] v 0 :=
    lasts_quiet (by decide) counts
  have signal : Lasts codec settings true (-1) ([clearMemory] ++ cwOn ++ cwSignalDelay code) v
      (elementLength settings code - settings.cwDelay.toNat) := by
    refine lasts_then (lasts_then clear fun v => lasts_cwOn speed) fun v counts => ?_
    exact lasts_cwSignalDelay speed counts
  refine Completes.append signal fun v counts => ?_
  refine lasts_cons (lasts_dot speed counts) fun v counts => ?_
  refine lasts_cons (lasts_limit counts) fun v counts => ?_
  have silent : ∀ op ∈ [sidetoneOff], isQuiet op = true := by decide
  refine lasts_cons (lasts_quiet silent counts) fun v counts => ?_
  have wait : Lasts codec settings true (-1) [whileDelay .off] v (_ * true.toNat) :=
    lasts_wait (by decide) counts
  simpa using wait

/-- RF is off where the keyer begins an element. -/
theorem rf_of_covers {rest : List Statement} (covers : outline.Covers s.keyer)
    (begins : s.keyer.todo = element code ++ rest) : s.keyer.vars.txRst.getLsbD 2 = false := by
  obtain ⟨n, taken, leads⟩ := covers
  refine taken.off ?_
  by_contra taken'
  have other : (n = 0) = False := by simp; omega
  rw [begins] at leads
  simp [element, cwOn, Outline.through, outline, after, phase, other] at leads

theorem elementLength_iff :
    elementLength settings code - settings.cwDelay.toNat +
      min (dotLength settings) settings.cwDelay.toNat = elementLength settings code ↔
    Suits settings code := by
  unfold Suits
  omega

/-! ### Runs -/

theorem store_same (same : s.store.keyer.vars.settings = s.keyer.vars.settings) :
    s.store.keyer = s.keyer := by
  obtain ⟨pending, vars, todo, failed⟩ := s
  cases pending with
  | nil => rfl
  | cons first rest =>
    show Thread.mk { vars with settings := vars.settings.store first } todo failed = _
    rw [show vars.settings.store first = vars.settings from same]

/-- What is left of the statements takes what is left of the time. -/
def Left (codec : Bool) (settings : Settings) (rest : List Statement) (s : HpsdrKeyer) (n : Nat) :
    Prop :=
  ∃ ops, s.keyer.todo = ops ++ .txRstAnd .rf :: rest ∧ s.keyer.failed = false ∧
    Lasts codec settings true (-1) ops s.keyer.vars n

theorem Left.done (left : Left codec settings rest s n) (ends : Ends s) : n = 0 := by
  obtain ⟨ops, todo, -, lasts⟩ := left
  cases ops with
  | nil => exact lasts.nil
  | cons op ops =>
    rw [Ends, todo] at ends
    exact absurd (Option.some.inj ends) lasts.head

theorem Left.keyer (left : Left codec settings rest s n) (within : ¬ Ends s) (gpioIn : BitVec 8) :
    ∃ m, Left codec settings rest (step codec s (.keyer gpioIn)) m ∧
      onAirAt ⟨s, .keyer gpioIn⟩ + m = n := by
  obtain ⟨ops, todo, running, lasts⟩ := left
  obtain ⟨stores, vars, todo', failed⟩ := s
  obtain ⟨rfl, rfl⟩ : todo' = _ ∧ failed = _ := ⟨todo, running⟩
  cases ops with
  | nil => exact absurd rfl within
  | cons op ops =>
    obtain ⟨v', left, m, next, later, total⟩ := lasts.step (.txRstAnd .rf :: rest) gpioIn
    refine ⟨m, ⟨left, ?_, ?_, ?_⟩, total⟩
    · exact congrArg Thread.todo next
    · exact congrArg Thread.failed next
    · rw [step, next]
      exact later

theorem Left.step (left : Left codec settings rest s n) (within : ¬ Ends s) (move : Move)
    (same : (step codec s move).keyer.vars.settings = s.keyer.vars.settings) :
    ∃ m, Left codec settings rest (step codec s move) m ∧ onAirAt ⟨s, move⟩ + m = n := by
  cases move with
  | frame frame => exact ⟨n, left, Nat.zero_add n⟩
  | store =>
    refine ⟨n, ?_, Nat.zero_add n⟩
    rw [Left, show (HpsdrKeyer.step codec s .store).keyer = s.keyer from store_same same]
    exact left
  | keyer gpioIn => exact left.keyer within gpioIn

theorem airTime_append (past : List Tick) (c : Tick) :
    airTime (past ++ [c]) = airTime past + onAirAt c := by
  simp [airTime]

/-- As long as RF is not turned off, the time that has passed and the time left make up the
whole. -/
theorem left_after (left : Left codec settings rest s n) (moves : List Move)
    (same : ∀ c ∈ (circuit codec).trace s moves,
      c.regs.keyer.vars.settings = s.keyer.vars.settings)
    (settled : ((circuit codec).after s moves).keyer.vars.settings = s.keyer.vars.settings)
    (within : ∀ c ∈ (circuit codec).trace s moves, ¬ Ends c.regs) :
    ∃ m, Left codec settings rest ((circuit codec).after s moves) m ∧
      airTime ((circuit codec).trace s moves) + m = n := by
  induction moves using List.reverseRecOn with
  | nil => exact ⟨n, left, Nat.zero_add n⟩
  | append_singleton moves move ih =>
    rw [trace_snoc, List.forall_mem_append, List.forall_mem_singleton] at same within
    rw [after_snoc] at settled
    obtain ⟨m, left, total⟩ := ih same.1 same.2 within.1
    obtain ⟨m', left', total'⟩ := left.step within.2 move (settled.trans same.2.symm)
    refine ⟨m', ?_, ?_⟩
    · rw [after_snoc]
      exact left'
    · rw [trace_snoc, airTime_append]
      omega

theorem Element.cons {moves : List Move} {move : Move} (within : ¬ Ends s)
    (same : (step codec s move).keyer.vars.settings = s.keyer.vars.settings)
    (element : Element codec (step codec s move) moves) : Element codec s (move :: moves) := by
  obtain ⟨settings, settled, later, ends⟩ := element
  rw [same] at settings settled
  exact ⟨List.forall_mem_cons.mpr ⟨rfl, settings⟩, settled,
    List.forall_mem_cons.mpr ⟨within, later⟩, ends⟩

/-- The keyer alone, with what it reads from `gpio_in`. -/
def presses (pads : Nat → BitVec 8) (steps : Nat) : List Move :=
  (List.range steps).map fun k => .keyer (pads k)

theorem presses_succ (pads : Nat → BitVec 8) (steps : Nat) :
    presses pads (steps + 1) = .keyer (pads 0) :: presses (fun k => pads (k + 1)) steps := by
  simp [presses, List.range_succ_eq_map, Function.comp_def]

/-- Whatever the pads are, RF is turned off. -/
theorem left_ends (left : Left codec settings rest s n) (pads : Nat → BitVec 8) :
    ∃ steps, Element codec s (presses pads steps) := by
  obtain ⟨ops, todo, running, lasts⟩ := left
  generalize held : s.keyer.vars = v at lasts
  induction lasts generalizing s pads with
  | done =>
    refine ⟨0, ?_, rfl, ?_, ?_⟩
    · exact List.forall_mem_nil _
    · exact List.forall_mem_nil _
    · exact congrArg List.head? todo
  | @next op ops v n other runs later ih =>
    have within : ¬ Ends s := by
      intro ends
      rw [Ends, todo] at ends
      exact other (Option.some.inj ends)
    cases ran : exec codec op v (pads 0) with
    | none => exact absurd ran (runs (pads 0))
    | some result =>
      obtain ⟨v', body⟩ := result
      have next : (step codec s (.keyer (pads 0))).keyer =
          ⟨v', body ++ (ops ++ .txRstAnd .rf :: rest), false⟩ := by
        simp [step, Thread.step, running, todo, held, ran]
      obtain ⟨steps, element⟩ := ih (pads 0) v' body ran (s := step codec s (.keyer (pads 0)))
        (fun k => pads (k + 1)) (by rw [next, List.append_assoc]) (by rw [next]) (by rw [next])
      refine ⟨steps + 1, ?_⟩
      rw [presses_succ]
      refine element.cons within ?_
      rw [next, held]
      exact (exec_keeps ran).1

/-- Every element that the keyer begins it ends, and RF has been on for its length exactly when the
PTT delay suits the element. -/
theorem run_element (run : (circuit codec).Run past s) (begins : Begins code s)
    (speed : s.keyer.vars.settings.cwSpeed ≠ 0) :
    (∀ pads, ∃ steps, Element codec s (presses pads steps)) ∧
      ∀ moves, Element codec s moves →
        (airTime ((circuit codec).trace s moves) = elementLength s.keyer.vars.settings code ↔
          Suits s.keyer.vars.settings code) := by
  obtain ⟨running, rest, todo⟩ := begins
  have off := rf_of_covers (run_covers run) todo.symm
  have whole : s.keyer.todo = sounding code ++ .txRstAnd .rf :: hang :: rest := by
    rw [← todo, element_eq, List.append_assoc]
    rfl
  have left : Left codec s.keyer.vars.settings (hang :: rest) s _ :=
    ⟨sounding code, whole, running, lasts_sounding speed ⟨rfl, off, rfl⟩⟩
  refine ⟨left_ends left, fun moves element => ?_⟩
  obtain ⟨settings, settled, within, ends⟩ := element
  obtain ⟨m, remains, total⟩ := left_after left moves settings settled within
  rw [remains.done ends, Nat.add_zero] at total
  rw [total, elementLength_iff]

instance : DecidablePred Ends :=
  fun s => inferInstanceAs (Decidable (s.keyer.todo.head? = some (.txRstAnd .rf)))

instance : DecidablePred (Begins code) :=
  fun s => inferInstanceAs (Decidable (s.keyer.failed = false ∧ element code <+: s.keyer.todo))

/-- The internal keyer in mode 1 with dots of 19 ms, and the dash paddle. -/
def pressed (delay weight : BitVec 8) : List Move :=
  sends [![30, 1, 0, delay, 0], ![22, 0, 0, 0x7f, weight]] ++ key 11

def dashes (delay weight : BitVec 8) : HpsdrKeyer :=
  (circuit false).after start (pressed delay weight)

theorem dashes_run (delay weight : BitVec 8) :
    (circuit false).Run ((circuit false).trace start (pressed delay weight))
      (dashes delay weight) := run_trace rfl _

theorem run_element_dash : airTime ((circuit false).trace (dashes 5 7) (key 99)) = 8 := by
  have begins : Begins 0 (dashes 5 7) := by decide +kernel
  have element : Element false (dashes 5 7) (key 99) :=
    ⟨by decide +kernel, by decide +kernel, by decide +kernel, by decide +kernel⟩
  exact ((run_element (dashes_run 5 7) begins (by decide +kernel)).2 _ element).mpr
    (.inr (by decide +kernel))

/-- A dash of 57 ms with a PTT delay of 255: RF is on for 19 ms. -/
theorem longDelay_cuts : ¬ ∀ (codec : Bool) (past : List Tick) (s : HpsdrKeyer) (code : Nat)
    (moves : List Move), (circuit codec).Run past s → Begins code s →
    s.keyer.vars.settings.cwMode ≠ 0 → s.keyer.vars.settings.cwSpeed ≠ 0 →
    Element codec s moves →
    airTime ((circuit codec).trace s moves) = elementLength s.keyer.vars.settings code := by
  intro claim
  have lasts := claim false _ _ 0 (key 247) (dashes_run 255 50) (by decide +kernel)
    (by decide +kernel) (by decide +kernel)
    ⟨by decide +kernel, by decide +kernel, by decide +kernel, by decide +kernel⟩
  exact absurd lasts (by decide +kernel)

end HpsdrKeyer

end Switcheck
