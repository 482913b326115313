import Mathlib.Data.Fintype.Basic
import Switcheck.Server.HpsdrControl

/-!
# What the band filters are told

Four words go to the band filters of `sdr-transceiver-hpsdr`: the two of the Alex boards, the one of
the board on `ADDR_MISC` and the pair of the Nucleo board. Each is brought up to date at the end of
the passes that find its flag raised.
-/

namespace Switcheck

open Sync Circuit

open HpsdrKeyer (Frame)

namespace HpsdrControl

variable {α β : Type}

/-- A word of the filters: what it is made from, its flag, what was written last, and what of it
the writes of the program show. -/
structure Port (α β : Type) where
  settings : Filters → α
  flag : Filters → Bool
  shadow : Filters → β
  word : α → β
  shows : Effect → Option β

namespace Port

variable (p : Port α β)

def view (s : HpsdrControl) : α × Bool × β :=
  (p.settings s.filters, p.flag s.filters, p.shadow s.filters)

/-- The part has nothing to do with the word. -/
abbrev Keeps (a : Act) : Prop := Leaves p.view p.shows a

/-- The part may change the settings, and then raises the flag. -/
def Raises (a : Act) : Prop := ∀ s,
  p.shadow (a s).1.filters = p.shadow s.filters ∧ (a s).2.filterMap p.shows = [] ∧
    (p.settings (a s).1.filters = p.settings s.filters ∧
        p.flag (a s).1.filters = p.flag s.filters ∨
      p.settings (a s).1.filters ≠ p.settings s.filters ∧ p.flag (a s).1.filters = true)

/-- The part lowers the flag; where it was raised the word is brought up to date. -/
def Flushes [DecidableEq β] (a : Act) : Prop := ∀ s,
  p.settings (a s).1.filters = p.settings s.filters ∧ p.flag (a s).1.filters = false ∧
    (p.flag s.filters = true → p.shadow (a s).1.filters = p.word (p.settings s.filters) ∧
      (a s).2.filterMap p.shows = refresh (p.shadow s.filters) (p.word (p.settings s.filters))) ∧
    (p.flag s.filters = false → p.shadow (a s).1.filters = p.shadow s.filters ∧
      (a s).2.filterMap p.shows = [])

variable {p} {a : Act} {as : List Act}

/-! ### How the parts compose -/

theorem keeps_apart (keeps : p.Keeps a) (s : HpsdrControl) :
    p.settings (a s).1.filters = p.settings s.filters ∧ p.flag (a s).1.filters = p.flag s.filters ∧
      p.shadow (a s).1.filters = p.shadow s.filters ∧ (a s).2.filterMap p.shows = [] := by
  obtain ⟨same, none⟩ := keeps s
  exact ⟨congrArg (·.1) same, congrArg (·.2.1) same, congrArg (·.2.2) same, none⟩

theorem raises_of_keeps (keeps : p.Keeps a) : p.Raises a := by
  intro s
  obtain ⟨settings, flag, shadow, none⟩ := keeps_apart keeps s
  exact ⟨shadow, none, .inl ⟨settings, flag⟩⟩

theorem raises_cons (first : p.Raises a) (rest : p.Keeps (seq as)) : p.Raises (seq (a :: as)) := by
  intro s
  obtain ⟨shadow, shows, raised⟩ := first s
  obtain ⟨settings', flag', shadow', shows'⟩ := keeps_apart rest (a s).1
  refine ⟨shadow'.trans shadow, by rw [seq, List.filterMap_append, shows, shows', List.append_nil],
    ?_⟩
  rw [seq, settings', flag']
  exact raised

theorem raises_after (first : p.Keeps a) (rest : p.Raises (seq as)) : p.Raises (seq (a :: as)) := by
  intro s
  obtain ⟨settings, flag, shadow, shows⟩ := keeps_apart first s
  obtain ⟨shadow', shows', raised⟩ := rest (a s).1
  refine ⟨shadow'.trans shadow, by rw [seq, List.filterMap_append, shows, shows', List.append_nil],
    ?_⟩
  rw [seq, ← settings, ← flag]
  exact raised

theorem raises_when (condition : Bool) (raises : p.Raises a) : p.Raises (when condition a) := by
  cases condition
  · exact fun _ => ⟨rfl, rfl, .inl ⟨rfl, rfl⟩⟩
  · exact raises

theorem raises_finds {a : HpsdrControl → Act} (raises : ∀ s, p.Raises (a s)) :
    p.Raises (finds a) := fun s => raises s s

section

variable [DecidableEq β]

theorem flushes_after (first : p.Keeps a) (rest : p.Flushes (seq as)) :
    p.Flushes (seq (a :: as)) := by
  intro s
  obtain ⟨settings, flag, shadow, shows⟩ := keeps_apart first s
  obtain ⟨settings', low, raised, lowered⟩ := rest (a s).1
  rw [seq, List.filterMap_append, shows, List.nil_append, ← settings, ← flag, ← shadow]
  exact ⟨settings', low, raised, lowered⟩

theorem flushes_cons (first : p.Flushes a) (rest : p.Keeps (seq as)) :
    p.Flushes (seq (a :: as)) := by
  intro s
  obtain ⟨settings, low, raised, lowered⟩ := first s
  obtain ⟨settings', flag', shadow', shows'⟩ := keeps_apart rest (a s).1
  rw [seq, List.filterMap_append, shows', List.append_nil, settings', flag', shadow']
  exact ⟨settings, low, raised, lowered⟩

variable (p) in
/-- The end of a pass: the word is brought up to date where the flag was raised, or is raised by a
change of the settings on the way. -/
def Passes [DecidableEq α] (a : Act) : Prop := ∀ s,
  let settings := p.settings (a s).1.filters
  let due := p.flag s.filters || decide (settings ≠ p.settings s.filters)
  p.flag (a s).1.filters = false ∧
    (due = true → p.shadow (a s).1.filters = p.word settings ∧
      (a s).2.filterMap p.shows = refresh (p.shadow s.filters) (p.word settings)) ∧
    (due = false → settings = p.settings s.filters ∧
      p.shadow (a s).1.filters = p.shadow s.filters ∧ (a s).2.filterMap p.shows = [])

variable [DecidableEq α]

theorem passes_cons (first : p.Raises a) (rest : p.Flushes (seq as)) : p.Passes (seq (a :: as)) := by
  intro s
  obtain ⟨shadow, shows, changes⟩ := first s
  obtain ⟨settings, low, raised, lowered⟩ := rest (a s).1
  dsimp only
  rw [seq, List.filterMap_append, shows, List.nil_append, settings, ← shadow]
  refine ⟨low, ?_, ?_⟩
  · intro due
    refine raised ?_
    rcases changes with ⟨same, flag⟩ | ⟨_, up⟩
    · simpa [same, flag] using due
    · exact up
  · intro idle
    obtain ⟨clean, same⟩ := Bool.or_eq_false_iff.mp idle
    rcases changes with ⟨_, flag⟩ | ⟨differ, _⟩
    · exact ⟨not_not.mp (of_decide_eq_false same), lowered (flag.trans clean)⟩
    · exact absurd differ (of_decide_eq_false same)

theorem passes_after (first : p.Keeps a) (rest : p.Passes (seq as)) : p.Passes (seq (a :: as)) := by
  intro s
  obtain ⟨settings, flag, shadow, shows⟩ := keeps_apart first s
  have passes := rest (a s).1
  dsimp only at passes ⊢
  rw [settings, flag, shadow] at passes
  rw [seq, List.filterMap_append, shows, List.nil_append]
  exact passes

/-! ### Runs -/

variable (p) in
/-- The word as a register that is written at the end of the passes. -/
def deferred (board : Board) : Deferred (circuit board) β where
  shadow s := p.shadow s.filters
  dirty s := p.flag s.filters
  target s := p.word (p.settings s.filters)
  changes c := decide
    (p.settings ((circuit board).tick c.regs c.pins).filters ≠ p.settings c.regs.filters)
  flushes c := match c.pins with
    | .endPass _ _ => true
    | _ => false
  writes c := (effects board c).filterMap p.shows

/-- Frames and start commands may raise the flag; the end of a pass lowers it. -/
structure Serves (p : Port α β) (board : Board) : Prop where
  frame : ∀ frame gpioIn, p.Raises (processEp2 board frame gpioIn)
  start : p.Raises begin
  endPass : ∀ alexPtt nucleoPtt, p.Passes (endPass board alexPtt nucleoPtt)

theorem Serves.lawful {board : Board} (serves : p.Serves board) {init : β}
    (start : ∀ rxFreq loRst, p.shadow (initial rxFreq loRst).filters = init ∧
      p.flag (initial rxFreq loRst).filters = false) :
    (p.deferred board).Lawful init := by
  have raises (move : Move) (other : ∀ a b, move ≠ .endPass a b) : p.Raises (act board move) := by
    cases move with
    | frame frame gpioIn => exact serves.frame frame gpioIn
    | start => exact serves.start
    | endPass a b => exact absurd rfl (other a b)
  have between (s : HpsdrControl) (move : Move)
      (idle : (p.deferred board).flushes ⟨s, move⟩ = false) : p.Raises (act board move) := by
    refine raises move fun a b same => ?_
    subst same
    cases idle
  constructor
  · rintro s ⟨rxFreq, loRst, rfl⟩
    exact start rxFreq loRst
  · intro s move changes idle
    rcases (between s move idle s).2.2 with ⟨same, _⟩ | ⟨_, up⟩
    · exact absurd same (of_decide_eq_true changes)
    · exact up
  · intro s move same idle
    have settings := not_not.mp (of_decide_eq_false same)
    rcases (between s move idle s).2.2 with ⟨_, flag⟩ | ⟨differ, _⟩
    · exact ⟨congrArg p.word settings, flag⟩
    · exact absurd settings differ
  · intro s move idle
    obtain ⟨shadow, shows, _⟩ := between s move idle s
    exact ⟨shadow, shows⟩
  · rintro s (_ | _ | ⟨alexPtt, nucleoPtt⟩) flushes due
    · cases flushes
    · cases flushes
    · obtain ⟨low, raised, _⟩ := serves.endPass alexPtt nucleoPtt s
      exact ⟨(raised due).1, (raised due).2, low⟩
  · rintro s (_ | _ | ⟨alexPtt, nucleoPtt⟩) flushes idle
    · cases flushes
    · cases flushes
    · obtain ⟨low, _, lowered⟩ := serves.endPass alexPtt nucleoPtt s
      obtain ⟨settings, shadow, shows⟩ := lowered idle
      exact ⟨congrArg p.word settings, shadow, shows, low⟩

end

/-! ### The parts of `process_ep2` -/

def isPlain : Effect → Bool
  | .alex _ | .i2c .misc _ | .i2c .nucleo _ => false
  | _ => true

variable (p) in
/-- The word is made from the frequencies, and shown by writes to the filters only. -/
structure Hears (board : Board) : Prop where
  plain : ∀ effect, isPlain effect = true → p.shows effect = none
  changed : ∀ f k value, f.freqData k ≠ value →
    p.settings { f with freqData := Function.update f.freqData k value } ≠ p.settings f
  frequency : ∀ f freqData, p.shadow { f with freqData := freqData } = p.shadow f
  raised : ∀ s, p.settings (raiseFlags board s).1.filters = p.settings s.filters ∧
    p.shadow (raiseFlags board s).1.filters = p.shadow s.filters ∧
    p.flag (raiseFlags board s).1.filters = true

theorem raises_set {γ : Type} [DecidableEq γ] (get : Filters → γ) {value : γ}
    {f : HpsdrControl → HpsdrControl}
    (sets : ∀ s, p.shadow (f s).filters = p.shadow s.filters ∧ p.flag (f s).filters = true ∧
      (get s.filters ≠ value → p.settings (f s).filters ≠ p.settings s.filters)) :
    p.Raises (finds fun s => when (get s.filters != value) (store f)) := by
  intro s
  obtain ⟨shadow, flag, differ⟩ := sets s
  by_cases same : get s.filters = value
  · simp [finds, when, same]
  · simp [finds, when, store, same, shadow, flag, differ same]

namespace Hears

variable {board : Board} {frame : Frame} (hears : p.Hears board)

include hears

theorem latch {w : Nat} {device : Device} {get : Latched → BitVec w}
    {set : Latched → BitVec w → Latched} {bytes : BitVec w → List (BitVec 8)} {data : BitVec w}
    (other : isPlain (.i2c device (bytes data)) = true) :
    p.Keeps (HpsdrControl.latch device get set bytes data) :=
  leaves_finds fun _ => leaves_when _ <| leaves_cons (leaves_store fun _ => rfl) <|
    leaves_cons (leaves_write (hears.plain _ other)) leaves_nil

theorem resetLos : p.Keeps resetLos := by
  intro s
  refine ⟨rfl, ?_⟩
  simp [HpsdrControl.resetLos, hears.plain (.loRst _) rfl]

theorem setRxFreq (k : Fin 3) (value : BitVec 32) : p.Keeps (setRxFreq k value) := by
  intro s
  refine ⟨rfl, ?_⟩
  simp [HpsdrControl.setRxFreq, hears.plain (.rxFreq _ _) rfl]

theorem copyRxFreq : p.Keeps copyRxFreq := fun s => hears.setRxFreq 1 (s.rxFreq 0) s

theorem setSync : p.Keeps (setSync frame) :=
  leaves_finds fun _ => leaves_when _ <| leaves_cons (leaves_store fun _ => rfl) <|
    leaves_cons (leaves_when _ <| leaves_cons hears.copyRxFreq <|
      leaves_cons hears.resetLos leaves_nil) leaves_nil

theorem setOutputs (gpioIn : BitVec 8) : p.Keeps (setOutputs frame gpioIn) :=
  leaves_finds fun _ => leaves_write (hears.plain _ rfl)

theorem icomWrite : p.Keeps (icomWrite board) :=
  leaves_finds fun _ => leaves_when _ <| leaves_cons (leaves_store fun _ => rfl) <|
    leaves_cons (leaves_when _ (leaves_write (hears.plain _ rfl))) leaves_nil

theorem configureLevel : p.Keeps (configureLevel board frame) := by
  unfold HpsdrControl.configureLevel
  dsimp only
  split
  · exact hears.latch rfl
  split
  · exact hears.latch rfl
  split
  · exact leaves_finds fun _ => hears.latch rfl
  · exact leaves_write (hears.plain _ rfl)

theorem configureRxAttenuation (data : BitVec 16 → BitVec 16) :
    p.Keeps (configureRxAttenuation data) := leaves_finds fun _ => hears.latch rfl

theorem setFreqData {k : Fin 3} {value : BitVec 32} {first onward : Act} (before : p.Keeps first)
    (after : p.Keeps onward) : p.Raises (setFreqData board k value first onward) := by
  intro s
  unfold HpsdrControl.setFreqData finds
  by_cases same : s.filters.freqData k = value
  · simp [when, same]
  · set s₁ : HpsdrControl := { s with filters := { s.filters with
      freqData := Function.update s.filters.freqData k value } } with stored
    obtain ⟨settings, _, shadow, shows⟩ := keeps_apart before s₁
    obtain ⟨settings', shadow', up⟩ := hears.raised (first s₁).1
    obtain ⟨settings'', flag, shadow'', shows'⟩ :=
      keeps_apart (leaves_when (board.i2c .arduino) after) (raiseFlags board (first s₁).1).1
    have differ := hears.changed s.filters k value same
    have kept := hears.frequency s.filters (Function.update s.filters.freqData k value)
    simp only [when, bne_iff_ne, ne_eq, same, not_false_eq_true, if_true, seq, store, ← stored,
      List.nil_append, List.append_nil, List.filterMap_append] at *
    refine ⟨?_, ?_, .inr ⟨?_, ?_⟩⟩
    · exact shadow''.trans (shadow'.trans (shadow.trans kept))
    · rw [shows, shows']
      rfl
    · rw [settings'', settings', settings]
      exact differ
    · exact flag.trans up

theorem txFrequency : p.Raises (txFrequency board frame) :=
  raises_when _ <| raises_after (leaves_write (hears.plain _ rfl)) <|
    raises_cons (hears.setFreqData hears.icomWrite (hears.latch rfl)) leaves_nil

theorem rxFrequency1 : p.Raises (rxFrequency1 board frame) :=
  raises_when _ <| raises_after (hears.setRxFreq _ _) <|
    raises_after (leaves_finds fun _ => leaves_when _ hears.copyRxFreq) <|
    raises_cons (hears.setFreqData (leaves_finds fun _ => leaves_when _ hears.resetLos)
      (hears.latch rfl)) leaves_nil

theorem rxFrequencyData2 : p.Raises (rxFrequencyData2 board frame) :=
  hears.setFreqData leaves_nil (hears.latch rfl)

theorem rxFrequency2 : p.Raises (rxFrequency2 board frame) :=
  raises_finds fun _ => raises_when _ <| raises_after (hears.setRxFreq _ _) <|
    raises_cons (raises_when _ hears.rxFrequencyData2) leaves_nil

theorem rxFrequency3 : p.Raises (rxFrequency3 board frame) :=
  raises_when _ <| raises_after (hears.setRxFreq _ _) <|
    raises_cons (raises_when _ hears.rxFrequencyData2) leaves_nil

/-- The frames that do not go by the word, whatever it is. -/
theorem processEp2 (gpioIn : BitVec 8)
    (general : p.Raises (general board frame gpioIn))
    (filterSettings : p.Raises (filterSettings board frame))
    (rx1Attenuation : p.Raises (rx1Attenuation board frame))
    (rx2Attenuation : p.Raises (rx2Attenuation board frame)) :
    p.Raises (processEp2 board frame gpioIn) := by
  unfold HpsdrControl.processEp2
  split
  · exact general
  · exact general
  · exact hears.txFrequency
  · exact hears.txFrequency
  · exact hears.rxFrequency1
  · exact hears.rxFrequency1
  · exact hears.rxFrequency2
  · exact hears.rxFrequency2
  · exact hears.rxFrequency3
  · exact hears.rxFrequency3
  · exact filterSettings
  · exact filterSettings
  · exact rx1Attenuation
  · exact rx1Attenuation
  · exact rx2Attenuation
  · exact rx2Attenuation
  · exact raises_of_keeps (leaves_when _ (leaves_finds fun _ => hears.latch rfl))
  · exact raises_of_keeps (leaves_when _ (leaves_finds fun _ => hears.latch rfl))
  · exact raises_of_keeps (leaves_when _ (leaves_write (hears.plain _ rfl)))
  · exact raises_of_keeps (leaves_when _ (leaves_write (hears.plain _ rfl)))
  · exact raises_of_keeps (leaves_when _ (leaves_write (hears.plain _ rfl)))
  · exact raises_of_keeps (leaves_when _ (leaves_write (hears.plain _ rfl)))
  · exact raises_of_keeps leaves_nil

end Hears

end Port

/-! ### The four words -/

/-- The word of the transmitter's board, or of the receivers'. -/
def alexPort (tx : Bool) : Port ((Fin 3 → BitVec 32) × BitVec 16 × BitVec 16) (BitVec 16) where
  settings f := (f.freqData, f.alexData0, f.alexData1)
  flag f := f.alexUpdate
  shadow f := if tx then f.alexDataTx else f.alexDataRx
  word x := if tx then alexTx x.1 x.2.1 x.2.2 else alexRx x.1 x.2.1 x.2.2
  shows
    | .alex word => if word.getLsbD (if tx then 17 else 16) then some (word.setWidth 16) else none
    | _ => none

def miscPort :
    Port ((Fin 3 → BitVec 32) × BitVec 16 × BitVec 16 × BitVec 16) (BitVec 16) where
  settings f := (f.freqData, f.miscData0, f.miscData1, f.miscData2)
  flag f := f.miscUpdate
  shadow f := f.i2cMiscData
  word x := BandCode.miscData x.1 x.2.1 x.2.2.1 x.2.2.2
  shows
    | .i2c .misc [_, low, high] => some (high ++ low)
    | _ => none

def nucleoPort : Port ((Fin 3 → BitVec 32) × BitVec 32 × BitVec 32 × BitVec 32 × BitVec 32)
    (BitVec 32 × BitVec 32) where
  settings f := (f.freqData, f.nucleoData0, f.nucleoData1, f.nucleoData2, f.nucleoData3)
  flag f := f.nucleoUpdate
  shadow f := f.i2cNucleoData
  word x := BandCode.nucleoData x.1 x.2.1 x.2.2.1 x.2.2.2.1 x.2.2.2.2
  shows
    | .i2c .nucleo [a, b, c, d, e] => some (d ++ c ++ b ++ a, e.setWidth 32)
    | _ => none

open Port

variable {board : Board} {frame : Frame} {past : List Tick} {s : HpsdrControl}

theorem update_ne {freqData : Fin 3 → BitVec 32} {k : Fin 3} {value : BitVec 32}
    (differ : freqData k ≠ value) : Function.update freqData k value ≠ freqData := by
  intro same
  have there := congrFun same k
  rw [Function.update_self] at there
  exact differ there.symm

theorem alex_hears (tx : Bool) : (alexPort tx).Hears board where
  plain effect other := by
    cases effect with
    | alex word => cases other
    | _ => rfl
  changed f k value differ same := update_ne differ (congrArg (·.1) same)
  frequency _ _ := by cases tx <;> rfl
  raised s := by cases tx <;> exact ⟨rfl, rfl, rfl⟩

theorem misc_hears (there : board.i2c .misc = true) : miscPort.Hears board where
  plain effect other := by
    cases effect with
    | i2c device bytes => cases device <;> first | rfl | cases other
    | _ => rfl
  changed f k value differ same := update_ne differ (congrArg (·.1) same)
  frequency _ _ := rfl
  raised s := ⟨rfl, rfl, by simp [raiseFlags, store, miscPort, there]⟩

theorem nucleo_hears (there : board.i2c .nucleo = true) : nucleoPort.Hears board where
  plain effect other := by
    cases effect with
    | i2c device bytes => cases device <;> first | rfl | cases other
    | _ => rfl
  changed f k value differ same := update_ne differ (congrArg (·.1) same)
  frequency _ _ := rfl
  raised s := ⟨rfl, rfl, by simp [raiseFlags, store, nucleoPort, there]⟩

/-! ### The settings of each word -/

section

variable {tx : Bool} {data : BitVec 16}

theorem alex_raises0 : (alexPort tx).Raises (setAlexData0 data) :=
  raises_set (·.alexData0) fun s => ⟨by cases tx <;> rfl, rfl, fun differ same =>
    differ (congrArg (·.2.1) same).symm⟩

theorem alex_raises1 : (alexPort tx).Raises (setAlexData1 data) :=
  raises_set (·.alexData1) fun s => ⟨by cases tx <;> rfl, rfl, fun differ same =>
    differ (congrArg (·.2.2) same).symm⟩

theorem misc_raises0 : miscPort.Raises (setMiscData0 data) :=
  raises_set (·.miscData0) fun _ => ⟨rfl, rfl, fun differ same =>
    differ (congrArg (·.2.1) same).symm⟩

theorem misc_raises1 : miscPort.Raises (setMiscData1 data) :=
  raises_set (·.miscData1) fun _ => ⟨rfl, rfl, fun differ same =>
    differ (congrArg (·.2.2.1) same).symm⟩

theorem misc_raises2 : miscPort.Raises (setMiscData2 data) :=
  raises_set (·.miscData2) fun _ => ⟨rfl, rfl, fun differ same =>
    differ (congrArg (·.2.2.2) same).symm⟩

theorem nucleo_raises0 : nucleoPort.Raises (setNucleoData0 data) :=
  raises_set (·.nucleoData0) fun _ => ⟨rfl, rfl, fun differ same =>
    differ (congrArg (·.2.1) same).symm⟩

theorem nucleo_raises1 : nucleoPort.Raises (setNucleoData1 data) :=
  raises_set (·.nucleoData1) fun _ => ⟨rfl, rfl, fun differ same =>
    differ (congrArg (·.2.2.1) same).symm⟩

theorem nucleo_raises2 : nucleoPort.Raises (setNucleoData2 data) :=
  raises_set (·.nucleoData2) fun _ => ⟨rfl, rfl, fun differ same =>
    differ (congrArg (·.2.2.2.1) same).symm⟩

theorem nucleo_raises3 : nucleoPort.Raises (setNucleoData3 data) :=
  raises_set (·.nucleoData3) fun _ => ⟨rfl, rfl, fun differ same =>
    differ (congrArg (·.2.2.2.2) same).symm⟩

end

section

variable {p : Port α β} (hears : p.Hears board)

include hears

/-- The frames of the general settings, with what they set for the word. -/
theorem general_raises (gpioIn : BitVec 8)
    (sets : ∀ data pins rest, p.Keeps (seq rest) → p.Raises (seq (setAlexData0 data ::
      when (board.i2c .pene) (configurePenelope frame) ::
      when (board.i2c .nucleo) (setNucleoData0 pins) :: rest))) :
    p.Raises (general board frame gpioIn) :=
  raises_after hears.setSync <| raises_after (leaves_store fun _ => rfl) <|
    raises_after (hears.setOutputs gpioIn) <| raises_after (leaves_write (hears.plain _ rfl)) <|
    sets _ _ _ <| leaves_cons (leaves_when _ (leaves_finds fun _ => hears.latch rfl)) <|
    leaves_cons (leaves_when _ (leaves_finds fun _ => hears.latch rfl)) leaves_nil

theorem filterSettings_raises
    (sets : ∀ data data' data'' rest, p.Keeps (seq rest) → p.Raises (seq (setAlexData1 data ::
      when (board.i2c .misc) (setMiscData2 data') ::
      when (board.i2c .nucleo) (setNucleoData1 data'') :: rest))) :
    p.Raises (filterSettings board frame) :=
  sets _ _ _ _ <| leaves_cons (leaves_when _ (hears.latch rfl)) <|
    leaves_cons hears.configureLevel <| leaves_cons (leaves_when _ (hears.latch rfl)) leaves_nil

theorem rx1Attenuation_raises
    (sets : ∀ data rest, p.Keeps (seq rest) → p.Raises (seq (
      when (board.i2c .misc) (setMiscData0 data) ::
      when (board.i2c .nucleo) (setNucleoData2 data) :: rest))) :
    p.Raises (rx1Attenuation board frame) :=
  raises_after (leaves_store fun _ => rfl) <| sets _ _ <|
    leaves_cons (leaves_when _ (hears.configureRxAttenuation _)) leaves_nil

theorem rx2Attenuation_raises
    (sets : ∀ data rest, p.Keeps (seq rest) → p.Raises (seq (
      when (board.i2c .misc) (setMiscData1 data) ::
      when (board.i2c .nucleo) (setNucleoData3 data) :: rest))) :
    p.Raises (rx2Attenuation board frame) :=
  sets _ _ <| leaves_cons (leaves_when _ (hears.configureRxAttenuation _)) leaves_nil

theorem begin_raises : p.Raises begin :=
  raises_after (leaves_store fun _ => rfl) (raises_of_keeps (leaves_cons hears.resetLos leaves_nil))

end

theorem keeps_set {p : Port α β} {condition : HpsdrControl → Bool}
    {f : HpsdrControl → HpsdrControl}
    (same : ∀ s, p.view (f s) = p.view s) :
    p.Keeps (finds fun s => when (condition s) (store f)) :=
  leaves_finds fun _ => leaves_when _ (leaves_store same)

/-! ### The end of a pass -/

/-- A part that lowers the flag and writes the word, where the flag is raised. -/
theorem flushes_pass [DecidableEq β] {p : Port α β} {lower : HpsdrControl → HpsdrControl} {a : Act}
    (lowers : ∀ s, p.settings (lower s).filters = p.settings s.filters ∧
      p.flag (lower s).filters = false ∧ p.shadow (lower s).filters = p.shadow s.filters)
    (writes : ∀ s, p.settings (a s).1.filters = p.settings s.filters ∧
      p.flag (a s).1.filters = p.flag s.filters ∧
      p.shadow (a s).1.filters = p.word (p.settings s.filters) ∧
      (a s).2.filterMap p.shows = refresh (p.shadow s.filters) (p.word (p.settings s.filters))) :
    p.Flushes (finds fun s => when (p.flag s.filters) (seq [store lower, a])) := by
  intro s
  cases raised : p.flag s.filters with
  | false =>
    have same : (finds fun s => when (p.flag s.filters) (seq [store lower, a])) s = (s, []) := by
      simp [finds, when, raised]
    rw [same]
    exact ⟨rfl, raised, fun due => Bool.noConfusion due, fun _ => ⟨rfl, rfl⟩⟩
  | true =>
    have both : (finds fun s => when (p.flag s.filters) (seq [store lower, a])) s = a (lower s) := by
      simp [finds, when, raised, seq, store]
    obtain ⟨settings, low, shadow⟩ := lowers s
    obtain ⟨settings', flag', shadow', shows⟩ := writes (lower s)
    rw [both, shadow', shows, settings, shadow]
    exact ⟨settings'.trans settings, flag'.trans low, fun _ => ⟨rfl, rfl⟩,
      fun idle => Bool.noConfusion idle⟩

/-- What is written to the port of the Alex boards shows one word each. -/
theorem shows_alex (tx : Bool) (data : BitVec 16) :
    (alexPort tx).shows (.alex (0x10000 ||| data.setWidth 32)) =
        (if tx then none else some data) ∧
      (alexPort tx).shows (.alex (0x20000 ||| data.setWidth 32)) =
        (if tx then some data else none) := by
  have low (high : BitVec 32) (clear : high.setWidth 16 = 0#16) :
      (high ||| data.setWidth 32).setWidth 16 = data := by
    rw [BitVec.setWidth_or, clear, BitVec.zero_or, BitVec.setWidth_setWidth_of_le _ (by decide),
      BitVec.setWidth_eq]
  have first : (0x10000#32 ||| data.setWidth 32).setWidth 16 = data := low _ rfl
  have second : (0x20000#32 ||| data.setWidth 32).setWidth 16 = data := low _ rfl
  cases tx <;> simp [alexPort, first, second]

theorem alexPass_flushes {tx : Bool} (codec : board.i2c .codec = false) :
    (alexPort tx).Flushes (alexPass board) := by
  refine flushes_pass (p := alexPort tx) (fun s => ⟨rfl, rfl, by cases tx <;> rfl⟩) fun s => ?_
  have first (data : BitVec 16) := (shows_alex tx data).1
  have second (data : BitVec 16) := (shows_alex tx data).2
  simp only [alexWrite, codec, Bool.false_eq_true, if_false, List.filterMap_append,
    List.filterMap_map, Function.comp_def, first, second]
  cases tx
  · exact ⟨rfl, rfl, rfl, by simp [alexPort, Filters.rxWord]⟩
  · exact ⟨rfl, rfl, rfl, by simp [alexPort, Filters.txWord]⟩

theorem setWidth_append {w : Nat} (x : BitVec w) (k n : Nat) :
    (x >>> (k + 8)).setWidth n ++ (x >>> k).setWidth 8 = (x >>> k).setWidth (n + 8) := by
  refine BitVec.eq_of_getLsbD_eq fun j low => ?_
  simp only [BitVec.getLsbD_append, BitVec.getLsbD_setWidth, BitVec.getLsbD_ushiftRight]
  by_cases below : j < 8
  · simp [below, low]
  · have there : k + 8 + (j - 8) = k + j := by omega
    simp [below, low, there, show j - 8 < n by omega]

theorem miscPass_flushes : miscPort.Flushes miscPass :=
  flushes_pass (p := miscPort) (fun _ => ⟨rfl, rfl, rfl⟩) fun s => ⟨rfl, rfl, rfl, by
    have word (data : BitVec 16) : (data >>> 8).setWidth 8 ++ data.setWidth 8 = data :=
      (setWidth_append data 0 8).trans (BitVec.setWidth_eq data)
    simp [miscWrite, miscPort, addrData16, Filters.miscWord, word]⟩

/-- The codes of the bands fit the one byte that is left for them. -/
theorem nucleoWords_short (f : Filters) : (f.nucleoWords.2.setWidth 8).setWidth 32 =
    f.nucleoWords.2 := by
  have small (k : Fin 3) : BandCode.bandCode BandCode.nucleoFreqs (f.freqData k) < 16 := by
    have le : 2 * BandCode.bandCode BandCode.nucleoFreqs (f.freqData k) ≤ 22 :=
      BandCode.bandCode_le BandCode.nucleoFreqs_edges
    omega
  have code (k : Fin 3) :
      (BitVec.ofNat 32 (BandCode.bandCode BandCode.nucleoFreqs (f.freqData k))).toNat < 16 := by
    rw [BitVec.toNat_ofNat]
    exact Nat.lt_of_le_of_lt (Nat.mod_le _ _) (small k)
  have high := code 2
  have low := code 1
  unfold Filters.nucleoWords BandCode.nucleoData
  dsimp only
  generalize BitVec.ofNat 32 (BandCode.bandCode BandCode.nucleoFreqs (f.freqData 2)) = a at high ⊢
  generalize BitVec.ofNat 32 (BandCode.bandCode BandCode.nucleoFreqs (f.freqData 1)) = b at low ⊢
  have fits : (a <<< 4 ||| b).toNat < 2 ^ 8 := by
    rw [BitVec.toNat_or]
    refine Nat.or_lt_two_pow ?_ (Nat.lt_trans low (by decide))
    rw [BitVec.toNat_shiftLeft, Nat.shiftLeft_eq]
    omega
  apply BitVec.eq_of_toNat_eq
  rw [BitVec.toNat_setWidth, BitVec.toNat_setWidth, Nat.mod_eq_of_lt fits]
  exact Nat.mod_eq_of_lt (Nat.lt_trans fits (by decide))

theorem nucleoPass_flushes : nucleoPort.Flushes nucleoPass :=
  flushes_pass (p := nucleoPort) (fun _ => ⟨rfl, rfl, rfl⟩) fun s => ⟨rfl, rfl, rfl, by
    have word (data : BitVec 32) : (data >>> 24).setWidth 8 ++ (data >>> 16).setWidth 8 ++
        (data >>> 8).setWidth 8 ++ data.setWidth 8 = data := by
      rw [setWidth_append data 16 8, setWidth_append data 8 16]
      exact (setWidth_append data 0 24).trans (BitVec.setWidth_eq data)
    have shown := congrArg (fun high => [(s.filters.nucleoWords.1, high)])
      (nucleoWords_short s.filters)
    simp only [nucleoWrite, nucleoPort, data40, List.filterMap_map, Function.comp_def, word,
      List.filterMap_eq_map']
    change _ = refresh s.filters.i2cNucleoData s.filters.nucleoWords
    unfold refresh
    split
    · exact shown
    · rfl⟩

theorem keeps_pass {p : Port α β} {condition : HpsdrControl → Bool}
    {lower : HpsdrControl → HpsdrControl} {a : Act} (lowers : p.Keeps (store lower))
    (writes : p.Keeps a) : p.Keeps (finds fun s => when (condition s) (seq [store lower, a])) :=
  leaves_finds fun _ => leaves_when _ <| leaves_cons lowers <| leaves_cons writes leaves_nil

theorem alexWrite_keeps {p : Port α β} (alex : ∀ word, p.shows (.alex word) = none)
    (same : ∀ s : HpsdrControl, ∀ rx tx, p.view { s with
      filters := { s.filters with alexDataRx := rx, alexDataTx := tx } } = p.view s) :
    p.Keeps (alexWrite board) := by
  intro s
  unfold alexWrite
  split
  · exact ⟨rfl, rfl⟩
  · refine ⟨same s s.filters.rxWord s.filters.txWord, ?_⟩
    simp [alex]

/-! ### Runs of the main loop -/

theorem alex_serves (tx : Bool) (codec : board.i2c .codec = false) :
    (alexPort tx).Serves board := by
  have hears : (alexPort tx).Hears board := alex_hears tx
  have nucleo0 (data : BitVec 16) : (alexPort tx).Keeps (setNucleoData0 data) :=
    keeps_set fun _ => by cases tx <;> rfl
  have nucleo1 (data : BitVec 16) : (alexPort tx).Keeps (setNucleoData1 data) :=
    keeps_set fun _ => by cases tx <;> rfl
  have nucleo2 (data : BitVec 16) : (alexPort tx).Keeps (setNucleoData2 data) :=
    keeps_set fun _ => by cases tx <;> rfl
  have nucleo3 (data : BitVec 16) : (alexPort tx).Keeps (setNucleoData3 data) :=
    keeps_set fun _ => by cases tx <;> rfl
  have misc0 (data : BitVec 16) : (alexPort tx).Keeps (setMiscData0 data) :=
    keeps_set fun _ => by cases tx <;> rfl
  have misc1 (data : BitVec 16) : (alexPort tx).Keeps (setMiscData1 data) :=
    keeps_set fun _ => by cases tx <;> rfl
  have misc2 (data : BitVec 16) : (alexPort tx).Keeps (setMiscData2 data) :=
    keeps_set fun _ => by cases tx <;> rfl
  refine ⟨fun frame gpioIn => hears.processEp2 gpioIn ?_ ?_ ?_ ?_, begin_raises hears, ?_⟩
  · exact general_raises hears gpioIn fun _ _ _ keeps => raises_cons alex_raises0 <|
      leaves_cons (leaves_when _ (hears.latch rfl)) <| leaves_cons (leaves_when _ (nucleo0 _)) keeps
  · exact filterSettings_raises hears fun _ _ _ _ keeps => raises_cons alex_raises1 <|
      leaves_cons (leaves_when _ (misc2 _)) <| leaves_cons (leaves_when _ (nucleo1 _)) keeps
  · exact rx1Attenuation_raises hears fun _ _ keeps =>
      raises_of_keeps <| leaves_cons (leaves_when _ (misc0 _)) <|
        leaves_cons (leaves_when _ (nucleo2 _)) keeps
  · exact rx2Attenuation_raises hears fun _ _ keeps =>
      raises_of_keeps <| leaves_cons (leaves_when _ (misc1 _)) <|
        leaves_cons (leaves_when _ (nucleo3 _)) keeps
  · intro alexPtt nucleoPtt
    refine passes_cons (raises_finds fun _ => alex_raises0) <|
      flushes_cons (alexPass_flushes codec) <| leaves_cons ?_ <|
      leaves_cons (leaves_finds fun _ => nucleo0 _) <| leaves_cons ?_ leaves_nil
    · refine keeps_pass (leaves_store fun _ => by cases tx <;> rfl) fun s => ?_
      exact ⟨by cases tx <;> rfl, by simp [miscWrite, alexPort]⟩
    · refine keeps_pass (leaves_store fun _ => by cases tx <;> rfl) fun s => ?_
      exact ⟨by cases tx <;> rfl, by simp [nucleoWrite, alexPort]⟩

theorem misc_serves (there : board.i2c .misc = true) : miscPort.Serves board := by
  have hears : miscPort.Hears board := misc_hears there
  have alex0 (data : BitVec 16) : miscPort.Keeps (setAlexData0 data) :=
    keeps_set fun _ => rfl
  have nucleo0 (data : BitVec 16) : miscPort.Keeps (setNucleoData0 data) :=
    keeps_set fun _ => rfl
  refine ⟨fun frame gpioIn => hears.processEp2 gpioIn ?_ ?_ ?_ ?_, begin_raises hears, ?_⟩
  · exact general_raises hears gpioIn fun _ _ _ keeps => raises_of_keeps <| leaves_cons (alex0 _) <|
      leaves_cons (leaves_when _ (hears.latch rfl)) <|
      leaves_cons (leaves_when _ (nucleo0 _)) keeps
  · exact filterSettings_raises hears fun _ _ _ _ keeps =>
      raises_after (keeps_set fun _ => rfl) <|
      raises_cons (raises_when _ misc_raises2) <|
      leaves_cons (leaves_when _ (keeps_set fun _ => rfl)) keeps
  · exact rx1Attenuation_raises hears fun _ _ keeps =>
      raises_cons (raises_when _ misc_raises0) <|
      leaves_cons (leaves_when _ (keeps_set fun _ => rfl)) keeps
  · exact rx2Attenuation_raises hears fun _ _ keeps =>
      raises_cons (raises_when _ misc_raises1) <|
      leaves_cons (leaves_when _ (keeps_set fun _ => rfl)) keeps
  · intro alexPtt nucleoPtt
    refine passes_cons (raises_of_keeps (leaves_finds fun _ => alex0 _)) <| flushes_after ?_ <|
      flushes_cons miscPass_flushes <| leaves_cons (leaves_finds fun _ => nucleo0 _) <|
      leaves_cons ?_ leaves_nil
    · exact keeps_pass (leaves_store fun _ => rfl)
        (alexWrite_keeps (fun _ => rfl) fun _ _ _ => rfl)
    · refine keeps_pass (leaves_store fun _ => rfl) fun s => ?_
      exact ⟨rfl, by simp [nucleoWrite, miscPort]⟩

theorem nucleo_serves (there : board.i2c .nucleo = true) : nucleoPort.Serves board := by
  have hears : nucleoPort.Hears board := nucleo_hears there
  have alex0 (data : BitVec 16) : nucleoPort.Keeps (setAlexData0 data) :=
    keeps_set fun _ => rfl
  refine ⟨fun frame gpioIn => hears.processEp2 gpioIn ?_ ?_ ?_ ?_, begin_raises hears, ?_⟩
  · exact general_raises hears gpioIn fun _ _ _ keeps => raises_after (alex0 _) <|
      raises_after (leaves_when _ (hears.latch rfl)) <|
      raises_cons (raises_when _ nucleo_raises0) keeps
  · exact filterSettings_raises hears fun _ _ _ _ keeps =>
      raises_after (keeps_set fun _ => rfl) <|
      raises_after (leaves_when _ (keeps_set fun _ => rfl)) <|
      raises_cons (raises_when _ nucleo_raises1) keeps
  · exact rx1Attenuation_raises hears fun _ _ keeps =>
      raises_after (leaves_when _ (keeps_set fun _ => rfl)) <|
      raises_cons (raises_when _ nucleo_raises2) keeps
  · exact rx2Attenuation_raises hears fun _ _ keeps =>
      raises_after (leaves_when _ (keeps_set fun _ => rfl)) <|
      raises_cons (raises_when _ nucleo_raises3) keeps
  · intro alexPtt nucleoPtt
    refine passes_after (leaves_finds fun _ => alex0 _) <| passes_after ?_ <| passes_after ?_ <|
      passes_cons (raises_finds fun _ => nucleo_raises0) <|
      flushes_cons nucleoPass_flushes leaves_nil
    · exact keeps_pass (leaves_store fun _ => rfl)
        (alexWrite_keeps (fun _ => rfl) fun _ _ _ => rfl)
    · refine keeps_pass (leaves_store fun _ => rfl) fun s => ?_
      exact ⟨rfl, by simp [miscWrite, nucleoPort]⟩

def written (p : Port α β) (board : Board) (past : List Tick) : List β :=
  past.flatMap fun c => (effects board c).filterMap p.shows

/-- The words of a port at the ends of the passes, from the first change of its settings on. -/
def wanted [DecidableEq α] (p : Port α β) (board : Board) (past : List Tick) : List β :=
  (p.deferred board).wanted past

/-- Nothing is left out, nothing is written twice: each filter is written the words of its settings
at the ends of the passes, from the first change of these settings on, and of equal words that
follow each other the first. What was written last belongs to the settings at the end of the last
pass. -/
theorem run_tells (run : (circuit board).Run past s) :
    (board.i2c .codec = false → ∀ tx, 0 :: written (alexPort tx) board past =
      (wanted (alexPort tx) board past).destutter' (· ≠ ·) 0) ∧
    (board.i2c .misc = true → 0 :: written miscPort board past =
      (wanted miscPort board past).destutter' (· ≠ ·) 0) ∧
    (board.i2c .nucleo = true → (0, 0) :: written nucleoPort board past =
      (wanted nucleoPort board past).destutter' (· ≠ ·) (0, 0)) := by
  refine ⟨fun codec tx => ?_, fun there => ?_, fun there => ?_⟩
  · exact (Deferred.run_kept ((alex_serves tx codec).lawful
      fun _ _ => ⟨by cases tx <;> rfl, rfl⟩) run).written
  · exact (Deferred.run_kept ((misc_serves there).lawful fun _ _ => ⟨rfl, rfl⟩) run).written
  · exact (Deferred.run_kept ((nucleo_serves there).lawful fun _ _ => ⟨rfl, rfl⟩) run).written

/-- A radio with the filters on the I2C bus and no codec. -/
def bench : Board where
  i2c device := device == .misc || device == .nucleo
  uart := false
  thetis := false
  phase freq := freq
  dacPhase freq := freq
  level data := data
  logTableLookup _ := 0

/-- The first receiver is tuned to 7 MHz, to 14 MHz and back between two passes, and then the
attenuator is set; the last pass finds nothing to do. -/
def retuned : List Move :=
  let tune (low : BitVec 8) (high : BitVec 8) (lowest : BitVec 8) : Move :=
    .frame ![4, 0, low, high, lowest] 0
  [tune 0x6a 0xcf 0xc0, .endPass false false, tune 0xd5 0x9f 0x80, tune 0x6a 0xcf 0xc0,
    .endPass false false, .frame ![20, 0, 0, 0, 31] 0, .endPass true true, .endPass true true]

/-- The tuning back and forth is written to no filter. -/
theorem run_tells_retuned :
    let past := (circuit bench).trace (initial 0 3) retuned
    written (alexPort false) bench past = [0x1001, 0x9001] ∧
      (∀ tx, 0 :: written (alexPort tx) bench past =
        (wanted (alexPort tx) bench past).destutter' (· ≠ ·) 0) ∧
      0 :: written miscPort bench past = (wanted miscPort bench past).destutter' (· ≠ ·) 0 ∧
      (0, 0) :: written nucleoPort bench past =
        (wanted nucleoPort bench past).destutter' (· ≠ ·) (0, 0) := by
  have tells := run_tells (run_trace (C := circuit bench) ⟨0, 3, rfl⟩ retuned)
  exact ⟨by decide +kernel, tells.1 rfl, tells.2.1 rfl, tells.2.2 rfl⟩

end HpsdrControl

end Switcheck
