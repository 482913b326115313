import Switcheck.Server.HpsdrControl

/-!
# Synchronised receivers

While `rx_sync_data` is set the first two receivers are to listen with one phase: a change of the
frequency is written to both increments, one after the other, and then both `dds_compiler` cores
are reset together.
-/

namespace Switcheck

open Sync Circuit

open HpsdrKeyer (Frame)

namespace HpsdrControl

attribute [local instance] neZero_five neZero_three

/-- A `dds_compiler` core: what a clock with `aresetn` and an increment on `s_axis_phase` makes of
its registers, and the clocks for which a reset is to last. -/
structure DdsCompiler (σ : Type) where
  clock : Bool → BitVec 32 → σ → σ
  resetClocks : Nat

/-- A reset that lasts that long leaves nothing of the registers before it. -/
def DdsCompiler.Clears {σ : Type} (core : DdsCompiler σ) : Prop :=
  ∀ phase x y, (core.clock false phase)^[core.resetClocks] x =
    (core.clock false phase)^[core.resetClocks] y

/-- The cores of the first two receivers, and the words of the register file they go by. -/
structure Los (σ : Type) where
  rxFreq : Fin 3 → BitVec 32
  loRst : BitVec 8
  dds : Fin 2 → σ

variable {σ : Type} {core : DdsCompiler σ}

namespace Los

def clock (core : DdsCompiler σ) (l : Los σ) : Los σ :=
  { l with dds := fun k => core.clock (l.loRst.getLsbD k) (l.rxFreq k.castSucc) (l.dds k) }

def hear (l : Los σ) : Effect → Los σ
  | .rxFreq k value => { l with rxFreq := Function.update l.rxFreq k value }
  | .loRst value => { l with loRst := value }
  | _ => l

/-- Writes one after the other, with `gap k + 1` clocks after write `k`. -/
def play (core : DdsCompiler σ) (l : Los σ) : List Effect → (Nat → Nat) → Los σ
  | [], _ => l
  | effect :: rest, gap =>
    play core ((clock core)^[gap 0 + 1] (l.hear effect)) rest fun k => gap (k + 1)

/-- The cores have one increment, one reset and the same registers. -/
structure Together (l : Los σ) : Prop where
  freq : l.rxFreq 0 = l.rxFreq 1
  reset : l.loRst.getLsbD 0 = l.loRst.getLsbD 1
  dds : l.dds 0 = l.dds 1

variable {l : Los σ} {effect : Effect} {gap : Nat → Nat}

theorem play_append (xs ys : List Effect) : play core l (xs ++ ys) gap =
    play core (play core l xs gap) ys fun k => gap (xs.length + k) := by
  induction xs generalizing l gap with
  | nil => simp [play]
  | cons effect xs ih =>
    rw [List.cons_append, play, ih, play]
    congr 1
    funext k
    rw [List.length_cons]
    congr 1
    omega

theorem clock_iterate (n : Nat) : (clock core)^[n] l = { l with
    dds := fun k => (core.clock (l.loRst.getLsbD k) (l.rxFreq k.castSucc))^[n] (l.dds k) } := by
  induction n generalizing l with
  | zero => rfl
  | succ n ih => exact ih

theorem clock_rxFreq (n : Nat) : ((clock core)^[n] l).rxFreq = l.rxFreq := by rw [clock_iterate]

theorem clock_loRst (n : Nat) : ((clock core)^[n] l).loRst = l.loRst := by rw [clock_iterate]

theorem castSucc_zero_one : (0 : Fin 2).castSucc = (0 : Fin 3) ∧ (1 : Fin 2).castSucc = (1 : Fin 3) :=
  ⟨rfl, rfl⟩

theorem Together.clock (together : l.Together) (n : Nat) : ((Los.clock core)^[n] l).Together := by
  obtain ⟨freq, reset, dds⟩ := together
  have reset' : l.loRst.getLsbD (0 : Fin 2) = l.loRst.getLsbD (1 : Fin 2) := by simpa using reset
  rw [clock_iterate]
  refine ⟨freq, reset, ?_⟩
  simp only [castSucc_zero_one, freq, reset', dds]

/-- Where both cores are held in reset long enough, their registers are equal from then on. -/
theorem together_of_low (clears : core.Clears) (freq : l.rxFreq 0 = l.rxFreq 1)
    (low : ∀ k : Fin 2, l.loRst.getLsbD k = false) {n : Nat} (long : core.resetClocks ≤ n) :
    ((clock core)^[n] l).Together := by
  obtain ⟨more, rfl⟩ := Nat.exists_eq_add_of_le' long
  rw [Function.iterate_add_apply]
  refine Together.clock ?_ more
  rw [clock_iterate]
  refine ⟨freq, (low 0).trans (low 1).symm, ?_⟩
  simp only [castSucc_zero_one, freq, low]
  exact clears _ _ _

end Los

open Los

/-! ### What the parts of the program leave of it -/

def tunes : Effect → Option Effect
  | .rxFreq k value => some (.rxFreq k value)
  | .loRst value => some (.loRst value)
  | _ => none

/-- What of the variables goes with the oscillators. -/
def tuning (s : HpsdrControl) : BitVec 16 × (Fin 3 → BitVec 32) × BitVec 8 × BitVec 32 :=
  (s.rxSyncData, s.rxFreq, s.loRst, s.filters.freqData 1)

/-- The part has nothing to do with the oscillators of the receivers. -/
abbrev Quiet : Act → Prop := Leaves tuning tunes

/-- The registers that the program reads back are the ones that the oscillators go by. -/
structure Mirrors (s : HpsdrControl) (l : Los σ) : Prop where
  rxFreq : l.rxFreq = s.rxFreq
  loRst : l.loRst = s.loRst

/-- The first increment belongs to the first frequency, once that is known. -/
structure Heard (board : Board) (s : HpsdrControl) (l : Los σ) : Prop extends Mirrors s l where
  tuned : s.filters.freqData 1 ≠ 0 → s.rxFreq 0 = board.phase (s.filters.freqData 1)

structure Coherent (board : Board) (s : HpsdrControl) (l : Los σ) : Prop
    extends Heard board s l where
  together : s.rxSyncData ≠ 0 → l.Together

/-- After every write there is time for a reset. -/
def Slow (core : DdsCompiler σ) (effects : List Effect) (gap : Nat → Nat) : Prop :=
  ∀ k < effects.length, core.resetClocks ≤ gap k + 1

/-- What a part makes of the variables and the cores. -/
def Leads (core : DdsCompiler σ) (P : HpsdrControl → Los σ → Prop) (a : Act)
    (Q : HpsdrControl → Los σ → Prop) : Prop :=
  ∀ s l gap, Slow core (a s).2 gap → P s l → Q (a s).1 (play core l (a s).2 gap)

variable {board : Board} {frame : Frame} {P Q R : HpsdrControl → Los σ → Prop} {a : Act}
  {as : List Act} {s : HpsdrControl} {l : Los σ}

theorem leads_nil : Leads core P (seq []) P := fun _ _ _ _ holds => holds

theorem leads_cons (first : Leads core P a Q) (rest : Leads core Q (seq as) R) :
    Leads core P (seq (a :: as)) R := by
  intro s l gap slow holds
  rw [seq] at slow ⊢
  rw [play_append]
  have before : Slow core (a s).2 gap := fun k small => slow k (by rw [List.length_append]; omega)
  have after : Slow core (seq as (a s).1).2 fun k => gap ((a s).2.length + k) :=
    fun k small => slow _ (by rw [List.length_append]; omega)
  exact rest _ _ _ after (first s l gap before holds)

theorem leads_when {condition : Bool} (yes : condition = true → Leads core P a Q)
    (no : condition = false → ∀ s l, P s l → Q s l) : Leads core P (when condition a) Q := by
  intro s l gap slow holds
  cases condition
  · exact no rfl s l holds
  · exact yes rfl s l gap slow holds

theorem leads_finds {a : HpsdrControl → Act}
    (leads : ∀ s₀, Leads core (fun s l => s = s₀ ∧ P s l) (a s₀) Q) : Leads core P (finds a) Q :=
  fun s l gap slow holds => leads s s l gap slow ⟨rfl, holds⟩

theorem leads_store {f : HpsdrControl → HpsdrControl} (stored : ∀ s l, P s l → Q (f s) l) :
    Leads core P (store f) Q := fun s l _ _ holds => stored s l holds

theorem Mirrors.clock (mirrors : Mirrors s l) (n : Nat) : Mirrors s ((Los.clock core)^[n] l) where
  rxFreq := (clock_rxFreq n).trans mirrors.rxFreq
  loRst := (clock_loRst n).trans mirrors.loRst

theorem Coherent.clock (coherent : Coherent board s l) (n : Nat) :
    Coherent board s ((Los.clock core)^[n] l) where
  toHeard := ⟨coherent.toMirrors.clock n, coherent.tuned⟩
  together sync := (coherent.together sync).clock n

theorem play_quiet {effects : List Effect} (quiet : effects.filterMap tunes = []) (gap : Nat → Nat) :
    ∃ n, play core l effects gap = (clock core)^[n] l := by
  induction effects generalizing l gap with
  | nil => exact ⟨0, rfl⟩
  | cons effect rest ih =>
    have none := List.filterMap_eq_nil_iff.mp quiet effect List.mem_cons_self
    have deaf : l.hear effect = l := by
      cases effect with
      | rxFreq k value => cases none
      | loRst value => cases none
      | _ => rfl
    have later : rest.filterMap tunes = [] := by
      rwa [List.filterMap_cons_none none] at quiet
    obtain ⟨n, same⟩ := ih later (l := (clock core)^[gap 0 + 1] l) fun k => gap (k + 1)
    exact ⟨n + (gap 0 + 1), by rw [Los.play, deaf, same, ← Function.iterate_add_apply]⟩

theorem leads_quiet (quiet : Quiet a) : Leads core (Coherent board) a (Coherent board) := by
  intro s l gap _ coherent
  obtain ⟨same, none⟩ := quiet s
  obtain ⟨n, onward⟩ := play_quiet (l := l) none gap
  have sync : (a s).1.rxSyncData = s.rxSyncData := congrArg (·.1) same
  have freq : (a s).1.rxFreq = s.rxFreq := congrArg (·.2.1) same
  have reset : (a s).1.loRst = s.loRst := congrArg (·.2.2.1) same
  have data : (a s).1.filters.freqData 1 = s.filters.freqData 1 := congrArg (·.2.2.2) same
  obtain ⟨⟨⟨rxFreq, loRst⟩, tuned⟩, together⟩ := coherent.clock n
  rw [onward]
  exact ⟨⟨⟨rxFreq.trans freq.symm, loRst.trans reset.symm⟩, by rwa [data, freq]⟩, by rwa [sync]⟩

/-! ### The parts that leave the receivers alone -/

theorem latch_quiet {w : Nat} {device : Device} {get : Latched → BitVec w}
    {set : Latched → BitVec w → Latched} {bytes : BitVec w → List (BitVec 8)} {data : BitVec w} :
    Quiet (latch device get set bytes data) :=
  leaves_finds fun _ => leaves_when _ <| leaves_cons (leaves_store fun _ => rfl) <|
    leaves_cons (leaves_write rfl) leaves_nil

theorem set_quiet {condition : HpsdrControl → Bool} {f : HpsdrControl → HpsdrControl}
    (same : ∀ s, tuning (f s) = tuning s) :
    Quiet (finds fun s => when (condition s) (store f)) :=
  leaves_finds fun _ => leaves_when _ (leaves_store same)

theorem setFreqData_quiet {k : Fin 3} {value : BitVec 32} {first onward : Act} (other : k ≠ 1)
    (before : Quiet first) (after : Quiet onward) :
    Quiet (setFreqData board k value first onward) := by
  have stored (s : HpsdrControl) : tuning { s with filters := { s.filters with
      freqData := Function.update s.filters.freqData k value } } = tuning s := by
    simp [tuning, Function.update_of_ne other.symm]
  exact leaves_finds fun _ => leaves_when _ <| leaves_cons (leaves_store stored) <|
    leaves_cons before <| leaves_cons (leaves_store fun _ => rfl) <|
    leaves_cons (leaves_when _ after) leaves_nil

theorem icomWrite_quiet : Quiet (icomWrite board) :=
  leaves_finds fun _ => leaves_when _ <| leaves_cons (leaves_store fun _ => rfl) <|
    leaves_cons (leaves_when _ (leaves_write rfl)) leaves_nil

theorem configureLevel_quiet : Quiet (configureLevel board frame) := by
  unfold configureLevel
  dsimp only
  split
  · exact latch_quiet
  split
  · exact latch_quiet
  split
  · exact leaves_finds fun _ => latch_quiet
  · exact leaves_write rfl

theorem configureRxAttenuation_quiet {data : BitVec 16 → BitVec 16} :
    Quiet (configureRxAttenuation data) := leaves_finds fun _ => latch_quiet

theorem txFrequency_quiet : Quiet (txFrequency board frame) :=
  leaves_when _ <| leaves_cons (leaves_write rfl) <|
    leaves_cons (setFreqData_quiet (by decide) icomWrite_quiet latch_quiet) leaves_nil

theorem filterSettings_quiet : Quiet (filterSettings board frame) :=
  leaves_cons (set_quiet fun _ => rfl) <| leaves_cons (leaves_when _ (set_quiet fun _ => rfl)) <|
    leaves_cons (leaves_when _ (set_quiet fun _ => rfl)) <|
    leaves_cons (leaves_when _ latch_quiet) <| leaves_cons configureLevel_quiet <|
    leaves_cons (leaves_when _ latch_quiet) leaves_nil

theorem rx1Attenuation_quiet : Quiet (rx1Attenuation board frame) :=
  leaves_cons (leaves_store fun _ => rfl) <| leaves_cons (leaves_when _ (set_quiet fun _ => rfl)) <|
    leaves_cons (leaves_when _ (set_quiet fun _ => rfl)) <|
    leaves_cons (leaves_when _ configureRxAttenuation_quiet) leaves_nil

theorem rx2Attenuation_quiet : Quiet (rx2Attenuation board frame) :=
  leaves_cons (leaves_when _ (set_quiet fun _ => rfl)) <|
    leaves_cons (leaves_when _ (set_quiet fun _ => rfl)) <|
    leaves_cons (leaves_when _ configureRxAttenuation_quiet) leaves_nil

theorem alexWrite_quiet : Quiet (alexWrite board) := by
  intro s
  unfold alexWrite
  split
  · exact ⟨rfl, rfl⟩
  · refine ⟨rfl, ?_⟩
    simp [tunes]

theorem endPass_quiet {alexPtt nucleoPtt : Bool} : Quiet (endPass board alexPtt nucleoPtt) := by
  have pass {condition : HpsdrControl → Bool} {lower : HpsdrControl → HpsdrControl} {a : Act}
      (lowers : ∀ s, tuning (lower s) = tuning s) (writes : Quiet a) :
      Quiet (finds fun s => when (condition s) (seq [store lower, a])) :=
    leaves_finds fun _ => leaves_when _ <| leaves_cons (leaves_store lowers) <|
      leaves_cons writes leaves_nil
  refine leaves_cons (leaves_finds fun _ => set_quiet fun _ => rfl) <|
    leaves_cons (pass (fun _ => rfl) alexWrite_quiet) <| leaves_cons (pass (fun _ => rfl) ?_) <|
    leaves_cons (leaves_finds fun _ => set_quiet fun _ => rfl) <|
    leaves_cons (pass (fun _ => rfl) ?_) leaves_nil
  · exact fun s => ⟨rfl, by simp [miscWrite, tunes]⟩
  · exact fun s => ⟨rfl, by simp [nucleoWrite, tunes]⟩

/-! ### The parts that tune the receivers -/

theorem mirrors_setRxFreq (mirrors : Mirrors s l) (k : Fin 3) (value : BitVec 32) (n : Nat) :
    Mirrors (setRxFreq k value s).1 ((clock core)^[n] (l.hear (.rxFreq k value))) where
  rxFreq := by
    rw [clock_rxFreq, hear, mirrors.rxFreq]
    rfl
  loRst := (clock_loRst n).trans mirrors.loRst

/-- A write of the increment that is set leaves the oscillators together. -/
theorem together_rewrite (together : l.Together) {k : Fin 3} {value : BitVec 32}
    (same : l.rxFreq k = value) (n : Nat) :
    ((clock core)^[n] (l.hear (.rxFreq k value))).Together := by
  have unchanged : l.hear (.rxFreq k value) = l := by
    rw [← same, Los.hear, Function.update_eq_self]
  rw [unchanged]
  exact together.clock n

theorem mirrors_resetLos (mirrors : Mirrors s l) (gap : Nat → Nat) :
    Mirrors (resetLos s).1 (play core l (resetLos s).2 gap) where
  rxFreq := (clock_rxFreq _).trans ((clock_rxFreq _).trans mirrors.rxFreq)
  loRst := clock_loRst _

theorem together_resetLos (clears : core.Clears) (freq : l.rxFreq 0 = l.rxFreq 1)
    (gap : Nat → Nat) (slow : Slow core (resetLos s).2 gap) :
    (play core l (resetLos s).2 gap).Together := by
  set low := (clock core)^[gap 0 + 1] (l.hear (.loRst (s.loRst &&& ~~~3#8))) with lower
  have cleared : low.Together := by
    have down (k : Fin 2) : (s.loRst &&& ~~~3#8).getLsbD k = false := by
      match k with
      | 0 => simp
      | 1 => simp
    exact together_of_low (l := l.hear (.loRst (s.loRst &&& ~~~3#8))) clears freq down
      (slow 0 Nat.two_pos)
  have raised : (low.hear (.loRst (s.loRst &&& ~~~3#8 ||| 3#8))).Together := by
    refine ⟨cleared.freq, ?_, cleared.dds⟩
    show (s.loRst &&& ~~~3#8 ||| 3#8).getLsbD 0 = (s.loRst &&& ~~~3#8 ||| 3#8).getLsbD 1
    simp
  exact raised.clock (gap 1 + 1)

theorem copyRxFreq_leads : Leads core (Heard board) copyRxFreq
    fun s l => Heard board s l ∧ s.rxFreq 0 = s.rxFreq 1 := by
  rintro s l gap - ⟨mirrors, tuned⟩
  refine ⟨⟨mirrors_setRxFreq mirrors 1 (s.rxFreq 0) (gap 0 + 1), tuned⟩, ?_⟩
  simp [copyRxFreq, setRxFreq]

theorem resetLos_leads (clears : core.Clears) :
    Leads core (fun s l => Heard board s l ∧ s.rxFreq 0 = s.rxFreq 1) resetLos
      (Coherent board) := by
  rintro s l gap slow ⟨⟨mirrors, tuned⟩, same⟩
  have freq : l.rxFreq 0 = l.rxFreq 1 := by rw [mirrors.rxFreq, same]
  exact ⟨⟨mirrors_resetLos mirrors gap, tuned⟩, fun _ => together_resetLos clears freq gap slow⟩

theorem setSync_leads (clears : core.Clears) :
    Leads core (Coherent board) (setSync frame) (Coherent board) := by
  refine leads_finds fun s₀ => leads_when (fun _ => ?_) fun _ _ _ holds => holds.2
  refine leads_cons (Q := fun s l => Heard board s l ∧
    s.rxSyncData = (byte frame 4 >>> 7) &&& 1) ?_ (leads_cons ?_ leads_nil)
  · exact leads_store fun s l ⟨_, holds⟩ =>
      ⟨⟨⟨holds.rxFreq, holds.loRst⟩, holds.tuned⟩, rfl⟩
  · refine leads_when (fun _ => ?_) fun off s l holds => ⟨holds.1, fun sync => absurd ?_ sync⟩
    · refine leads_cons (Q := fun s l => Heard board s l ∧ s.rxFreq 0 = s.rxFreq 1) ?_
        (leads_cons (resetLos_leads clears) leads_nil)
      exact fun s l gap slow holds => copyRxFreq_leads s l gap slow holds.1
    · rw [holds.2]
      simpa using off

theorem begin_leads : Leads core (Coherent board) begin (Coherent board) := by
  refine leads_cons (Q := fun s l => Heard board s l ∧ s.rxSyncData = 0) ?_ (leads_cons ?_ leads_nil)
  · exact leads_store fun s l holds =>
      ⟨⟨⟨holds.rxFreq, holds.loRst⟩, holds.tuned⟩, rfl⟩
  · rintro s l gap - ⟨⟨mirrors, tuned⟩, off⟩
    exact ⟨⟨mirrors_resetLos mirrors gap, tuned⟩, fun sync => absurd off sync⟩

/-- The first increment has been written; where the frequency is the one that is known, the
oscillators have not noticed. -/
structure Retuned (board : Board) (frame : Frame) (s : HpsdrControl) (l : Los σ) : Prop
    extends Mirrors s l where
  set : s.rxFreq 0 = board.phase (freq frame)
  together : s.rxSyncData ≠ 0 → s.filters.freqData 1 = freq frame → l.Together

theorem rxFrequency1_leads (clears : core.Clears) (audible : freq frame ≠ 0) :
    Leads core (Coherent board) (rxFrequency1 board frame) (Coherent board) := by
  refine leads_when (fun _ => ?_) fun _ _ _ holds => holds
  refine leads_cons (Q := Retuned board frame) ?_ <| leads_cons
    (Q := fun s l => Retuned board frame s l ∧ (s.rxSyncData ≠ 0 → s.rxFreq 0 = s.rxFreq 1)) ?_ <|
    leads_cons ?_ leads_nil
  · intro s l gap _ coherent
    refine ⟨mirrors_setRxFreq coherent.toMirrors 0 _ _, by simp [setRxFreq], fun sync known => ?_⟩
    have known : s.filters.freqData 1 = freq frame := known
    refine together_rewrite (coherent.together sync) ?_ _
    rw [coherent.rxFreq, coherent.tuned (by rwa [known]), known]
  · refine leads_finds fun s₀ => leads_when (fun _ => ?_) ?_
    · rintro s l gap - ⟨_, mirrors, set, together⟩
      refine ⟨⟨mirrors_setRxFreq mirrors 1 (s.rxFreq 0) (gap 0 + 1), set, fun sync known => ?_⟩, ?_⟩
      · have still := together sync known
        exact together_rewrite still (by rw [← still.freq, mirrors.rxFreq]) _
      · simp [copyRxFreq, setRxFreq]
    · rintro off s l ⟨rfl, retuned⟩
      exact ⟨retuned, fun sync => absurd (by simpa using off) sync⟩
  · refine leads_finds fun s₀ => leads_when (fun _ => ?_) ?_
    · refine leads_cons (Q := fun s l => Heard board s l ∧
          (s.rxSyncData ≠ 0 → s.rxFreq 0 = s.rxFreq 1)) ?_ <|
        leads_cons (Q := Coherent board) ?_ <|
        leads_cons (leads_quiet (leaves_store fun _ => rfl)) <|
        leads_cons (leads_quiet (leaves_when _ latch_quiet)) leads_nil
      · refine leads_store fun s l ⟨_, retuned, same⟩ => ⟨⟨⟨retuned.rxFreq, retuned.loRst⟩, ?_⟩, same⟩
        exact fun _ => retuned.set.trans (congrArg board.phase
          (Function.update_self 1 (freq frame) s.filters.freqData).symm)
      · refine leads_finds fun s₁ => leads_when (fun on => ?_) ?_
        · rintro s l gap slow ⟨rfl, heard, same⟩
          exact resetLos_leads clears s l gap slow ⟨heard, same (by simpa using on)⟩
        · rintro off s l ⟨rfl, heard, _⟩
          exact ⟨heard, fun sync => absurd (by simpa using off) sync⟩
    · rintro known s l ⟨rfl, retuned, _⟩
      have known : s.filters.freqData 1 = freq frame := by simpa using known
      exact ⟨⟨retuned.toMirrors, fun _ => by rw [retuned.set, known]⟩,
        fun sync => retuned.together sync known⟩

theorem rxFrequencyData2_quiet : Quiet (rxFrequencyData2 board frame) :=
  setFreqData_quiet (by decide) leaves_nil latch_quiet

theorem rxFrequency2_leads : Leads core (Coherent board) (rxFrequency2 board frame) (Coherent board) := by
  refine leads_finds fun s₀ => leads_when (fun free => ?_) fun _ _ _ holds => holds.2
  refine leads_cons (Q := Coherent board) ?_ <|
    leads_cons (leads_quiet (leaves_when _ rxFrequencyData2_quiet)) leads_nil
  rintro s l gap - ⟨rfl, coherent⟩
  have off : s.rxSyncData = 0 := by
    have both := (Bool.and_eq_true_iff.mp free).1
    simpa using both
  exact ⟨⟨mirrors_setRxFreq coherent.toMirrors 1 _ _, coherent.tuned⟩, fun sync => absurd off sync⟩

theorem rxFrequency3_leads : Leads core (Coherent board) (rxFrequency3 board frame) (Coherent board) := by
  refine leads_when (fun _ => ?_) fun _ _ _ holds => holds
  refine leads_cons (Q := Coherent board) ?_ <|
    leads_cons (leads_quiet (leaves_when _ rxFrequencyData2_quiet)) leads_nil
  intro s l gap _ coherent
  refine ⟨⟨mirrors_setRxFreq coherent.toMirrors 2 _ _, coherent.tuned⟩, fun sync => ?_⟩
  obtain ⟨freq, reset, dds⟩ := coherent.together sync
  exact Together.clock (l := l.hear (.rxFreq 2 (board.phase (HpsdrControl.freq frame))))
    ⟨freq, reset, dds⟩ _

theorem general_leads (clears : core.Clears) {gpioIn : BitVec 8} :
    Leads core (Coherent board) (general board frame gpioIn) (Coherent board) :=
  leads_cons (setSync_leads clears) <| leads_cons (leads_quiet (leaves_store fun _ => rfl)) <|
    leads_cons (leads_quiet (leaves_finds fun _ => leaves_write rfl)) <|
    leads_cons (leads_quiet (leaves_write rfl)) <|
    leads_cons (leads_quiet (set_quiet fun _ => rfl)) <|
    leads_cons (leads_quiet (leaves_when _ latch_quiet)) <|
    leads_cons (leads_quiet (leaves_when _ (set_quiet fun _ => rfl))) <|
    leads_cons (leads_quiet (leaves_when _ (leaves_finds fun _ => latch_quiet))) <|
    leads_cons (leads_quiet (leaves_when _ (leaves_finds fun _ => latch_quiet))) leads_nil

theorem processEp2_leads (clears : core.Clears) {gpioIn : BitVec 8}
    (heard : (frame 0).toNat / 2 = 2 → freq frame ≠ 0) :
    Leads core (Coherent board) (processEp2 board frame gpioIn) (Coherent board) := by
  have quiet {a : Act} (quiet : Quiet a) : Leads core (Coherent board) a (Coherent board) :=
    leads_quiet quiet
  unfold processEp2
  split
  · exact general_leads clears
  · exact general_leads clears
  · exact quiet txFrequency_quiet
  · exact quiet txFrequency_quiet
  · rename_i number
    exact rxFrequency1_leads clears (heard (by rw [number]))
  · rename_i number
    exact rxFrequency1_leads clears (heard (by rw [number]))
  · exact rxFrequency2_leads
  · exact rxFrequency2_leads
  · exact rxFrequency3_leads
  · exact rxFrequency3_leads
  · exact quiet filterSettings_quiet
  · exact quiet filterSettings_quiet
  · exact quiet rx1Attenuation_quiet
  · exact quiet rx1Attenuation_quiet
  · exact quiet rx2Attenuation_quiet
  · exact quiet rx2Attenuation_quiet
  · exact quiet (leaves_when _ (leaves_finds fun _ => latch_quiet))
  · exact quiet (leaves_when _ (leaves_finds fun _ => latch_quiet))
  · exact quiet (leaves_when _ (leaves_write rfl))
  · exact quiet (leaves_when _ (leaves_write rfl))
  · exact quiet (leaves_when _ (leaves_write rfl))
  · exact quiet (leaves_when _ (leaves_write rfl))
  · exact quiet leaves_nil

theorem act_leads (clears : core.Clears) {move : Move} (heard : ∀ frame gpioIn, move = .frame frame gpioIn →
    (frame 0).toNat / 2 = 2 → freq frame ≠ 0) :
    Leads core (Coherent board) (act board move) (Coherent board) := by
  cases move with
  | frame frame gpioIn => exact processEp2_leads clears (heard frame gpioIn rfl)
  | start => exact begin_leads
  | endPass alexPtt nucleoPtt => exact leads_quiet endPass_quiet

/-! ### Runs -/

/-- A step of the main loop, and the clocks around its writes: `rest` before the first of them, and
`gap k + 1` after write `k`. -/
structure Beat where
  move : Move
  rest : Nat
  gap : Nat → Nat

def receivers (board : Board) (core : DdsCompiler σ) : Circuit (HpsdrControl × Los σ) Beat where
  Reset s := ∃ rxFreq loRst, s.1 = initial rxFreq loRst ∧ Mirrors s.1 s.2
  tick s i := ((act board i.move s.1).1,
    play core ((clock core)^[i.rest] s.2) (act board i.move s.1).2 i.gap)

/-- No frame tunes the first receiver to 0 Hz. -/
def Audible : Env (HpsdrControl × Los σ) Beat := fun _ c =>
  match c.pins.move with
  | .frame frame _ => (frame 0).toNat / 2 = 2 → freq frame ≠ 0
  | _ => True

/-- The writes are as far apart as a reset of the cores has to last. -/
def Unhurried (board : Board) (core : DdsCompiler σ) : Env (HpsdrControl × Los σ) Beat := fun _ c =>
  Slow core (act board c.pins.move c.regs.1).2 c.pins.gap

instance (before : List (Clock (HpsdrControl × Los σ) Beat))
    (c : Clock (HpsdrControl × Los σ) Beat) : Decidable (Audible before c) :=
  match c with
  | ⟨_, ⟨.frame frame _, _, _⟩⟩ =>
    inferInstanceAs (Decidable ((frame 0).toNat / 2 = 2 → freq frame ≠ 0))
  | ⟨_, ⟨.start, _, _⟩⟩ => inferInstanceAs (Decidable True)
  | ⟨_, ⟨.endPass _ _, _, _⟩⟩ => inferInstanceAs (Decidable True)

instance (before : List (Clock (HpsdrControl × Los σ) Beat))
    (c : Clock (HpsdrControl × Los σ) Beat) : Decidable (Unhurried board core before c) :=
  inferInstanceAs (Decidable (∀ k < _, _ ≤ _))

/-- After every step of the main loop that leaves the program in synchronous mode, and at every
clock up to the next, the registers of the two cores are the same, whatever was changed before and
however many clocks have passed between the writes. -/
theorem run_coherent (clears : core.Clears) {past : List (Clock (HpsdrControl × Los σ) Beat)}
    {s : HpsdrControl × Los σ} (run : (receivers board core).Run past s) (heard : Held Audible past)
    (slow : Held (Unhurried board core) past) (sync : s.1.rxSyncData ≠ 0) (n : Nat) :
    ((clock core)^[n] s.2).dds 0 = ((clock core)^[n] s.2).dds 1 := by
  have coherent : Coherent board s.1 s.2 := by
    refine run.invariant (P := fun _ s => Coherent board s.1 s.2) ?_ ?_ (held_and.mpr ⟨heard, slow⟩)
    · rintro ⟨_, l⟩ ⟨rxFreq, loRst, rfl, mirrors⟩
      exact ⟨⟨mirrors, fun known => absurd rfl known⟩, fun sync => absurd rfl sync⟩
    · rintro past ⟨s, l⟩ ⟨move, rest, gap⟩ _ coherent ⟨audible, slow⟩
      refine act_leads clears (fun frame gpioIn same => ?_) s _ gap slow (coherent.clock rest)
      subst same
      exact audible
  exact ((coherent.together sync).clock n).dds

def bare : Board where
  i2c _ := false
  uart := false
  thetis := false
  phase freq := freq
  dacPhase freq := freq
  level data := data
  logTableLookup _ := 0

/-- A phase accumulator that sees `aresetn` one clock late. -/
structure Accumulator where
  aresetn : Bool
  phase : BitVec 30

def accumulator : DdsCompiler Accumulator where
  clock aresetn phase s := ⟨aresetn, if s.aresetn then s.phase + phase.setWidth 30 else 0⟩
  resetClocks := 2

theorem accumulator_clears : accumulator.Clears := fun _ _ _ => rfl

/-- The receivers listen on two frequencies, are synchronised, and are tuned together. -/
def synchronised : List Beat :=
  [⟨.frame ![4, 0, 0x6a, 0xcf, 0xc0] 0, 3, fun k => k + 1⟩,
    ⟨.frame ![6, 0, 0xd5, 0x9f, 0x80] 0, 5, fun _ => 1⟩,
    ⟨.frame ![0, 0, 0, 0, 0x80] 0, 9, fun k => 2 * k + 1⟩,
    ⟨.frame ![4, 0, 0x1b, 0x77, 0x40] 0, 7, fun k => 3 + k⟩]

def apart : HpsdrControl × Los Accumulator :=
  ⟨initial 0 3, ⟨fun _ => 0, 3, ![⟨true, 1⟩, ⟨true, 2⟩]⟩⟩

theorem apart_reset : (receivers bare accumulator).Reset apart := ⟨0, 3, rfl, rfl, rfl⟩

theorem run_coherent_synchronised :
    let s := (receivers bare accumulator).after apart synchronised
    s.1.rxSyncData ≠ 0 ∧ (((clock accumulator)^[4] s.2).dds 0).phase ≠ 0 ∧
      ∀ n, ((clock accumulator)^[n] s.2).dds 0 = ((clock accumulator)^[n] s.2).dds 1 := by
  have sync : ((receivers bare accumulator).after apart synchronised).1.rxSyncData ≠ 0 := by
    decide +kernel
  have heard : Held Audible ((receivers bare accumulator).trace apart synchronised) := by
    decide +kernel
  have slow : Held (Unhurried bare accumulator)
      ((receivers bare accumulator).trace apart synchronised) := by
    decide +kernel
  have same := run_coherent accumulator_clears (run_trace apart_reset synchronised) heard slow sync
  have running : (((clock accumulator)^[4]
      ((receivers bare accumulator).after apart synchronised).2).dds 0).phase ≠ 0 := by
    decide +kernel
  exact ⟨sync, running, same⟩

end HpsdrControl

end Switcheck
