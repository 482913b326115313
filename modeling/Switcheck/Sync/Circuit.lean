import Mathlib.Data.List.Induction
import Mathlib.Data.List.ReduceOption

/-!
# Clocked circuits and their runs

A circuit is a set of register values that reset can leave and a function for one rising
clock edge. A run keeps every clock that has passed, so that a property may speak of the
words a port has carried as well as of the registers.
-/

namespace Switcheck.Sync

/-- The register values a reset can leave, and the effect of one rising edge out of reset. -/
structure Circuit (σ ι : Type) where
  Reset : σ → Prop
  tick : σ → ι → σ

structure Clock (σ ι : Type) where
  regs : σ
  pins : ι

variable {σ ι σ' ι' β : Type}

/-- Runs from reset: the clocks that have passed and the registers they lead to. -/
inductive Circuit.Run (C : Circuit σ ι) : List (Clock σ ι) → σ → Prop where
  | reset {s : σ} : C.Reset s → C.Run [] s
  | tick {past : List (Clock σ ι)} {s : σ} :
      C.Run past s → (i : ι) → C.Run (past ++ [⟨s, i⟩]) (C.tick s i)

abbrev Env (σ ι : Type) := List (Clock σ ι) → Clock σ ι → Prop

def HeldFrom (E : Env σ ι) : List (Clock σ ι) → List (Clock σ ι) → Prop
  | _, [] => True
  | before, c :: rest => E before c ∧ HeldFrom E (before ++ [c]) rest

/-- The constraint was met at every clock of the run. -/
def Held (E : Env σ ι) (past : List (Clock σ ι)) : Prop := HeldFrom E [] past

instance HeldFrom.decidable (E : Env σ ι) [∀ before c, Decidable (E before c)] :
    ∀ before past, Decidable (HeldFrom E before past)
  | _, [] => inferInstanceAs (Decidable True)
  | before, c :: rest =>
    have := HeldFrom.decidable E (before ++ [c]) rest
    inferInstanceAs (Decidable (E before c ∧ HeldFrom E (before ++ [c]) rest))

instance (E : Env σ ι) [∀ before c, Decidable (E before c)] (past : List (Clock σ ι)) :
    Decidable (Held E past) :=
  inferInstanceAs (Decidable (HeldFrom E [] past))

theorem heldFrom_append (E : Env σ ι) (before past more : List (Clock σ ι)) :
    HeldFrom E before (past ++ more) ↔ HeldFrom E before past ∧ HeldFrom E (before ++ past) more := by
  induction past generalizing before with
  | nil => simp [HeldFrom]
  | cons d rest ih => simp [HeldFrom, ih, and_assoc]

theorem heldFrom_snoc (E : Env σ ι) (before past : List (Clock σ ι)) (c : Clock σ ι) :
    HeldFrom E before (past ++ [c]) ↔ HeldFrom E before past ∧ E (before ++ past) c := by
  simp [heldFrom_append, HeldFrom]

theorem held_append (E : Env σ ι) (past more : List (Clock σ ι)) :
    Held E (past ++ more) ↔ Held E past ∧ HeldFrom E past more := heldFrom_append E [] past more

@[simp] theorem held_nil (E : Env σ ι) : Held E [] := trivial

@[simp] theorem held_snoc (E : Env σ ι) (past : List (Clock σ ι)) (c : Clock σ ι) :
    Held E (past ++ [c]) ↔ Held E past ∧ E past c := heldFrom_snoc E [] past c

theorem heldFrom_of_mem {E : Env σ ι} {past : List (Clock σ ι)}
    (all : ∀ c ∈ past, ∀ before, E before c) (before : List (Clock σ ι)) :
    HeldFrom E before past := by
  induction past generalizing before with
  | nil => trivial
  | cons c rest ih =>
    have later := ih fun d member => all d (List.mem_cons_of_mem c member)
    exact ⟨all c List.mem_cons_self before, later _⟩

theorem held_of_forall {E : Env σ ι} (all : ∀ before c, E before c) (past : List (Clock σ ι)) :
    Held E past :=
  heldFrom_of_mem (fun c _ before => all before c) []

theorem Held.mono {E F : Env σ ι} (imp : ∀ before c, E before c → F before c)
    {past : List (Clock σ ι)} (held : Held E past) : Held F past := by
  induction past using List.reverseRecOn with
  | nil => trivial
  | append_singleton past c ih =>
    rw [held_snoc] at held ⊢
    exact ⟨ih held.1, imp past c held.2⟩

/-- A constraint that sees of the clocks before only what `f` keeps of them. -/
def HeldAlong {τ : Type} (f : τ → Clock σ ι → τ) (Q : τ → Clock σ ι → Prop) :
    τ → List (Clock σ ι) → Prop
  | _, [] => True
  | t, c :: rest => Q t c ∧ HeldAlong f Q (f t c) rest

instance HeldAlong.decidable {τ : Type} (f : τ → Clock σ ι → τ) (Q : τ → Clock σ ι → Prop)
    [∀ t c, Decidable (Q t c)] : ∀ t past, Decidable (HeldAlong f Q t past)
  | _, [] => inferInstanceAs (Decidable True)
  | t, c :: rest =>
    have := HeldAlong.decidable f Q (f t c) rest
    inferInstanceAs (Decidable (Q t c ∧ HeldAlong f Q (f t c) rest))

theorem held_iff_along {τ : Type} {E : Env σ ι} {f : τ → Clock σ ι → τ}
    {Q : τ → Clock σ ι → Prop} (view : List (Clock σ ι) → τ)
    (onward : ∀ before c, view (before ++ [c]) = f (view before) c)
    (same : ∀ before c, E before c ↔ Q (view before) c) (past : List (Clock σ ι)) :
    Held E past ↔ HeldAlong f Q (view []) past := by
  suffices every : ∀ before, HeldFrom E before past ↔ HeldAlong f Q (view before) past from every []
  induction past with
  | nil => exact fun _ => Iff.rfl
  | cons c rest ih =>
    intro before
    rw [HeldFrom, HeldAlong, same, ih, onward]

theorem held_and {E F : Env σ ι} {past : List (Clock σ ι)} :
    Held (fun before c => E before c ∧ F before c) past ↔ Held E past ∧ Held F past := by
  induction past using List.reverseRecOn with
  | nil => simp
  | append_singleton past c ih => simp only [held_snoc, ih, and_assoc, and_left_comm]

theorem held_map (h : Clock σ ι → Clock σ' ι') (E : Env σ' ι') (past : List (Clock σ ι)) :
    Held E (past.map h) ↔ Held (fun before c => E (before.map h) (h c)) past := by
  induction past using List.reverseRecOn with
  | nil => simp
  | append_singleton past c ih => simp [ih]

theorem held_map_snoc (h : Clock σ ι → Clock σ' ι') (E : Env σ' ι') (past : List (Clock σ ι))
    (c : Clock σ ι) : Held E ((past ++ [c]).map h) ↔ Held E (past.map h) ∧ E (past.map h) (h c) := by
  rw [List.map_append, List.map_singleton, held_snoc]

theorem flatMap_snoc {α β : Type} (f : α → List β) (xs : List α) (x : α) :
    (xs ++ [x]).flatMap f = xs.flatMap f ++ f x := by
  rw [List.flatMap_append, List.flatMap_singleton]

theorem reduceOption_flatMap {α β : Type} {f : α → List (Option β)} {g : α → List β}
    (each : ∀ x, (f x).reduceOption = g x) (xs : List α) :
    (xs.flatMap f).reduceOption = xs.flatMap g := by
  induction xs with
  | nil => rfl
  | cons x xs ih =>
    rw [List.flatMap_cons, List.flatMap_cons, List.reduceOption_append, ih, each]

theorem map_range_mul {β : Type} (f : Nat → β) (m n : Nat) :
    (List.range (m * n)).map f =
      (List.range n).flatMap fun k => (List.range m).map fun r => f (m * k + r) := by
  induction n with
  | zero => simp
  | succ n ih =>
    rw [Nat.mul_succ, List.range_add, List.map_append, ih, List.range_succ, flatMap_snoc,
      List.map_map]
    rfl

theorem countP_snoc {α : Type} (f : α → Bool) (xs : List α) (x : α) :
    (xs ++ [x]).countP f = xs.countP f + (f x).toNat := by
  rw [List.countP_append, List.countP_singleton]
  cases f x <;> rfl

/-- Two ports of which the first never carries more have carried the same exactly when they did
at every clock. -/
theorem flatMap_eq_iff_held {f g : Clock σ ι → List β} (less : ∀ c, (f c).length ≤ (g c).length)
    (past : List (Clock σ ι)) :
    past.flatMap f = past.flatMap g ↔ Held (fun _ c => f c = g c) past := by
  have total (past : List (Clock σ ι)) : (past.flatMap f).length ≤ (past.flatMap g).length := by
    induction past with
    | nil => exact Nat.le_refl _
    | cons c past ih =>
      have now := less c
      simp only [List.flatMap_cons, List.length_append]
      omega
  induction past using List.reverseRecOn with
  | nil => exact iff_of_true rfl (held_nil _)
  | append_singleton past c ih =>
    rw [held_snoc, flatMap_snoc, flatMap_snoc]
    constructor
    · intro same
      have before := total past
      have now := less c
      have lengths := congrArg List.length same
      rw [List.length_append, List.length_append] at lengths
      obtain ⟨earlier, last⟩ := List.append_inj same (by omega)
      exact ⟨ih.mp earlier, last⟩
    · rintro ⟨earlier, last⟩
      rw [ih.mpr earlier, last]

namespace Circuit

variable {C : Circuit σ ι} {E F : Env σ ι} {past : List (Clock σ ι)} {s : σ}

/-- What reset establishes and each clock preserves holds at the end of every run. -/
theorem Run.invariant {P : List (Clock σ ι) → σ → Prop}
    (start : ∀ s, C.Reset s → P [] s)
    (step : ∀ past s i, C.Run past s → P past s → E past ⟨s, i⟩ → P (past ++ [⟨s, i⟩]) (C.tick s i))
    (run : C.Run past s) (held : Held E past) : P past s := by
  induction run with
  | reset h => exact start _ h
  | tick run i ih =>
    rw [held_snoc] at held
    exact step _ _ i run (ih held.1) held.2

/-- A constraint on the pins that, with an invariant, entails another one at every clock. -/
theorem Run.entails {P : List (Clock σ ι) → σ → Prop}
    (start : ∀ s, C.Reset s → P [] s)
    (imp : ∀ past s i, C.Run past s → P past s → E past ⟨s, i⟩ → F past ⟨s, i⟩)
    (step : ∀ past s i, C.Run past s → P past s → E past ⟨s, i⟩ → F past ⟨s, i⟩ →
      P (past ++ [⟨s, i⟩]) (C.tick s i))
    (run : C.Run past s) (held : Held E past) : P past s ∧ Held F past := by
  refine Run.invariant (P := fun past s => P past s ∧ Held F past)
    (fun s h => ⟨start s h, held_nil F⟩) ?_ run held
  intro past s i run ⟨inv, before⟩ env
  have now := imp past s i run inv env
  exact ⟨step past s i run inv env now, (held_snoc F past _).mpr ⟨before, now⟩⟩

theorem Run.derive
    (imp : ∀ past s i, C.Run past s → Held E past → E past ⟨s, i⟩ → F past ⟨s, i⟩)
    (run : C.Run past s) (held : Held E past) : Held F past := by
  induction run with
  | reset => exact held_nil F
  | tick run i ih =>
    obtain ⟨before, now⟩ := (held_snoc _ _ _).mp held
    exact (held_snoc _ _ _).mpr ⟨ih before, imp _ _ i run before now⟩

/-- Two constraints that come to the same at every clock of the runs in question. -/
theorem Run.held_congr {G : List (Clock σ ι) → Prop} (earlier : ∀ past c, G (past ++ [c]) → G past)
    (same : ∀ past s i, C.Run past s → G past → (E past ⟨s, i⟩ ↔ F past ⟨s, i⟩))
    (run : C.Run past s) (given : G past) : Held E past ↔ Held F past := by
  induction run with
  | reset => exact iff_of_true (held_nil E) (held_nil F)
  | tick run i ih =>
    have before := earlier _ _ given
    rw [held_snoc, held_snoc, ih before, same _ _ i run before]

/-- Under `G`, a constraint that each clock meets exactly when it preserves `P` says when `P` holds
throughout a run; the clocks that meet it preserve `Q`, which the argument for one clock may use. -/
theorem Run.throughout_iff_under {P Q : List (Clock σ ι) → σ → Prop} {G : Env σ ι}
    (start : ∀ s, C.Reset s → Q [] s ∧ P [] s)
    (step : ∀ past s i, C.Run past s → Q past s → G past ⟨s, i⟩ →
      (P (past ++ [⟨s, i⟩]) (C.tick s i) ↔ E past ⟨s, i⟩))
    (keep : ∀ past s i, C.Run past s → Q past s → G past ⟨s, i⟩ → E past ⟨s, i⟩ →
      Q (past ++ [⟨s, i⟩]) (C.tick s i))
    (run : C.Run past s) (given : Held G past) :
    (P past s ∧ Held (fun before c => P before c.regs) past) ↔ Held E past := by
  suffices both : (Held E past → Q past s) ∧
      ((P past s ∧ Held (fun before c => P before c.regs) past) ↔ Held E past) from both.2
  induction run with
  | reset reset =>
    exact ⟨fun _ => (start _ reset).1, iff_of_true ⟨(start _ reset).2, held_nil _⟩ (held_nil _)⟩
  | @tick past s run i ih =>
    obtain ⟨earlier, now⟩ := (held_snoc _ _ _).mp given
    obtain ⟨inv, same⟩ := ih earlier
    rw [held_snoc, held_snoc]
    refine ⟨fun ⟨before, last⟩ => keep past s i run (inv before) now last, ?_⟩
    constructor
    · rintro ⟨after, before, last⟩
      have held := same.mp ⟨last, before⟩
      exact ⟨held, (step past s i run (inv held) now).mp after⟩
    · rintro ⟨held, last⟩
      obtain ⟨still, before⟩ := same.mpr held
      exact ⟨(step past s i run (inv held) now).mpr last, before, still⟩

/-- A constraint that each clock meets exactly when it preserves `P` says when `P` holds
throughout a run. -/
theorem Run.throughout_iff {P : List (Clock σ ι) → σ → Prop}
    (start : ∀ s, C.Reset s → P [] s)
    (step : ∀ past s i, C.Run past s → P past s →
      (P (past ++ [⟨s, i⟩]) (C.tick s i) ↔ E past ⟨s, i⟩))
    (run : C.Run past s) :
    (P past s ∧ Held (fun before c => P before c.regs) past) ↔ Held E past := by
  refine run.throughout_iff_under (Q := P) (G := fun _ _ => True)
    (fun s reset => ⟨start s reset, start s reset⟩) ?_ ?_ (held_of_forall (fun _ _ => trivial) _)
  · exact fun past s i run inv _ => step past s i run inv
  · exact fun past s i run inv _ env => (step past s i run inv).mpr env

theorem Run.snoc {c : Clock σ ι} (run : C.Run (past ++ [c]) s) :
    C.Run past c.regs ∧ s = C.tick c.regs c.pins := by
  generalize whole : past ++ [c] = all at run
  cases run with
  | reset => simp at whole
  | tick run i =>
    obtain ⟨rfl, rfl⟩ := List.append_singleton_inj.mp whole
    exact ⟨run, rfl⟩

theorem Run.append {before after : List (Clock σ ι)} {c : Clock σ ι}
    (run : C.Run (before ++ c :: after) s) : C.Run before c.regs := by
  induction after using List.reverseRecOn generalizing s with
  | nil => exact run.snoc.1
  | append_singleton after d ih =>
    rw [← List.cons_append, ← List.append_assoc] at run
    exact ih run.snoc.1

theorem Run.front {before : List (Clock σ ι)} (run : C.Run past s) (front : before <+: past) :
    ∃ t, C.Run before t := by
  obtain ⟨after, rfl⟩ := front
  cases after with
  | nil => exact ⟨s, by rwa [List.append_nil] at run⟩
  | cons c after => exact ⟨c.regs, run.append⟩

/-- What holds at a clock of a run and is preserved from there holds at its end. -/
theorem Run.since {P : List (Clock σ ι) → σ → Prop} {before middle : List (Clock σ ι)}
    {c : Clock σ ι} (start : P [] c.regs)
    (step : ∀ middle s i, P middle s → P (middle ++ [⟨s, i⟩]) (C.tick s i))
    (run : C.Run (before ++ c :: middle) s) : P (c :: middle) s := by
  induction middle using List.reverseRecOn generalizing s with
  | nil =>
    rw [run.snoc.2]
    exact step [] c.regs c.pins start
  | append_singleton middle d ih =>
    rw [← List.cons_append, ← List.append_assoc] at run
    obtain ⟨shorter, rfl⟩ := run.snoc
    exact step (c :: middle) d.regs d.pins (ih shorter)

/-- A part of a circuit, seen through `f` and `g`, runs as the circuit `D`. -/
theorem Run.map {D : Circuit σ' ι'} (f : σ → σ') (g : σ → ι → ι')
    (reset : ∀ s, C.Reset s → D.Reset (f s))
    (tick : ∀ s i, f (C.tick s i) = D.tick (f s) (g s i)) (run : C.Run past s) :
    D.Run (past.map fun c => ⟨f c.regs, g c.regs c.pins⟩) (f s) := by
  induction run with
  | reset h => exact .reset (reset _ h)
  | tick run i ih =>
    rw [List.map_append, tick]
    exact .tick ih _

/-- What is taken from a store and what it holds make up what was put into it, in order. -/
theorem Run.conserve {put take : Clock σ ι → List β} (store : σ → List β)
    (start : ∀ s, C.Reset s → store s = [])
    (step : ∀ s i, take ⟨s, i⟩ ++ store (C.tick s i) = store s ++ put ⟨s, i⟩)
    (run : C.Run past s) : past.flatMap take ++ store s = past.flatMap put := by
  induction run with
  | reset h => exact start _ h
  | @tick past s run i ih =>
    rw [flatMap_snoc, flatMap_snoc, List.append_assoc, step, ← List.append_assoc, ih]

def after (C : Circuit σ ι) (s : σ) (pins : List ι) : σ := pins.foldl C.tick s

def trace (C : Circuit σ ι) (s : σ) : List ι → List (Clock σ ι)
  | [] => []
  | i :: rest => ⟨s, i⟩ :: C.trace (C.tick s i) rest

theorem trace_snoc (C : Circuit σ ι) (s : σ) (pins : List ι) (i : ι) :
    C.trace s (pins ++ [i]) = C.trace s pins ++ [⟨C.after s pins, i⟩] := by
  induction pins generalizing s with
  | nil => rfl
  | cons j rest ih => simp [trace, ih, after]

theorem after_append (C : Circuit σ ι) (s : σ) (pins pins' : List ι) :
    C.after s (pins ++ pins') = C.after (C.after s pins) pins' := List.foldl_append

theorem trace_append (C : Circuit σ ι) (s : σ) (pins pins' : List ι) :
    C.trace s (pins ++ pins') = C.trace s pins ++ C.trace (C.after s pins) pins' := by
  induction pins generalizing s with
  | nil => rfl
  | cons i rest ih => exact congrArg (_ :: ·) (ih (C.tick s i))

theorem after_map {D : Circuit σ' ι'} (f : σ → σ') (g : ι → ι')
    (tick : ∀ s i, f (C.tick s i) = D.tick (f s) (g i)) (s : σ) (pins : List ι) :
    f (C.after s pins) = D.after (f s) (pins.map g) := by
  induction pins generalizing s with
  | nil => rfl
  | cons i rest ih =>
    have next := ih (C.tick s i)
    rw [tick] at next
    exact next

theorem trace_map {D : Circuit σ' ι'} (f : σ → σ') (g : ι → ι')
    (tick : ∀ s i, f (C.tick s i) = D.tick (f s) (g i)) (s : σ) (pins : List ι) :
    (C.trace s pins).map (fun c => ⟨f c.regs, g c.pins⟩) = D.trace (f s) (pins.map g) := by
  induction pins generalizing s with
  | nil => rfl
  | cons i rest ih =>
    have later := ih (C.tick s i)
    rw [tick] at later
    exact congrArg (_ :: ·) later

theorem pins_of_mem_trace {C : Circuit σ ι} {s : σ} {pins : List ι} {c : Clock σ ι}
    (member : c ∈ C.trace s pins) : c.pins ∈ pins := by
  induction pins generalizing s with
  | nil => cases member
  | cons i rest ih =>
    rcases List.mem_cons.mp member with rfl | later
    · exact List.mem_cons_self
    · exact List.mem_cons_of_mem i (ih later)

theorem held_trace (C : Circuit σ ι) (s : σ) {Q : ι → Prop} {pins : List ι} (all : ∀ i ∈ pins, Q i) :
    Held (fun _ c => Q c.pins) (C.trace s pins) :=
  heldFrom_of_mem (fun _ member _ => all _ (pins_of_mem_trace member)) []

theorem trace_length (C : Circuit σ ι) (s : σ) (pins : List ι) :
    (C.trace s pins).length = pins.length := by
  induction pins generalizing s with
  | nil => rfl
  | cons i rest ih => simp [trace, ih]

theorem after_snoc (C : Circuit σ ι) (s : σ) (pins : List ι) (i : ι) :
    C.after s (pins ++ [i]) = C.tick (C.after s pins) i := after_append C s pins [i]

theorem Run.extend (run : C.Run past s) (pins : List ι) :
    C.Run (past ++ C.trace s pins) (C.after s pins) := by
  induction pins using List.reverseRecOn with
  | nil => rwa [trace, List.append_nil]
  | append_singleton pins i ih =>
    rw [trace_snoc, after_snoc, ← List.append_assoc]
    exact .tick ih i

theorem run_trace (start : C.Reset s) (pins : List ι) : C.Run (C.trace s pins) (C.after s pins) :=
  (Run.reset start).extend pins

end Circuit

end Switcheck.Sync
