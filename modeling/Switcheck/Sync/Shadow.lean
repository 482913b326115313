import Mathlib.Data.List.Destutter
import Mathlib.Data.List.TakeWhile
import Switcheck.Sync.Circuit

/-!
# Registers that are written when their word changes

A driver keeps the last word it has written and writes a new one only where it differs. A deferred
register is brought up to date at certain steps only; until then a flag keeps what is due. Where
every change of what the word is made from raises the flag, no word is missed.
-/

namespace Switcheck.Sync

variable {σ ι β : Type}

section

variable [DecidableEq β]

def refresh (shadow word : β) : List β := if shadow ≠ word then [word] else []

/-- Updates with one word after the other write the sequence of words without repetitions. -/
theorem destutter'_snoc (init : β) (words : List β) (word : β) :
    (words ++ [word]).destutter' (· ≠ ·) init =
      words.destutter' (· ≠ ·) init ++ refresh (words.getLastD init) word := by
  induction words generalizing init with
  | nil =>
    rw [List.nil_append, List.destutter'_singleton, List.destutter'_nil, List.getLastD_nil, refresh]
    by_cases same : init = word <;> simp [same]
  | cons w words ih =>
    rw [List.cons_append, List.getLastD_cons]
    by_cases same : init = w
    · rw [List.destutter'_cons_neg _ (not_not.mpr same), List.destutter'_cons_neg _ (not_not.mpr same),
        same, ih]
    · rw [List.destutter'_cons_pos _ same, List.destutter'_cons_pos _ same, ih, List.cons_append]

theorem getLastD_of_destutter' {init : β} {writes words : List β}
    (same : init :: writes = words.destutter' (· ≠ ·) init) :
    writes.getLastD init = words.getLastD init := by
  induction words using List.reverseRecOn generalizing writes with
  | nil =>
    rw [List.destutter'_nil, List.cons.injEq] at same
    rw [same.2]
  | append_singleton words word ih =>
    rw [destutter'_snoc] at same
    have last : (words ++ [word]).getLastD init = word := by simp
    rw [last]
    unfold refresh at same
    split at same
    · obtain ⟨before, onward⟩ : ∃ before, words.destutter' (· ≠ ·) init = init :: before := by
        cases found : words.destutter' (· ≠ ·) init with
        | nil => exact absurd found (List.destutter'_ne_nil _ _)
        | cons first before =>
          rw [found, List.cons_append, List.cons.injEq] at same
          exact ⟨before, by rw [same.1]⟩
      rw [onward, List.cons_append, List.cons.injEq] at same
      rw [same.2]
      simp
    · rename_i equal
      rw [List.append_nil] at same
      exact (ih same).trans (not_not.mp equal)

end

/-- A register that is brought up to date at the steps that `flushes` names. -/
structure Deferred (C : Circuit σ ι) (β : Type) where
  /-- What the driver has written last. -/
  shadow : σ → β
  /-- An update is due. -/
  dirty : σ → Bool
  /-- The word that belongs to the settings. -/
  target : σ → β
  /-- The step changes what the word is made from. -/
  changes : Clock σ ι → Bool
  flushes : Clock σ ι → Bool
  writes : Clock σ ι → List β

namespace Deferred

variable {C : Circuit σ ι} (D : Deferred C β)

/-- The words of the settings at the updates, from the first change of the settings on. -/
def wanted (past : List (Clock σ ι)) : List β :=
  (past.dropWhile fun c => !D.changes c).flatMap fun c =>
    if D.flushes c then [D.target (C.tick c.regs c.pins)] else []

variable {D} {init : β} {past : List (Clock σ ι)} {s s' : σ}

theorem wanted_snoc (c : Clock σ ι) : D.wanted (past ++ [c]) = D.wanted past ++
    if past.all (fun d => !D.changes d) && !D.changes c then []
    else if D.flushes c then [D.target (C.tick c.regs c.pins)] else [] := by
  unfold wanted
  rw [List.dropWhile_append]
  cases all : past.all fun d => !D.changes d with
  | true =>
    have none : (past.dropWhile fun d => !D.changes d) = [] :=
      List.dropWhile_eq_nil_iff.mpr (List.all_eq_true.mp all)
    cases changes : D.changes c <;> simp [none, changes]
  | false =>
    have some : (past.dropWhile fun d => !D.changes d) ≠ [] := fun none =>
      absurd (List.all_eq_true.mpr (List.dropWhile_eq_nil_iff.mp none)) (by simp [all])
    simp [some]

theorem all_unchanged_snoc (past : List (Clock σ ι)) (c : Clock σ ι) :
    (past ++ [c]).all (fun c => !D.changes c) =
      (past.all (fun c => !D.changes c) && !D.changes c) := by simp

variable [DecidableEq β]

variable (D) in
/-- Every change raises the flag, and only an update that finds it raised writes. -/
structure Lawful (init : β) : Prop where
  start : ∀ s, C.Reset s → D.shadow s = init ∧ D.dirty s = false
  change : ∀ s i, D.changes ⟨s, i⟩ = true → D.flushes ⟨s, i⟩ = false →
    D.dirty (C.tick s i) = true
  same : ∀ s i, D.changes ⟨s, i⟩ = false → D.flushes ⟨s, i⟩ = false →
    D.target (C.tick s i) = D.target s ∧ D.dirty (C.tick s i) = D.dirty s
  quiet : ∀ s i, D.flushes ⟨s, i⟩ = false →
    D.shadow (C.tick s i) = D.shadow s ∧ D.writes ⟨s, i⟩ = []
  flush : ∀ s i, D.flushes ⟨s, i⟩ = true → (D.dirty s || D.changes ⟨s, i⟩) = true →
    D.shadow (C.tick s i) = D.target (C.tick s i) ∧
      D.writes ⟨s, i⟩ = refresh (D.shadow s) (D.target (C.tick s i)) ∧ D.dirty (C.tick s i) = false
  idle : ∀ s i, D.flushes ⟨s, i⟩ = true → (D.dirty s || D.changes ⟨s, i⟩) = false →
    D.target (C.tick s i) = D.target s ∧ D.shadow (C.tick s i) = D.shadow s ∧
      D.writes ⟨s, i⟩ = [] ∧ D.dirty (C.tick s i) = false

variable (D) in
/-- What is written so far, and that no update that is not due is missing. -/
structure Kept (init : β) (past : List (Clock σ ι)) (s : σ) : Prop where
  written : init :: past.flatMap D.writes = (D.wanted past).destutter' (· ≠ ·) init
  last : D.shadow s = (D.wanted past).getLastD init
  untouched : past.all (fun c => !D.changes c) = true → D.dirty s = false
  shown : past.all (fun c => !D.changes c) = false → D.dirty s = false → D.shadow s = D.target s

/-- A step that is no update, or finds the register up to date, adds nothing to be written. -/
theorem Kept.keep (kept : D.Kept init past s) {c : Clock σ ι}
    (wanted : D.wanted (past ++ [c]) = D.wanted past) (writes : D.writes c = [])
    (shadow : D.shadow s' = D.shadow s) :
    init :: (past ++ [c]).flatMap D.writes = (D.wanted (past ++ [c])).destutter' (· ≠ ·) init ∧
      D.shadow s' = (D.wanted (past ++ [c])).getLastD init := by
  rw [flatMap_snoc, writes, List.append_nil, wanted, shadow]
  exact ⟨kept.written, kept.last⟩

/-- An update writes the word of the settings where it differs from the last. -/
theorem Kept.update (kept : D.Kept init past s) {c : Clock σ ι} {word : β}
    (wanted : D.wanted (past ++ [c]) = D.wanted past ++ [word])
    (writes : D.writes c = refresh (D.shadow s) word) (shadow : D.shadow s' = word) :
    init :: (past ++ [c]).flatMap D.writes = (D.wanted (past ++ [c])).destutter' (· ≠ ·) init ∧
      D.shadow s' = (D.wanted (past ++ [c])).getLastD init := by
  rw [flatMap_snoc, writes, wanted, shadow, destutter'_snoc, ← kept.written, kept.last]
  exact ⟨rfl, by simp⟩

theorem Kept.quiet (lawful : D.Lawful init) (kept : D.Kept init past s) {i : ι}
    (flushes : D.flushes ⟨s, i⟩ = false) : D.Kept init (past ++ [⟨s, i⟩]) (C.tick s i) := by
  obtain ⟨shadow, writes⟩ := lawful.quiet s i flushes
  have onward : D.wanted (past ++ [⟨s, i⟩]) = _ := wanted_snoc ⟨s, i⟩
  have wanted : D.wanted (past ++ [⟨s, i⟩]) = D.wanted past := by simp [onward, flushes]
  obtain ⟨written, last⟩ := kept.keep wanted writes shadow
  cases changes : D.changes ⟨s, i⟩ with
  | false =>
    obtain ⟨target, dirty⟩ := lawful.same s i changes flushes
    have all := all_unchanged_snoc (D := D) past ⟨s, i⟩
    rw [changes, Bool.not_false, Bool.and_true] at all
    refine ⟨written, last, ?_, ?_⟩
    · rw [all, dirty]
      exact kept.untouched
    · rw [all, dirty, shadow, target]
      exact kept.shown
  | true =>
    have dirty := lawful.change s i changes flushes
    refine ⟨written, last, ?_, ?_⟩
    · simp [changes]
    · simp [dirty]

theorem Kept.flush (lawful : D.Lawful init) (kept : D.Kept init past s) {i : ι}
    (flushes : D.flushes ⟨s, i⟩ = true) (due : (D.dirty s || D.changes ⟨s, i⟩) = true) :
    D.Kept init (past ++ [⟨s, i⟩]) (C.tick s i) := by
  obtain ⟨shadow, writes, dirty⟩ := lawful.flush s i flushes due
  have touched : (past.all (fun c => !D.changes c) && !D.changes ⟨s, i⟩) = false := by
    cases untouched : past.all fun c => !D.changes c
    · rfl
    · rw [kept.untouched untouched, Bool.false_or] at due
      rw [due]
      rfl
  have wanted : D.wanted (past ++ [⟨s, i⟩]) = D.wanted past ++ [D.target (C.tick s i)] := by
    rw [wanted_snoc, touched, flushes]
    rfl
  obtain ⟨written, last⟩ := kept.update wanted writes shadow
  exact ⟨written, last, fun _ => dirty, fun _ _ => shadow⟩

theorem Kept.idle (lawful : D.Lawful init) (kept : D.Kept init past s) {i : ι}
    (flushes : D.flushes ⟨s, i⟩ = true) (due : (D.dirty s || D.changes ⟨s, i⟩) = false) :
    D.Kept init (past ++ [⟨s, i⟩]) (C.tick s i) := by
  obtain ⟨target, shadow, writes, dirty⟩ := lawful.idle s i flushes due
  obtain ⟨clean, changes⟩ := Bool.or_eq_false_iff.mp due
  have all := all_unchanged_snoc (D := D) past ⟨s, i⟩
  have onward : D.wanted (past ++ [⟨s, i⟩]) = _ := wanted_snoc ⟨s, i⟩
  rw [changes, Bool.not_false, Bool.and_true] at all
  rw [changes, Bool.not_false, Bool.and_true, flushes] at onward
  cases untouched : past.all fun c => !D.changes c with
  | true =>
    rw [untouched] at onward
    obtain ⟨written, last⟩ := kept.keep (by simpa using onward) writes shadow
    refine ⟨written, last, fun _ => dirty, ?_⟩
    rw [all, untouched]
    nofun
  | false =>
    have same : D.shadow s = D.target s := kept.shown untouched clean
    have wanted : D.wanted (past ++ [⟨s, i⟩]) = D.wanted past ++ [D.target s] := by
      rw [onward, untouched, ← target]
      rfl
    have none : D.writes ⟨s, i⟩ = refresh (D.shadow s) (D.target s) := by
      rw [writes, refresh, if_neg (not_not.mpr same)]
    obtain ⟨written, last⟩ := kept.update wanted none (shadow.trans same)
    refine ⟨written, last, fun _ => dirty, fun _ _ => ?_⟩
    rw [shadow, target, same]

theorem Kept.step (lawful : D.Lawful init) (kept : D.Kept init past s) (i : ι) :
    D.Kept init (past ++ [⟨s, i⟩]) (C.tick s i) := by
  cases flushes : D.flushes ⟨s, i⟩ with
  | false => exact kept.quiet lawful flushes
  | true =>
    cases due : D.dirty s || D.changes ⟨s, i⟩ with
    | true => exact kept.flush lawful flushes due
    | false => exact kept.idle lawful flushes due

/-- The register is written the words of the settings at the updates, each once, none left out. -/
theorem run_kept (lawful : D.Lawful init) (run : C.Run past s) : D.Kept init past s := by
  refine run.invariant (E := fun _ _ => True) (P := D.Kept init) ?_ ?_
    (held_of_forall (fun _ _ => trivial) _)
  · intro s reset
    obtain ⟨shadow, dirty⟩ := lawful.start s reset
    exact ⟨rfl, shadow, fun _ => dirty, nofun⟩
  · exact fun past s i _ kept _ => kept.step lawful i

end Deferred

end Switcheck.Sync
