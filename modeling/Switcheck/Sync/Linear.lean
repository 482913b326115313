import Mathlib.Data.List.Infix
import Mathlib.Order.Monotone.Defs

/-!
# Linearizable histories

A client writes to an object and reads it; the writes are called and answered in one order, and so
are the reads. Where each operation takes effect at one moment between its call and its answer, the
reads can be placed among the writes without contradicting the order of calls and answers.
-/

namespace Switcheck.Sync

variable {κ : Type} {acts : κ → Bool} {past before : List κ} {c : κ} {j k : Nat}

/-- How many operations of a kind have been called by the end of a history, and how many have been
answered. -/
structure Calls (κ : Type) where
  called : List κ → Nat
  answered : List κ → Nat

/-- Read `k` is placed after `found k` writes: the reads stay in order, a read that is called when
a write has been answered comes after it, and a write that is called when a read has been answered
comes after that. -/
structure Linear (writes reads : Calls κ) (past : List κ) (found : Nat → Nat) : Prop where
  inOrder : Monotone found
  fresh : ∀ before, before <+: past → ∀ k, reads.called before ≤ k →
    writes.answered before ≤ found k
  sound : ∀ before, before <+: past → ∀ k, k < reads.answered before →
    found k ≤ writes.called before

/-- The part of a history before its `k`-th moment that acts, all of it if there is none. -/
def untilNth (acts : κ → Bool) : Nat → List κ → List κ
  | _, [] => []
  | 0, c :: rest => if acts c then [] else c :: untilNth acts 0 rest
  | k + 1, c :: rest => c :: untilNth acts (if acts c then k else k + 1) rest

theorem untilNth_front (acts : κ → Bool) (k : Nat) (past : List κ) :
    untilNth acts k past <+: past := by
  induction past generalizing k with
  | nil => cases k <;> exact List.prefix_refl []
  | cons c rest ih =>
    cases k with
    | zero =>
      rw [untilNth]
      split
      · exact List.nil_prefix
      · exact List.cons_prefix_cons.mpr ⟨rfl, ih 0⟩
    | succ k => exact List.cons_prefix_cons.mpr ⟨rfl, ih _⟩

theorem countP_untilNth (acts : κ → Bool) (k : Nat) (past : List κ) :
    (untilNth acts k past).countP acts ≤ k := by
  induction past generalizing k with
  | nil => cases k <;> exact Nat.zero_le _
  | cons c rest ih =>
    cases k with
    | zero =>
      rw [untilNth]
      split
      · exact Nat.le_refl 0
      · rename_i quiet
        rw [List.countP_cons_of_neg quiet]
        exact ih 0
    | succ k =>
      rw [untilNth, List.countP_cons]
      have few := ih (if acts c then k else k + 1)
      split at few <;> simp_all

theorem prefix_untilNth (front : before <+: past) (few : before.countP acts ≤ k) :
    before <+: untilNth acts k past := by
  induction past generalizing k before with
  | nil =>
    rw [List.prefix_nil.mp front]
    exact List.nil_prefix
  | cons c rest ih =>
    cases before with
    | nil => exact List.nil_prefix
    | cons d more =>
      obtain ⟨rfl, tail⟩ := List.cons_prefix_cons.mp front
      rw [List.countP_cons] at few
      cases k with
      | zero =>
        have quiet : ¬ acts d = true := by
          intro act
          rw [if_pos act] at few
          omega
        rw [untilNth, if_neg quiet]
        exact List.cons_prefix_cons.mpr ⟨rfl, ih tail (by omega)⟩
      | succ k =>
        refine List.cons_prefix_cons.mpr ⟨rfl, ih tail ?_⟩
        split at few <;> simp_all

theorem untilNth_front_of (front : before <+: past) (many : k < before.countP acts) :
    untilNth acts k past <+: before := by
  rcases List.prefix_or_prefix_of_prefix (untilNth_front acts k past) front with less | more
  · exact less
  · have few := countP_untilNth acts k past
    have all := more.sublist.countP_le (p := acts)
    omega

theorem untilNth_mono (less : j ≤ k) (past : List κ) :
    untilNth acts j past <+: untilNth acts k past :=
  prefix_untilNth (untilNth_front acts j past) ((countP_untilNth acts j past).trans less)

theorem exists_untilNth (found : (past.filter acts)[k]? = some c) :
    ∃ after, past = untilNth acts k past ++ c :: after := by
  induction past generalizing k with
  | nil => simp at found
  | cons d rest ih =>
    cases act : acts d with
    | false =>
      rw [List.filter_cons_of_neg (by simp [act])] at found
      obtain ⟨after, rest'⟩ := ih found
      refine ⟨after, ?_⟩
      cases k <;> simp [untilNth, act, ← rest']
    | true =>
      rw [List.filter_cons_of_pos act] at found
      cases k with
      | zero =>
        obtain rfl : d = c := by simpa using found
        exact ⟨rest, by simp [untilNth, act]⟩
      | succ k =>
        rw [List.getElem?_cons_succ] at found
        obtain ⟨after, rest'⟩ := ih found
        exact ⟨after, by simp [untilNth, act, ← rest']⟩

/-- Operations that take effect between their call and their answer, the reads at the moments that
act, are linearized by the order in which they do. -/
theorem linear_of_acts {writes reads : Calls κ} {acted : List κ → Nat}
    (grows : ∀ front whole, front <+: whole → acted front ≤ acted whole)
    (writesAct : ∀ before, before <+: past →
      writes.answered before ≤ acted before ∧ acted before ≤ writes.called before)
    (readsAct : ∀ before, before <+: past →
      reads.answered before ≤ before.countP acts ∧ before.countP acts ≤ reads.called before) :
    Linear writes reads past fun k => acted (untilNth acts k past) := by
  refine ⟨fun j k less => grows _ _ (untilNth_mono less past), ?_, ?_⟩
  · intro before front k called
    have few := (readsAct before front).2.trans called
    exact (writesAct before front).1.trans (grows _ _ (prefix_untilNth front few))
  · intro before front k answered
    have many := answered.trans_le (readsAct before front).1
    exact (grows _ _ (untilNth_front_of front many)).trans (writesAct before front).2

end Switcheck.Sync
