import Mathlib.Order.Lattice
import Switcheck.Sync.Loop

/-!
# `find_peaks_simple`

The scan goes on just after the refined peak, which may be up to two samples before the one that
triggered it.
-/

namespace Switcheck

open Sync

namespace FindPeaks

structure Scan where
  i : Nat
  lastPeak : Int
  peaks : List Nat

/-- `range(left, right)`: five samples, or those of them that are in the list. -/
def window (n i : Nat) : List Nat :=
  let left := i - 2
  let right := min n (i + 3)
  List.range' left (right - left)

theorem mem_window {n i j : Nat} : j ∈ window n i ↔ i - 2 ≤ j ∧ j < n ∧ j < i + 3 := by
  simp only [window, List.mem_range'_1]
  omega

theorem foldl_max {α : Type} [LinearOrder α] (x : Nat → α) (js : List Nat) (i : Nat) :
    let m := js.foldl (fun m j => if x j > x m then j else m) i
    m ∈ i :: js ∧ ∀ j ∈ i :: js, x j ≤ x m := by
  induction js generalizing i with
  | nil => exact ⟨List.mem_singleton_self i, fun j here => (List.mem_singleton.mp here ▸ le_rfl)⟩
  | cons k js ih =>
    rw [List.foldl_cons]
    by_cases larger : x k > x i
    · rw [if_pos larger]
      obtain ⟨found, top⟩ := ih k
      refine ⟨List.mem_cons_of_mem i found, List.forall_mem_cons.mpr ⟨?_, top⟩⟩
      exact larger.le.trans (top k List.mem_cons_self)
    · rw [if_neg larger]
      obtain ⟨found, top⟩ := ih i
      obtain ⟨first, rest⟩ := List.forall_mem_cons.mp top
      refine ⟨?_, List.forall_mem_cons.mpr ⟨first, List.forall_mem_cons.mpr ⟨?_, rest⟩⟩⟩
      · rcases List.mem_cons.mp found with same | later
        · rw [same]
          exact List.mem_cons_self
        · exact List.mem_cons_of_mem i (List.mem_cons_of_mem k later)
      · exact (not_lt.mp larger).trans first

variable {α : Type} [LinearOrder α] [Inhabited α]

/-- A local maximum above the threshold. -/
def Triggers (x : List α) (threshold : α) (i : Nat) : Prop :=
  x.getD i default > x.getD (i - 1) default ∧ x.getD i default ≥ x.getD (i + 1) default ∧
    x.getD i default > threshold

instance (x : List α) (threshold : α) (i : Nat) : Decidable (Triggers x threshold i) :=
  inferInstanceAs (Decidable (_ ∧ _ ∧ _))

/-- `local_max` after the loop over the window. -/
def localMax (x : List α) (i : Nat) : Nat :=
  (window x.length i).foldl (fun m j => if x.getD j default > x.getD m default then j else m) i

def scan (x : List α) (distance : Int) (threshold : α) (s : Scan) : Option Scan :=
  if s.i + 1 < x.length then
    if Triggers x threshold s.i ∧ s.i - s.lastPeak ≥ distance then
      let m := localMax x s.i
      if m - s.lastPeak ≥ distance then
        some { i := m + 1, lastPeak := m, peaks := s.peaks ++ [m] }
      else some { s with i := s.i + 1 }
    else some { s with i := s.i + 1 }
  else none

/-- The state in which the scan ends; that it has ended by then is proved below. -/
def scanned (x : List α) (distance : Int) (threshold : α) : Scan :=
  rounds (scan x distance threshold) (3 * x.length + 2) ⟨1, -distance, []⟩

def findPeaksSimple (x : List α) (distance : Int) (threshold : α) : List Nat :=
  (scanned x distance threshold).peaks

variable {x : List α} {distance : Int} {threshold : α} {i j p : Nat} {s t : Scan}

theorem localMax_spec (inside : i < x.length) : localMax x i ∈ window x.length i ∧
    ∀ j ∈ window x.length i, x.getD j default ≤ x.getD (localMax x i) default := by
  obtain ⟨found, top⟩ := foldl_max (fun j => x.getD j default) (window x.length i) i
  refine ⟨?_, (List.forall_mem_cons.mp top).2⟩
  rcases List.mem_cons.mp found with same | later
  · rw [localMax, same]
    exact mem_window.mpr ⟨Nat.sub_le _ _, inside, by omega⟩
  · exact later

/-- The largest sample of the window around one that triggers, which is not at an end. -/
def IsPeak (x : List α) (threshold : α) (p : Nat) : Prop :=
  ∃ i, 1 ≤ i ∧ i + 1 < x.length ∧ Triggers x threshold i ∧ p ∈ window x.length i ∧
    ∀ j ∈ window x.length i, x.getD j default ≤ x.getD p default

structure Separated (x : List α) (distance : Int) (threshold : α) (s : Scan) : Prop where
  index : 1 ≤ s.i
  last : ∀ p ∈ s.peaks, (p : Int) ≤ s.lastPeak
  apart : s.peaks.Pairwise fun p q : Nat => (p : Int) + distance ≤ q
  peaks : ∀ p ∈ s.peaks, IsPeak x threshold p

/-- A peak counts twice, as the index may go back by one with it. -/
def remaining (n : Nat) (s : Scan) : Nat :=
  2 * ((n : Int) - max s.lastPeak (-1)).toNat + (n - s.i)

theorem separated_scan (positive : 1 ≤ distance) (separated : Separated x distance threshold s)
    (next : scan x distance threshold s = some t) :
    Separated x distance threshold t ∧ remaining x.length t < remaining x.length s := by
  obtain ⟨index, last, apart, peaks⟩ := separated
  unfold scan at next
  split at next
  · rename_i inside
    have onward : Separated x distance threshold { s with i := s.i + 1 } ∧
        remaining x.length { s with i := s.i + 1 } < remaining x.length s := by
      refine ⟨⟨Nat.le_succ_of_le index, last, apart, peaks⟩, ?_⟩
      simp only [remaining]
      omega
    split at next
    · rename_i triggers
      dsimp only at next
      split at next
      · rename_i far
        cases next
        obtain ⟨near, top⟩ := localMax_spec (x := x) (i := s.i) (by omega)
        generalize localMax x s.i = m at near top far
        have peak : IsPeak x threshold m := ⟨s.i, index, inside, triggers.1, near, top⟩
        obtain ⟨left, small, right⟩ := mem_window.mp near
        refine ⟨⟨Nat.succ_le_succ (Nat.zero_le m), ?_, ?_, ?_⟩, ?_⟩
        · refine List.forall_mem_append.mpr ⟨fun p member => ?_, ?_⟩
          · have before := last p member
            dsimp only
            omega
          · exact List.forall_mem_singleton.mpr le_rfl
        · refine List.pairwise_append.mpr ⟨apart, List.pairwise_singleton _ _, ?_⟩
          intro p member q new
          have before := last p member
          rw [List.mem_singleton.mp new]
          omega
        · exact List.forall_mem_append.mpr ⟨peaks, List.forall_mem_singleton.mpr peak⟩
        · simp only [remaining]
          omega
      · cases next
        exact onward
    · cases next
      exact onward
  · cases next

theorem scanned_spec (positive : 1 ≤ distance) (x : List α) (threshold : α) :
    scan x distance threshold (scanned x distance threshold) = none ∧
      Separated x distance threshold (scanned x distance threshold) := by
  refine rounds_end (remaining x.length) ?_ ?_ ?_
  · exact fun s t separated next => separated_scan positive separated next
  · exact ⟨le_rfl, fun p member => absurd member List.not_mem_nil, List.Pairwise.nil,
      fun p member => absurd member List.not_mem_nil⟩
  · simp only [remaining]
    omega

/-- The scan ends. The peaks go up by the distance at least, and each is the largest sample, above
the threshold, of the window around one that triggered. -/
theorem findPeaksSimple_separated (positive : 1 ≤ distance) (x : List α) (threshold : α) :
    scan x distance threshold (scanned x distance threshold) = none ∧
    (findPeaksSimple x distance threshold).Pairwise
      (fun p q : Nat => p < q ∧ distance ≤ (q : Int) - p) ∧
    ∀ p ∈ findPeaksSimple x distance threshold,
      p < x.length ∧ threshold < x.getD p default ∧ IsPeak x threshold p := by
  obtain ⟨ended, -, -, apart, peaks⟩ := scanned_spec positive x threshold
  refine ⟨ended, apart.imp fun separate => ?_, fun p member => ?_⟩
  · omega
  · obtain ⟨i, index, inside, triggers, near, top⟩ := peaks p member
    have largest := top i (mem_window.mpr ⟨Nat.sub_le _ _, by omega, by omega⟩)
    exact ⟨(mem_window.mp near).2.1, triggers.2.2.trans_le largest, i, index, inside, triggers,
      near, top⟩

theorem findPeaksSimple_separated_twoPeaks :
    let peaks := findPeaksSimple [0, 5, 1, 4, 3, 0, 0, 7, 1] (1 : Int) (2 : Int)
    peaks = [1, 7] ∧ peaks.Pairwise (fun p q : Nat => p < q ∧ (1 : Int) ≤ q - p) ∧
      ∀ p ∈ peaks, IsPeak [0, 5, 1, 4, 3, 0, 0, 7, 1] (2 : Int) p := by
  obtain ⟨-, apart, peaks⟩ :=
    findPeaksSimple_separated le_rfl [0, 5, 1, 4, 3, 0, 0, 7, 1] (2 : Int)
  exact ⟨by decide, apart, fun p member => (peaks p member).2.2⟩

/-- The second sample to trigger, at place three, is refined to the first peak and passed over. -/
example : findPeaksSimple [0, 5, 1, 4, 3, 0] (1 : Int) (2 : Int) = [1] := by decide

end FindPeaks

end Switcheck
