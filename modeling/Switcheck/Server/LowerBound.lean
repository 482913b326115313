import Mathlib.Order.Bounds.Basic
import Switcheck.Sync.Loop

/-!
# `lower_bound`

The binary search that two of the servers have a copy of.
-/

namespace Switcheck

open Sync

namespace LowerBound

structure Interval where
  i : Nat
  j : Nat

variable {α : Type} [LinearOrder α]

def halve (array : Nat → α) (value : α) (s : Interval) : Option Interval :=
  if s.i < s.j then
    let k := s.i + (s.j - s.i) / 2
    some (if value > array k then { s with i := k + 1 } else { s with j := k })
  else none

/-- The interval the loop ends with. -/
def search (array : Nat → α) (size : Nat) (value : α) : Interval :=
  rounds (halve array value) size ⟨0, size⟩

def lowerBound (array : Nat → α) (size : Nat) (value : α) : Nat := (search array size value).i

def Ascending (array : Nat → α) (size : Nat) : Prop :=
  ∀ i j, i ≤ j → j < size → array i ≤ array j

/-- Elements below the interval are less than the key, those past it are not. -/
structure Closes (array : Nat → α) (size : Nat) (value : α) (s : Interval) : Prop where
  order : s.i ≤ s.j
  inside : s.j ≤ size
  less : ∀ k < s.i, array k < value
  notLess : ∀ k, s.j ≤ k → k < size → value ≤ array k

variable {array : Nat → α} {size : Nat} {value : α}

theorem closes_halve (ascending : Ascending array size) {s t : Interval}
    (closes : Closes array size value s) (next : halve array value s = some t) :
    Closes array size value t ∧ t.j - t.i < s.j - s.i := by
  obtain ⟨order, inside, less, notLess⟩ := closes
  unfold halve at next
  split at next
  · rename_i more
    have lower : s.i ≤ s.i + (s.j - s.i) / 2 := Nat.le_add_right _ _
    have upper : s.i + (s.j - s.i) / 2 < s.j := by omega
    generalize s.i + (s.j - s.i) / 2 = k at next lower upper
    dsimp only at next
    split at next
    · rename_i greater
      cases next
      refine ⟨⟨upper, inside, fun k' below => ?_, notLess⟩, ?_⟩
      · exact (ascending k' k (Nat.le_of_lt_succ below) (by omega)).trans_lt greater
      · dsimp only
        omega
    · rename_i notGreater
      cases next
      refine ⟨⟨lower, by dsimp only; omega, less, fun k' above small => ?_⟩, ?_⟩
      · exact (not_lt.mp notGreater).trans (ascending k k' above small)
      · dsimp only
        omega
  · cases next

theorem search_spec (ascending : Ascending array size) (value : α) :
    halve array value (search array size value) = none ∧
      Closes array size value (search array size value) := by
  refine rounds_end (fun s => s.j - s.i) ?_ ?_ (Nat.sub_le _ _)
  · exact fun s t closes next => closes_halve ascending closes next
  · refine ⟨Nat.zero_le _, le_rfl, fun k none => absurd none (Nat.not_lt_zero k), ?_⟩
    exact fun k above small => absurd small (Nat.not_lt_of_le above)

/-- The first place whose element is not less than the key, or the end of the array. -/
theorem isLeast_lowerBound (ascending : Ascending array size) (value : α) :
    IsLeast {k | k < size → value ≤ array k} (lowerBound array size value) := by
  obtain ⟨ended, closes⟩ := search_spec ascending value
  have met : (search array size value).i = (search array size value).j := by
    have order := closes.order
    by_contra apart
    rw [halve, if_pos (by omega)] at ended
    cases ended
  refine ⟨fun small => closes.notLess _ met.ge small, fun k small => ?_⟩
  by_contra below
  have before : k < lowerBound array size value := Nat.lt_of_not_le below
  have inside : k < size := before.trans_le (met.le.trans closes.inside)
  exact absurd (closes.less k before) (not_lt.mpr (small inside))

theorem lowerBound_le (ascending : Ascending array size) (value : α) :
    lowerBound array size value ≤ size :=
  (isLeast_lowerBound ascending value).2 fun past => absurd past (Nat.lt_irrefl size)

end LowerBound

end Switcheck
