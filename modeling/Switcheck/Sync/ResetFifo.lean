import Switcheck.Sync.Circuit
import Switcheck.Sync.Fifo

/-!
# A FIFO that is held in reset

Words go through a FIFO that somebody else clears, and holds empty, from time to time. A reader takes
words of several lanes, and what it takes is what was written only if it starts where a word starts.
-/

namespace Switcheck.Sync

open Circuit

/-- Whether the FIFO is out of reset, and the lanes in it. -/
structure ResetFifo (α : Type) where
  live : Bool
  queue : List α

namespace ResetFifo

inductive Move (W : Type) where
  | write (word : W)
  | read
  | hold
  | release
  | idle

variable {W α R : Type} (P : Packing W α R) (depth : Nat)

/-- What is written in reset is lost. -/
def step (s : ResetFifo α) : Move W → ResetFifo α
  | .write word => { s with queue := s.queue ++ P.pushed depth s.queue s.live word }
  | .read => { s with queue := s.queue.drop (P.popped s.queue true).length }
  | .hold => ⟨false, []⟩
  | .release => { s with live := true }
  | .idle => s

/-- Out of reset, and empty. -/
def circuit : Circuit (ResetFifo α) (Move W) where
  Reset s := s = ⟨true, []⟩
  tick := step P depth

abbrev Tick (α W : Type) := Clock (ResetFifo α) (Move W)

def written (c : Tick α W) : List α :=
  match c.pins with
  | .write word => P.lanes word
  | _ => []

def taken (c : Tick α W) : List R :=
  match c.pins with
  | .read => if 0 < P.count c.regs.queue then [P.dout c.regs.queue] else []
  | _ => []

def NeverFull (_ : List (Tick α W)) (c : Tick α W) : Prop :=
  ∀ word, c.pins = .write word → P.full depth c.regs.queue = false

/-- The FIFO is let go when the words written make up whole words of the reader. -/
def ReleasesBetween (before : List (Tick α W)) (c : Tick α W) : Prop :=
  c.pins = .release → c.regs.live = false → P.rdLanes ∣ (before.flatMap (written P)).length

/-- The reader finds what has been written from the start of a word on. -/
def Whole (past : List (Tick α W)) (s : ResetFifo α) : Prop :=
  s.live = true → ∃ k, k * P.rdLanes ≤ (past.flatMap (written P)).length ∧
    s.queue = (past.flatMap (written P)).drop (k * P.rdLanes)

def Live (_ : List (Tick α W)) (c : Tick α W) : Prop := c.regs.live = true

/-- What has been taken are words from before those in the FIFO: all of them if it never was in
reset. -/
structure Through (past : List (Tick α W)) (s : ResetFifo α) (k : Nat) : Prop where
  le : k * P.rdLanes ≤ (past.flatMap (written P)).length
  taken : (past.flatMap (taken P)).Sublist
    (P.words ((past.flatMap (written P)).take (k * P.rdLanes)))
  kept : Held Live past → s.live = true →
    past.flatMap (ResetFifo.taken P) = P.words ((past.flatMap (written P)).take (k * P.rdLanes))
  queue : s.queue = if s.live then (past.flatMap (written P)).drop (k * P.rdLanes) else []

variable {P depth} {past : List (Tick α W)} {s : ResetFifo α} {i : Move W} {k : Nat}

theorem run_cleared (run : (circuit P depth).Run past s) (held : s.live = false) :
    s.queue = [] := by
  induction run with
  | @reset s start =>
    rw [show s = ⟨true, []⟩ from start]
  | @tick past s run i ih =>
    cases i with
    | write word =>
      have before : s.queue = [] := ih held
      have off : s.live = false := held
      show s.queue ++ P.pushed depth s.queue s.live word = []
      simp [before, off, Packing.pushed]
    | read =>
      have before : s.queue = [] := ih held
      show s.queue.drop _ = []
      rw [before, List.drop_nil]
    | hold => rfl
    | release => cases held
    | idle => exact ih held

theorem pushed_live {word : W} (live : s.live = true) (room : P.full depth s.queue = false) :
    P.pushed depth s.queue s.live word = P.lanes word := by
  simp [Packing.pushed, live, room]

theorem length_snoc (c : Tick α W) : (past.flatMap (written P)).length ≤
    ((past ++ [c]).flatMap (written P)).length := by
  rw [flatMap_snoc, List.length_append]
  exact Nat.le_add_right _ _

theorem written_quiet (past : List (Tick α W)) (quiet : written P ⟨s, i⟩ = []) :
    (past ++ [Clock.mk s i]).flatMap (written P) = past.flatMap (written P) := by
  rw [flatMap_snoc, quiet, List.append_nil]

/-- A read of a FIFO that starts with a word goes on to the next one. -/
theorem drop_popped {all : List α} (le : k * P.rdLanes ≤ all.length) :
    ∃ k', k' * P.rdLanes ≤ all.length ∧
      (all.drop (k * P.rdLanes)).drop (P.popped (all.drop (k * P.rdLanes)) true).length =
        all.drop (k' * P.rdLanes) := by
  rw [P.popped_length, List.drop_drop]
  split
  · rename_i some
    have enough := P.count_pos.mp some.2
    rw [List.length_drop] at enough
    refine ⟨k + 1, ?_, ?_⟩
    · rw [Nat.succ_mul]
      omega
    · rw [Nat.succ_mul]
  · exact ⟨k, le, by rw [Nat.add_zero]⟩

theorem whole_step (run : (circuit P depth).Run past s) (whole : Whole P past s)
    (room : NeverFull P depth past ⟨s, i⟩) :
    Whole P (past ++ [⟨s, i⟩]) ((circuit P depth).tick s i) ↔
      ReleasesBetween P past ⟨s, i⟩ := by
  cases i with
  | write word =>
    refine iff_of_true (fun live => ?_) (fun other => by cases other)
    obtain ⟨k, le, queue⟩ := whole live
    have all : (past ++ [Clock.mk s (Move.write word)]).flatMap (written P) =
        past.flatMap (written P) ++ P.lanes word := flatMap_snoc ..
    refine ⟨k, le.trans (length_snoc _), ?_⟩
    rw [all, List.drop_append_of_le_length le, ← queue]
    exact congrArg (s.queue ++ ·) (pushed_live live (room word rfl))
  | read =>
    refine iff_of_true (fun live => ?_) (fun other => by cases other)
    obtain ⟨k, le, queue⟩ := whole live
    obtain ⟨k', le', onward⟩ := drop_popped le
    rw [written_quiet (i := .read) _ rfl]
    refine ⟨k', le', ?_⟩
    rw [← onward, ← queue]
    rfl
  | hold => exact iff_of_true (fun live => Bool.noConfusion live) (fun other => by cases other)
  | release =>
    cases live : s.live with
    | true =>
      refine iff_of_true (fun _ => ?_) (fun _ held => absurd (live.symm.trans held) (by decide))
      rw [written_quiet (i := .release) _ rfl]
      exact whole live
    | false =>
      have none : s.queue = [] := run_cleared run live
      constructor
      · intro after _ _
        obtain ⟨k, le, queue⟩ := after rfl
        rw [written_quiet (i := .release) _ rfl] at le queue
        have past_end := List.drop_eq_nil_iff.mp (queue.symm.trans none)
        exact ⟨k, by rw [Nat.mul_comm]; omega⟩
      · intro between _
        obtain ⟨k, length⟩ := between rfl live
        rw [written_quiet (i := .release) _ rfl]
        refine ⟨k, by rw [length, Nat.mul_comm], ?_⟩
        rw [List.drop_eq_nil_of_le (by rw [length, Nat.mul_comm])]
        exact none
  | idle =>
    refine iff_of_true (fun live => ?_) (fun other => by cases other)
    rw [written_quiet (i := .idle) _ rfl]
    exact whole live

/-- Without overflow the reader finds whole words throughout a run exactly when the FIFO is let go
only between words. -/
theorem run_whole_iff (run : (circuit P depth).Run past s) (room : Held (NeverFull P depth) past) :
    (Whole P past s ∧ Held (fun before c => Whole P before c.regs) past) ↔
      Held (ReleasesBetween P) past := by
  refine run.throughout_iff_under (Q := Whole P) ?_ ?_ ?_ room
  · rintro s rfl
    exact ⟨fun _ => ⟨0, by simp, by simp⟩, fun _ => ⟨0, by simp, by simp⟩⟩
  · exact fun past s i run whole room => whole_step run whole room
  · exact fun past s i run whole room between => (whole_step run whole room).mpr between

/-! ### What is read -/

theorem words_take {all : List α} (le : k * P.rdLanes ≤ all.length) :
    P.words all = P.words (all.take (k * P.rdLanes)) ++ P.words (all.drop (k * P.rdLanes)) := by
  have whole : P.rdLanes ∣ (all.take (k * P.rdLanes)).length := by
    rw [List.length_take_of_le le]
    exact Nat.dvd_mul_left _ _
  rw [← P.words_append _ whole, List.take_append_drop]

/-- The word that a read takes is the next one of what has been written. -/
theorem words_next {all : List α} (le : k * P.rdLanes ≤ all.length)
    (some : 0 < P.count (all.drop (k * P.rdLanes))) :
    P.words (all.take ((k + 1) * P.rdLanes)) =
      P.words (all.take (k * P.rdLanes)) ++ [P.dout (all.drop (k * P.rdLanes))] := by
  have whole : P.rdLanes ∣ (all.take (k * P.rdLanes)).length := by
    rw [List.length_take_of_le le]
    exact Nat.dvd_mul_left _ _
  rw [Nat.succ_mul, List.take_add, P.words_append _ whole, P.words_dout some]

theorem taken_quiet (past : List (Tick α W)) (quiet : taken P ⟨s, i⟩ = []) :
    (past ++ [Clock.mk s i]).flatMap (taken P) = past.flatMap (taken P) := by
  rw [flatMap_snoc, quiet, List.append_nil]

theorem Through.write {word : W} (through : Through P past s k)
    (room : P.full depth s.queue = false) :
    Through P (past ++ [⟨s, .write word⟩]) (step P depth s (.write word)) k := by
  obtain ⟨le, taken, kept, queue⟩ := through
  have all : (past ++ [Clock.mk s (Move.write word)]).flatMap (written P) =
      past.flatMap (written P) ++ P.lanes word := flatMap_snoc ..
  have none := taken_quiet (P := P) (s := s) (i := .write word) past rfl
  refine ⟨le.trans (length_snoc _), ?_, fun held live => ?_, ?_⟩
  · rw [none, all, List.take_append_of_le_length le]
    exact taken
  · rw [none, all, List.take_append_of_le_length le]
    exact kept ((held_snoc _ _ _).mp held).1 live
  · show s.queue ++ P.pushed depth s.queue s.live word = if s.live then _ else []
    rw [all, List.drop_append_of_le_length le]
    cases live : s.live with
    | true =>
      rw [← live, pushed_live live room, queue, if_pos live, live, if_pos rfl]
    | false =>
      rw [live, if_neg Bool.false_ne_true] at queue
      rw [queue, if_neg Bool.false_ne_true]
      simp [Packing.pushed]

theorem Through.read (depth : Nat) (through : Through P past s k) : ∃ k',
    Through P (past ++ [⟨s, .read⟩]) (step P depth s .read) k' := by
  obtain ⟨le, taken, kept, queue⟩ := through
  have all := written_quiet (P := P) (s := s) (i := .read) past rfl
  have onward : (past ++ [Clock.mk s Move.read]).flatMap (ResetFifo.taken P) =
      past.flatMap (ResetFifo.taken P) ++
        if 0 < P.count s.queue then [P.dout s.queue] else [] := flatMap_snoc ..
  by_cases some : 0 < P.count s.queue
  · have live : s.live = true := by
      by_contra held
      rw [queue, if_neg held] at some
      exact absurd (P.count_pos.mp some) (Nat.not_le_of_lt P.rdLanes_pos)
    rw [queue, if_pos live] at some
    have next := words_next le some
    have enough := P.count_pos.mp some
    rw [List.length_drop] at enough
    rw [queue, if_pos live, if_pos some] at onward
    refine ⟨k + 1, ?_, ?_, fun held _ => ?_, ?_⟩
    · rw [all, Nat.succ_mul]
      omega
    · rw [all, onward, next]
      exact taken.append (List.Sublist.refl _)
    · rw [all, onward, next, kept ((held_snoc _ _ _).mp held).1 live]
    · show s.queue.drop _ = if s.live then _ else []
      rw [queue, if_pos live, if_pos live, P.popped_length, if_pos ⟨rfl, some⟩, all,
        List.drop_drop, Nat.succ_mul]
  · rw [if_neg some, List.append_nil] at onward
    refine ⟨k, by rwa [all], by rwa [all, onward], fun held live => ?_, ?_⟩
    · rw [all, onward]
      exact kept ((held_snoc _ _ _).mp held).1 live
    · show s.queue.drop _ = if s.live then _ else []
      rw [P.popped_length, if_neg (fun both => some both.2), List.drop_zero, all]
      exact queue

theorem Through.release (depth : Nat) (through : Through P past s k)
    (between : s.live = false → P.rdLanes ∣ (past.flatMap (written P)).length) : ∃ k',
    Through P (past ++ [⟨s, .release⟩]) (step P depth s .release) k' := by
  obtain ⟨le, taken, kept, queue⟩ := through
  have all := written_quiet (P := P) (s := s) (i := .release) past rfl
  have none := taken_quiet (P := P) (s := s) (i := .release) past rfl
  cases live : s.live with
  | true =>
    refine ⟨k, by rwa [all], by rwa [all, none], fun held _ => ?_, ?_⟩
    · rw [all, none]
      exact kept ((held_snoc _ _ _).mp held).1 live
    · rw [all]
      rw [live] at queue
      exact queue
  | false =>
    obtain ⟨k', length⟩ := between live
    have whole : k' * P.rdLanes = (past.flatMap (written P)).length := by rw [length, Nat.mul_comm]
    refine ⟨k', by rw [all, whole], ?_, fun held _ => ?_, ?_⟩
    · rw [all, none, whole, List.take_length, words_take le]
      exact taken.trans (List.sublist_append_left _ _)
    · exact absurd (live.symm.trans ((held_snoc _ _ _).mp held).2) (by decide)
    · rw [live, if_neg Bool.false_ne_true] at queue
      rw [all, whole, List.drop_length, ite_self]
      exact queue

/-- Where the FIFO is let go only between words, the words read are words written, in order. -/
theorem run_through (run : (circuit P depth).Run past s) (room : Held (NeverFull P depth) past)
    (between : Held (ReleasesBetween P) past) : ∃ k, Through P past s k := by
  refine run.invariant (P := fun past s => ∃ k, Through P past s k) ?_ ?_
    (held_and.mpr ⟨room, between⟩)
  · rintro s rfl
    exact ⟨0, by simp, List.nil_sublist _, by simp, by simp⟩
  · rintro past s i - ⟨k, through⟩ ⟨room, between⟩
    cases i with
    | write word => exact ⟨k, through.write (room word rfl)⟩
    | read => exact through.read depth
    | hold =>
      have all := written_quiet (P := P) (s := s) (i := .hold) past rfl
      have none := taken_quiet (P := P) (s := s) (i := .hold) past rfl
      refine ⟨k, ?_, ?_, fun _ live => Bool.noConfusion live, rfl⟩
      · rw [all]
        exact through.le
      · rw [all, none]
        exact through.taken
    | release => exact through.release depth fun held => between rfl held
    | idle =>
      have all := written_quiet (P := P) (s := s) (i := .idle) past rfl
      have none := taken_quiet (P := P) (s := s) (i := .idle) past rfl
      refine ⟨k, ?_, ?_, fun held live => ?_, ?_⟩
      · rw [all]
        exact through.le
      · rw [all, none]
        exact through.taken
      · rw [all, none]
        exact through.kept ((held_snoc _ _ _).mp held).1 live
      · rw [all]
        exact through.queue

end ResetFifo

end Switcheck.Sync
