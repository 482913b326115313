import Mathlib.Data.List.Infix
import Mathlib.Data.List.Range

/-!
# Ideal width-converting FIFO

A synchronous first-word-fall-through FIFO whose write and read words are made of lanes: the
greatest unit both widths are multiples of. It discards writes while full, ignores reads
while it holds no complete word, and counts complete read words exactly.
-/

namespace Switcheck.Sync

/-- A write word cut into lanes, and lanes joined into a read word, earliest lane first. -/
structure Packing (W α R : Type) where
  wrLanes : Nat
  rdLanes : Nat
  lanes : W → List α
  word : List α → R
  lanes_length : ∀ w, (lanes w).length = wrLanes
  wrLanes_pos : 0 < wrLanes
  rdLanes_pos : 0 < rdLanes

namespace Packing

variable {W α R : Type} (P : Packing W α R)

/-- No room for one more write word. -/
def full (depth : Nat) (q : List α) : Bool := decide (depth * P.wrLanes < q.length + P.wrLanes)

def count (q : List α) : Nat := q.length / P.rdLanes

/-- The write words that take up room, one of which some lanes have been read included. -/
def wrCount (q : List α) : Nat := (q.length + (P.wrLanes - 1)) / P.wrLanes

def dout (q : List α) : R := P.word (q.take P.rdLanes)

def popped (q : List α) (rdEn : Bool) : List α :=
  if rdEn ∧ 0 < P.count q then q.take P.rdLanes else []

def pushed (depth : Nat) (q : List α) (wrEn : Bool) (din : W) : List α :=
  if wrEn ∧ ¬ P.full depth q then P.lanes din else []

def next (depth : Nat) (q : List α) (wrEn : Bool) (din : W) (rdEn : Bool) : List α :=
  q.drop (P.popped q rdEn).length ++ P.pushed depth q wrEn din

theorem count_pos {q : List α} : 0 < P.count q ↔ P.rdLanes ≤ q.length :=
  Nat.div_pos_iff.trans (and_iff_right P.rdLanes_pos)

theorem le_count {q : List α} {n : Nat} : n ≤ P.count q ↔ P.rdLanes * n ≤ q.length :=
  (Nat.le_div_iff_mul_le P.rdLanes_pos).trans (by rw [Nat.mul_comm])

theorem wrCount_le {q : List α} {n : Nat} : P.wrCount q ≤ n ↔ q.length ≤ n * P.wrLanes := by
  have pos := P.wrLanes_pos
  rw [wrCount, ← Nat.lt_succ_iff, Nat.div_lt_iff_lt_mul pos, Nat.succ_mul]
  omega

theorem popped_length {q : List α} {rdEn : Bool} :
    (P.popped q rdEn).length = if rdEn ∧ 0 < P.count q then P.rdLanes else 0 := by
  unfold popped
  split
  · rename_i read
    exact List.length_take_of_le (P.count_pos.mp read.2)
  · rfl

/-- What is read and what remains are what was held and what is written, in order. -/
theorem popped_append_next (depth : Nat) (q : List α) (wrEn : Bool) (din : W) (rdEn : Bool) :
    P.popped q rdEn ++ P.next depth q wrEn din rdEn = q ++ P.pushed depth q wrEn din := by
  rw [next, ← List.append_assoc]
  congr 1
  rw [popped_length]
  unfold popped
  split
  · exact List.take_append_drop _ _
  · rfl

theorem next_length (depth : Nat) (q : List α) (wrEn : Bool) (din : W) (rdEn : Bool) :
    (P.popped q rdEn).length + (P.next depth q wrEn din rdEn).length =
      q.length + (P.pushed depth q wrEn din).length := by
  have law := congrArg List.length (P.popped_append_next depth q wrEn din rdEn)
  simpa only [List.length_append] using law

theorem next_length_le {depth : Nat} {q : List α} {wrEn : Bool} {din : W} {rdEn : Bool}
    (fits : q.length ≤ depth * P.wrLanes) :
    (P.next depth q wrEn din rdEn).length ≤ depth * P.wrLanes := by
  have law := P.next_length depth q wrEn din rdEn
  by_cases room : wrEn ∧ ¬ P.full depth q
  · have lanes : (P.pushed depth q wrEn din).length = P.wrLanes := by
      rw [pushed, if_pos room, P.lanes_length]
    have space : ¬ depth * P.wrLanes < q.length + P.wrLanes := by simpa [full] using room.2
    omega
  · have none : P.pushed depth q wrEn din = [] := if_neg room
    rw [none, List.length_nil] at law
    omega

theorem count_le_next {depth : Nat} {q : List α} {wrEn : Bool} {din : W} :
    P.count q ≤ P.count (P.next depth q wrEn din false) := by
  apply Nat.div_le_div_right
  have law := P.next_length depth q wrEn din false
  simp only [popped_length, Bool.false_eq_true, false_and, if_false] at law
  omega

theorem count_le_next_succ {depth : Nat} {q : List α} {wrEn : Bool} {din : W} {rdEn : Bool} :
    P.count q ≤ P.count (P.next depth q wrEn din rdEn) + 1 := by
  have law := P.next_length depth q wrEn din rdEn
  have bound : q.length ≤ (P.next depth q wrEn din rdEn).length + P.rdLanes := by
    rw [popped_length] at law
    split at law <;> omega
  calc P.count q ≤ ((P.next depth q wrEn din rdEn).length + P.rdLanes) / P.rdLanes :=
        Nat.div_le_div_right bound
    _ = P.count (P.next depth q wrEn din rdEn) + 1 := Nat.add_div_right _ P.rdLanes_pos

/-- The read words a sequence of lanes makes up; lanes short of a word are left over. -/
def words (xs : List α) : List R :=
  (List.range (P.count xs)).map fun k => P.word ((xs.drop (k * P.rdLanes)).take P.rdLanes)

@[simp] theorem words_length (xs : List α) : (P.words xs).length = P.count xs := by
  simp [words]

theorem words_append {xs : List α} (ys : List α) (whole : P.rdLanes ∣ xs.length) :
    P.words (xs ++ ys) = P.words xs ++ P.words ys := by
  obtain ⟨n, hn⟩ := whole
  have pos := P.rdLanes_pos
  have count_xs : P.count xs = n := by rw [count, hn, Nat.mul_div_cancel_left _ pos]
  have count_app : P.count (xs ++ ys) = n + P.count ys := by
    rw [count, List.length_append, hn, Nat.mul_add_div pos, count]
  refine List.ext_getElem (by simp [count_xs, count_app]) ?_
  intro k hk hk'
  simp only [words_length, count_app] at hk
  by_cases low : k < n
  · have fits : (k + 1) * P.rdLanes ≤ xs.length := by
      rw [hn, Nat.mul_comm]
      exact Nat.mul_le_mul_left _ low
    have room : P.rdLanes ≤ xs.length - k * P.rdLanes := by
      rw [Nat.add_one_mul] at fits
      omega
    rw [List.getElem_append_left (by simpa [count_xs] using low)]
    simp only [words, List.getElem_map, List.getElem_range]
    rw [List.drop_append_of_le_length (by omega), List.take_append_of_le_length (by simpa using room)]
  · have high : xs.length ≤ k * P.rdLanes := by
      rw [hn, Nat.mul_comm]
      exact Nat.mul_le_mul_right _ (Nat.le_of_not_lt low)
    rw [List.getElem_append_right (by simpa [count_xs] using low)]
    simp only [words, List.getElem_map, List.getElem_range, List.length_map, List.length_range,
      count_xs]
    rw [List.drop_append, List.drop_eq_nil_of_le high, List.nil_append, Nat.sub_mul, hn,
      Nat.mul_comm P.rdLanes n]

theorem words_dout {q : List α} (complete : 0 < P.count q) :
    P.words (q.take P.rdLanes) = [P.dout q] := by
  have enough := P.count_pos.mp complete
  have one : P.count (q.take P.rdLanes) = 1 := by
    rw [count, List.length_take_of_le enough, Nat.div_self P.rdLanes_pos]
  simp [words, one, dout, List.take_take]

theorem words_whole {xs : List α} (whole : xs.length = P.rdLanes) : P.words xs = [P.word xs] := by
  have one : P.count xs = 1 := by rw [count, whole, Nat.div_self P.rdLanes_pos]
  simp [words, one, ← whole]

theorem words_short {xs : List α} (short : xs.length < P.rdLanes) : P.words xs = [] := by
  simp [words, count, Nat.div_eq_of_lt short]

@[simp] theorem words_nil : P.words [] = [] := by simp [words, count]

/-- A read that finds a complete word takes exactly that word. -/
theorem words_append_popped {xs q : List α} {rdEn : Bool} (whole : P.rdLanes ∣ xs.length)
    (complete : rdEn = true → 0 < P.count q) :
    P.rdLanes ∣ (xs ++ P.popped q rdEn).length ∧
      P.words (xs ++ P.popped q rdEn) = P.words xs ++ if rdEn then [P.dout q] else [] := by
  rw [P.words_append _ whole, List.length_append]
  cases rdEn with
  | false => simpa [popped] using whole
  | true =>
    have enough := complete rfl
    have taken : P.popped q true = q.take P.rdLanes := by simp [popped, enough]
    rw [taken, P.words_dout enough, List.length_take_of_le (P.count_pos.mp enough), if_pos rfl]
    exact ⟨Nat.dvd_add whole (Nat.dvd_refl _), rfl⟩

/-- Words that are written and read whole; what an empty FIFO shows is `none`. -/
def single (none : W) : Packing W W W where
  wrLanes := 1
  rdLanes := 1
  lanes w := [w]
  word q := q.headD none
  lanes_length _ := rfl
  wrLanes_pos := Nat.one_pos
  rdLanes_pos := Nat.one_pos

theorem single_dout {none w : W} {q : List W} (head : q.head? = some w) :
    (single none).dout q = w := by
  cases q with
  | nil => cases head
  | cons first rest => exact Option.some.inj head

theorem single_next {none : W} {depth : Nat} {q : List W} (room : q.length < depth) (din : W)
    (rdEn : Bool) : (single none).next depth q true din rdEn = q.drop rdEn.toNat ++ [din] := by
  have space : ¬ (single none).full depth q = true := by
    rw [full, decide_eq_true_iff]
    show ¬ depth * 1 < q.length + 1
    omega
  have pushes : (single none).pushed depth q true din = [din] := if_pos ⟨rfl, space⟩
  rw [next, pushes, popped_length]
  cases rdEn with
  | false => rfl
  | true =>
    cases q with
    | nil => rw [List.drop_nil, List.drop_nil]
    | cons first rest => simp [count, single]

theorem single_next_idle {none : W} {depth : Nat} {q : List W} (din : W) :
    (single none).next depth q false din false = q := by
  simp [next, pushed, popped_length]

end Packing

end Switcheck.Sync
