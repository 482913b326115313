import Mathlib.Algebra.Ring.Nat
import Mathlib.Data.List.GetD

/-!
# Bytes in a message and in memory

Numbers with the high byte first, texts behind their length, and what reads them back; the bytes
that a memory holds from an offset on, and a copy into it.
-/

namespace Switcheck.Sync

abbrev Byte := BitVec 8

/-! ### Messages -/

def bigEndian : Nat → Nat → List Byte
  | 0, _ => []
  | size + 1, value => bigEndian size (value / 256) ++ [BitVec.ofNat 8 value]

def number (bytes : List Byte) : Nat := bytes.foldl (fun value byte => 256 * value + byte.toNat) 0

def text (value : List Byte) : List Byte := bigEndian 1 value.length ++ value

/-- What is read, and the bytes after it. -/
abbrev Reader (α : Type) := List Byte → Option (α × List Byte)

def readBytes (size : Nat) : Reader (List Byte) := fun bytes =>
  if size ≤ bytes.length then some (bytes.take size, bytes.drop size) else none

def readNumber (size : Nat) : Reader Nat := fun bytes => do
  let (digits, rest) ← readBytes size bytes
  some (number digits, rest)

def readText : Reader (List Byte) := fun bytes => do
  let (size, rest) ← readNumber 1 bytes
  readBytes size rest

variable {α : Type} {read : Reader α}

/-- One after another as long as there is one, and what is left. -/
def readMany (read : Reader α) : Nat → List Byte → List α × List Byte
  | 0, bytes => ([], bytes)
  | fuel + 1, bytes =>
    match read bytes with
    | none => ([], bytes)
    | some (item, rest) =>
      let (items, left) := readMany read fuel rest
      (item :: items, left)

@[simp] theorem bigEndian_length (size value : Nat) : (bigEndian size value).length = size := by
  induction size generalizing value with
  | zero => rfl
  | succ size ih => rw [bigEndian, List.length_append, ih, List.length_singleton]

theorem number_snoc (bytes : List Byte) (byte : Byte) :
    number (bytes ++ [byte]) = 256 * number bytes + byte.toNat := by
  rw [number, List.foldl_append]
  rfl

theorem number_bigEndian (size value : Nat) :
    number (bigEndian size value) = value % 256 ^ size := by
  induction size generalizing value with
  | zero => exact (Nat.mod_one value).symm
  | succ size ih =>
    rw [bigEndian, number_snoc, ih, BitVec.toNat_ofNat,
      show 256 ^ (size + 1) = 256 * 256 ^ size from Nat.pow_succ', Nat.mod_mul]
    exact Nat.add_comm _ _

theorem text_length (value : List Byte) : (text value).length = value.length + 1 := by
  rw [text, List.length_append, bigEndian_length, Nat.add_comm]

theorem readBytes_append {size : Nat} (bytes rest : List Byte) (length : bytes.length = size) :
    readBytes size (bytes ++ rest) = some (bytes, rest) := by
  rw [readBytes, if_pos (by rw [List.length_append]; omega), List.take_left' length,
    List.drop_left' length]

theorem readNumber_append {size value : Nat} (rest : List Byte) (fits : value < 256 ^ size) :
    readNumber size (bigEndian size value ++ rest) = some (value, rest) := by
  rw [readNumber, readBytes_append _ _ (bigEndian_length size value)]
  simp [number_bigEndian, Nat.mod_eq_of_lt fits]

theorem readText_append (value rest : List Byte) (short : value.length < 256) :
    readText (text value ++ rest) = some (value, rest) := by
  rw [readText, text, List.append_assoc, readNumber_append _ short]
  exact readBytes_append value rest rfl

/-- What was written one after another is read so, and the reader stops where it has to. -/
theorem readMany_flatMap {write : α → List Byte} {items : List α} {left : List Byte} {fuel : Nat}
    (each : ∀ item ∈ items, ∀ rest, read (write item ++ rest) = some (item, rest))
    (stops : read left = none) (enough : items.length ≤ fuel) :
    readMany read fuel (items.flatMap write ++ left) = (items, left) := by
  induction items generalizing fuel with
  | nil =>
    cases fuel with
    | zero => rfl
    | succ fuel => simp [readMany, stops]
  | cons item items ih =>
    obtain ⟨here, later⟩ := List.forall_mem_cons.mp each
    cases fuel with
    | zero => simp at enough
    | succ fuel =>
      rw [List.flatMap_cons, List.append_assoc, readMany, here]
      simp only [ih later (Nat.le_of_succ_le_succ enough)]

/-- As many as were written are read, whatever is left. -/
theorem readMany_count {write : α → List Byte} {items : List α} (left : List Byte)
    (each : ∀ item ∈ items, ∀ rest, read (write item ++ rest) = some (item, rest)) :
    readMany read items.length (items.flatMap write ++ left) = (items, left) := by
  induction items with
  | nil => rfl
  | cons item items ih =>
    obtain ⟨here, later⟩ := List.forall_mem_cons.mp each
    rw [List.flatMap_cons, List.append_assoc, List.length_cons, readMany, here]
    simp only [ih later]

/-- Fuel for `readMany`: each item takes bytes. -/
theorem length_le_flatMap {write : α → List Byte} (takes : ∀ item, 0 < (write item).length)
    (items : List α) : items.length ≤ (items.flatMap write).length := by
  induction items with
  | nil => exact Nat.le_refl 0
  | cons item items ih =>
    have here := takes item
    rw [List.flatMap_cons, List.length_append, List.length_cons]
    omega

/-! ### Memory -/

def stored (memory : Nat → Byte) (offset size : Nat) : List Byte :=
  (List.range size).map fun k => memory (offset + k)

def copy (memory : Nat → Byte) (offset : Nat) (bytes : List Byte) : Nat → Byte := fun a =>
  if offset ≤ a then bytes.getD (a - offset) (memory a) else memory a

variable {memory : Nat → Byte} {offset size : Nat} {bytes : List Byte}

@[simp] theorem stored_length (memory : Nat → Byte) (offset size : Nat) :
    (stored memory offset size).length = size := by
  rw [stored, List.length_map, List.length_range]

theorem stored_add (memory : Nat → Byte) (offset m n : Nat) :
    stored memory offset (m + n) = stored memory offset m ++ stored memory (offset + m) n := by
  simp [stored, List.range_add, Function.comp_def, Nat.add_assoc]

theorem stored_copy_self (memory : Nat → Byte) (offset : Nat) (bytes : List Byte) :
    stored (copy memory offset bytes) offset bytes.length = bytes := by
  refine List.ext_getElem (stored_length _ _ _) fun k _ inside => ?_
  simp [stored, copy, inside]

theorem stored_copy_other {k : Nat} (apart : offset + size ≤ k ∨ k + bytes.length ≤ offset) :
    stored (copy memory k bytes) offset size = stored memory offset size := by
  refine List.map_congr_left fun j member => ?_
  have inside := List.mem_range.mp member
  unfold copy
  split
  · rw [List.getD_eq_default]
    omega
  · rfl

theorem copy_append (memory : Nat → Byte) (offset : Nat) (first second : List Byte) :
    copy (copy memory offset first) (offset + first.length) second =
      copy memory offset (first ++ second) := by
  funext a
  unfold copy
  by_cases later : offset + first.length ≤ a
  · have past : first.length ≤ a - offset := by omega
    rw [if_pos later, if_pos (by omega), if_pos (by omega), List.getD_append_right _ _ _ _ past,
      List.getD_eq_default first _ past, Nat.sub_sub]
  · rw [if_neg later]
    split
    · rw [List.getD_append _ _ _ _ (by omega)]
    · rfl

/-- A copy over a part of what was copied before. -/
theorem copy_within (memory : Nat → Byte) (offset : Nat) (before after : List Byte)
    {old new : List Byte} (same : old.length = new.length) :
    copy (copy memory offset (before ++ old ++ after)) (offset + before.length) new =
      copy memory offset (before ++ new ++ after) := by
  funext a
  unfold copy
  by_cases later : offset + before.length ≤ a
  · obtain ⟨k, rfl⟩ : ∃ k, a = offset + before.length + k := ⟨a - (offset + before.length), by omega⟩
    have past : offset + before.length + k - offset = before.length + k := by omega
    have skip (ys : List Byte) (d : Byte) :
        (before ++ ys).getD (before.length + k) d = ys.getD k d := by
      rw [List.getD_append_right _ _ _ _ (Nat.le_add_right _ _), Nat.add_sub_cancel_left]
    rw [if_pos later, if_pos (by omega), if_pos (by omega), Nat.add_sub_cancel_left, past,
      List.append_assoc, List.append_assoc, skip, skip]
    by_cases inside : k < new.length
    · rw [List.getD_append _ _ _ _ inside, List.getD_eq_getElem _ _ inside,
        List.getD_eq_getElem _ _ inside]
    · rw [List.getD_eq_default _ _ (by omega), List.getD_append_right _ _ _ _ (by omega),
        List.getD_append_right _ _ _ _ (by omega), same]
  · rw [if_neg later]
    by_cases low : offset ≤ a
    · rw [if_pos low, if_pos low, List.append_assoc, List.append_assoc,
        List.getD_append _ _ _ _ (by omega), List.getD_append _ _ _ _ (by omega)]
    · rw [if_neg low, if_neg low]

/-- Copies to places that lie apart leave each its bytes, and everything else as it was. -/
theorem stored_foldl_copy_other (memory : Nat → Byte) {place : Nat → Nat}
    {bytes : Nat → List Byte} (n : Nat)
    (apart : ∀ i < n, offset + size ≤ place i ∨ place i + (bytes i).length ≤ offset) :
    stored ((List.range n).foldl (fun m i => copy m (place i) (bytes i)) memory) offset size =
      stored memory offset size := by
  induction n with
  | zero => rfl
  | succ n ih =>
    rw [List.range_succ, List.foldl_append, List.foldl_cons, List.foldl_nil,
      stored_copy_other (apart n (Nat.lt_succ_self n)), ih fun i low => apart i (Nat.lt_succ_of_lt low)]

theorem stored_foldl_copy_self (memory : Nat → Byte) {place : Nat → Nat} {bytes : Nat → List Byte}
    {n i : Nat} (inside : i < n) (apart : ∀ j < n, j ≠ i →
      place i + (bytes i).length ≤ place j ∨ place j + (bytes j).length ≤ place i) :
    stored ((List.range n).foldl (fun m j => copy m (place j) (bytes j)) memory) (place i)
      (bytes i).length = bytes i := by
  induction n with
  | zero => omega
  | succ n ih =>
    rw [List.range_succ, List.foldl_append, List.foldl_cons, List.foldl_nil]
    by_cases last : i = n
    · subst last
      exact stored_copy_self _ _ _
    · rw [stored_copy_other (apart n (Nat.lt_succ_self n) (Ne.symm last))]
      exact ih (by omega) fun j low => apart j (Nat.lt_succ_of_lt low)

end Switcheck.Sync
