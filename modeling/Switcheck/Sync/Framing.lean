import Mathlib.Data.List.Induction
import Mathlib.Data.List.Infix

/-!
# Framing

A stream of beats is cut into frames after each beat that closes one. Frames and the beats
since the last of them are read off a list from the left, so that one more beat at the
right changes them in one of two ways.
-/

namespace Switcheck.Sync

variable {β : Type} (last : β → Bool)

def cutStep (acc : List (List β) × List β) (x : β) : List (List β) × List β :=
  if last x then (acc.1 ++ [acc.2 ++ [x]], []) else (acc.1, acc.2 ++ [x])

/-- The closed frames, and the beats since the last of them. -/
def cut (xs : List β) : List (List β) × List β := xs.foldl (cutStep last) ([], [])

def frames (xs : List β) : List (List β) := (cut last xs).1

def rest (xs : List β) : List β := (cut last xs).2

@[simp] theorem frames_nil : frames last [] = [] := rfl

@[simp] theorem rest_nil : rest last [] = [] := rfl

@[simp] theorem frames_snoc (xs : List β) (x : β) :
    frames last (xs ++ [x]) =
      if last x then frames last xs ++ [rest last xs ++ [x]] else frames last xs := by
  simp only [frames, cut, rest, List.foldl_append, List.foldl_cons, List.foldl_nil, cutStep]
  split <;> rfl

@[simp] theorem rest_snoc (xs : List β) (x : β) :
    rest last (xs ++ [x]) = if last x then [] else rest last xs ++ [x] := by
  simp only [cut, rest, List.foldl_append, List.foldl_cons, List.foldl_nil, cutStep]
  split <;> rfl

theorem frames_of_closed {xs : List β} (closed : ∀ x ∈ xs, last x = true) :
    frames last xs = xs.map (fun x => [x]) ∧ rest last xs = [] := by
  induction xs using List.reverseRecOn with
  | nil => exact ⟨rfl, rfl⟩
  | append_singleton xs x ih =>
    obtain ⟨same, none⟩ := ih fun y member => closed y (List.mem_append_left _ member)
    have closes := closed x (by simp)
    rw [frames_snoc, rest_snoc, if_pos closes, if_pos closes, same, none]
    exact ⟨by simp, rfl⟩

theorem flatten_frames (xs : List β) : (frames last xs).flatten ++ rest last xs = xs := by
  induction xs using List.reverseRecOn with
  | nil => rfl
  | append_singleton xs x ih =>
    rw [frames_snoc, rest_snoc]
    split
    · rw [List.flatten_append, List.flatten_singleton, List.append_nil, ← List.append_assoc, ih]
    · rw [← List.append_assoc, ih]

theorem rest_open (xs : List β) : ∀ x ∈ rest last xs, last x = false := by
  induction xs using List.reverseRecOn with
  | nil => simp
  | append_singleton xs x ih =>
    rw [rest_snoc]
    split
    · simp
    · rename_i closed
      intro y member
      rcases List.mem_append.mp member with old | new
      · exact ih y old
      · rw [List.mem_singleton.mp new]
        exact Bool.eq_false_iff.mpr closed

theorem frame_closed (xs f : List β) (member : f ∈ frames last xs) :
    ∃ body x, f = body ++ [x] ∧ last x = true ∧ ∀ y ∈ body, last y = false := by
  induction xs using List.reverseRecOn with
  | nil => simp at member
  | append_singleton xs x ih =>
    rw [frames_snoc] at member
    split at member
    · rename_i closes
      rcases List.mem_append.mp member with old | new
      · exact ih old
      · exact ⟨rest last xs, x, List.mem_singleton.mp new, closes, rest_open last xs⟩
    · exact ih member

theorem frames_append_mono (xs ys : List β) : frames last xs <+: frames last (xs ++ ys) := by
  induction ys using List.reverseRecOn with
  | nil => simp
  | append_singleton ys y ih =>
    rw [← List.append_assoc, frames_snoc]
    split
    · exact ih.trans (List.prefix_append _ _)
    · exact ih

theorem frames_mono {xs ys : List β} (h : xs <+: ys) : frames last xs <+: frames last ys := by
  obtain ⟨zs, rfl⟩ := h
  exact frames_append_mono last xs zs

theorem rest_append (xs ys : List β) :
    (∃ more, (frames last (xs ++ ys))[(frames last xs).length]? = some (rest last xs ++ more) ∧
      more ≠ []) ∨
    (frames last (xs ++ ys) = frames last xs ∧ rest last (xs ++ ys) = rest last xs ++ ys) := by
  induction ys using List.reverseRecOn with
  | nil => simp
  | append_singleton ys y ih =>
    rw [← List.append_assoc, frames_snoc, rest_snoc]
    rcases ih with ⟨more, found, some⟩ | ⟨same, grown⟩
    · refine Or.inl ⟨more, ?_, some⟩
      split
      · exact List.getElem?_append_left (List.getElem?_eq_some_iff.mp found).1 ▸ found
      · exact found
    · split
      · exact Or.inl ⟨ys ++ [y], by simp [same, grown], by simp⟩
      · exact Or.inr ⟨same, by rw [grown, List.append_assoc]⟩

theorem getElem?_mono {xs ys : List β} (h : xs <+: ys) {k : Nat} {x : β}
    (found : xs[k]? = some x) : ys[k]? = some x := by
  obtain ⟨zs, rfl⟩ := h
  rw [List.getElem?_append_left (List.getElem?_eq_some_iff.mp found).1, found]

def bursts (xs : List β) : List (List β) := frames last xs ++ [rest last xs]

theorem bursts_snoc_getElem (xs : List β) (x : β) :
    (bursts last (xs ++ [x]))[(frames last xs).length]? = some (rest last xs ++ [x]) := by
  rw [bursts, frames_snoc, rest_snoc]
  split <;> simp

/-- A burst of a shorter stream is the front of the burst at its place in a longer one. -/
theorem bursts_mono {xs ys : List β} (h : xs <+: ys) {k : Nat} {burst : List β}
    (found : (bursts last xs)[k]? = some burst) :
    ∃ whole, (bursts last ys)[k]? = some whole ∧ burst <+: whole := by
  by_cases closed : k < (frames last xs).length
  · rw [bursts, List.getElem?_append_left closed] at found
    have same := getElem?_mono (frames_mono last h) found
    refine ⟨burst, ?_, List.prefix_refl _⟩
    rw [bursts, List.getElem?_append_left (List.getElem?_eq_some_iff.mp same).1, same]
  · rw [bursts, List.getElem?_append_right (by omega)] at found
    obtain ⟨now, value⟩ := List.getElem?_eq_some_iff.mp found
    rw [List.length_singleton] at now
    have place : k = (frames last xs).length := by omega
    have front : rest last xs = burst := by simpa [place] using value
    obtain ⟨zs, rfl⟩ := h
    rcases rest_append last xs zs with ⟨more, grown, -⟩ | ⟨same, grown⟩
    · refine ⟨rest last xs ++ more, ?_, ⟨more, by rw [front]⟩⟩
      rw [bursts, place, List.getElem?_append_left (List.getElem?_eq_some_iff.mp grown).1, grown]
    · refine ⟨rest last xs ++ zs, ?_, ⟨zs, by rw [front]⟩⟩
      rw [bursts, place, same, grown]
      simp

/-- Where the `k`-th beat falls: its frame, and its place in that frame. -/
def position (xs : List β) (k : Nat) : Nat × Nat :=
  ((frames last (xs.take k)).length, (rest last (xs.take k)).length)

theorem position_mono {xs ys : List β} (h : xs <+: ys) {k : Nat} (short : k ≤ xs.length) :
    position last xs k = position last ys k := by
  obtain ⟨zs, rfl⟩ := h
  simp only [position, List.take_append_of_le_length short]

theorem position_next (xs ys : List β) :
    position last (xs ++ ys) xs.length = ((frames last xs).length, (rest last xs).length) := by
  rw [position, List.take_left]

theorem getElem?_snoc {xs : List β} {x y : β} {k : Nat} (found : (xs ++ [x])[k]? = some y) :
    xs[k]? = some y ∨ k = xs.length ∧ y = x := by
  by_cases old : k < xs.length
  · rw [List.getElem?_append_left old] at found
    exact Or.inl found
  · rw [List.getElem?_append_right (by omega)] at found
    obtain ⟨now, value⟩ := List.getElem?_eq_some_iff.mp found
    rw [List.length_singleton] at now
    exact Or.inr ⟨by omega, by simpa using value.symm⟩

/-! ### Frames of one length -/

/-- Every frame has `n` beats and the open one fewer. -/
structure Uniform (n : Nat) (xs : List β) : Prop where
  full : ∀ f ∈ frames last xs, f.length = n
  short : (rest last xs).length < n

variable {last} {n : Nat} {xs ys : List β}

theorem uniform_nil (pos : 0 < n) : Uniform last n [] := ⟨by simp, pos⟩

theorem Uniform.snoc_open {x : β} (uniform : Uniform last n xs) (opens : last x = false)
    (room : (rest last xs).length + 1 < n) : Uniform last n (xs ++ [x]) := by
  refine ⟨?_, ?_⟩
  · rw [frames_snoc, opens]
    exact uniform.full
  · rw [rest_snoc, opens]
    simpa using room

theorem Uniform.snoc_close {x : β} (uniform : Uniform last n xs) (closes : last x = true)
    (fills : (rest last xs).length + 1 = n) : Uniform last n (xs ++ [x]) := by
  refine ⟨?_, ?_⟩
  · intro f member
    rw [frames_snoc, if_pos closes] at member
    rcases List.mem_append.mp member with old | new
    · exact uniform.full f old
    · rw [List.mem_singleton.mp new, List.length_append]
      exact fills
  · rw [rest_snoc, if_pos closes, ← fills]
    exact Nat.succ_pos _

theorem Uniform.mono (uniform : Uniform last n ys) (h : xs <+: ys) : Uniform last n xs := by
  refine ⟨fun f member => uniform.full f ((frames_mono last h).subset member), ?_⟩
  obtain ⟨zs, rfl⟩ := h
  rcases rest_append last xs zs with ⟨more, found, some⟩ | ⟨-, grown⟩
  · have length := uniform.full _ (List.mem_of_getElem? found)
    have := List.length_pos_of_ne_nil some
    rw [List.length_append] at length
    omega
  · have short := uniform.short
    rw [grown, List.length_append] at short
    omega

theorem Uniform.length (uniform : Uniform last n xs) :
    xs.length = n * (frames last xs).length + (rest last xs).length := by
  have total : ((frames last xs).map List.length).sum = n * (frames last xs).length := by
    rw [List.map_eq_replicate_iff.mpr uniform.full, List.sum_replicate_nat, Nat.mul_comm]
  calc xs.length = ((frames last xs).flatten ++ rest last xs).length := by rw [flatten_frames]
    _ = n * (frames last xs).length + (rest last xs).length := by
      rw [List.length_append, List.length_flatten, total]

theorem Uniform.position (uniform : Uniform last n xs) {k : Nat} (short : k ≤ xs.length) :
    position last xs k = (k / n, k % n) := by
  have front := uniform.mono (List.take_prefix k xs)
  have length := front.length
  have less := front.short
  rw [List.length_take_of_le short] at length
  have ⟨quotient, remainder⟩ := (Nat.div_mod_unique (Nat.zero_lt_of_lt less)).mpr
    ⟨(Nat.add_comm ..).trans length.symm, less⟩
  rw [Sync.position, quotient, remainder]

end Switcheck.Sync
