import Switcheck.Sync.Circuit

/-!
# Handshakes

A port that offers a word with `valid` and passes it in a clock with `ready`. A sender that keeps
an offer until it passes has each word it offers pass exactly once.
-/

namespace Switcheck.Sync

structure Handshake (σ ι β : Type) where
  valid : Clock σ ι → Bool
  ready : Clock σ ι → Bool
  data : Clock σ ι → β

namespace Handshake

variable {σ ι β : Type} (h : Handshake σ ι β)

def passes (c : Clock σ ι) : List β := if h.valid c && h.ready c then [h.data c] else []

def waits (c : Clock σ ι) : List β := if h.valid c && !h.ready c then [h.data c] else []

/-- The word that the last clock has left waiting. -/
def waiting (past : List (Clock σ ι)) : List β := past.getLast?.toList.flatMap h.waits

/-- The word that a clock offers anew: not one that waits already. -/
def offers (before : List (Clock σ ι)) (c : Clock σ ι) : List β :=
  if h.valid c && (h.waiting before).isEmpty then [h.data c] else []

def offeredFrom : List (Clock σ ι) → List (Clock σ ι) → List β
  | _, [] => []
  | before, c :: rest => h.offers before c ++ offeredFrom (before ++ [c]) rest

def offered (past : List (Clock σ ι)) : List β := h.offeredFrom [] past

/-- An offer that waits is kept. -/
def Holds : Env σ ι := fun before c => ∀ word ∈ h.waiting before, h.valid c = true ∧ h.data c = word

instance [DecidableEq β] (before : List (Clock σ ι)) (c : Clock σ ι) :
    Decidable (h.Holds before c) :=
  inferInstanceAs (Decidable (∀ word ∈ h.waiting before, h.valid c = true ∧ h.data c = word))

@[simp] theorem waiting_snoc (past : List (Clock σ ι)) (c : Clock σ ι) :
    h.waiting (past ++ [c]) = h.waits c := by
  simp [waiting]

theorem offeredFrom_snoc (before past : List (Clock σ ι)) (c : Clock σ ι) :
    h.offeredFrom before (past ++ [c]) = h.offeredFrom before past ++ h.offers (before ++ past) c := by
  induction past generalizing before with
  | nil => simp [offeredFrom]
  | cons d past ih => simp [offeredFrom, ih]

theorem offered_snoc (past : List (Clock σ ι)) (c : Clock σ ι) :
    h.offered (past ++ [c]) = h.offered past ++ h.offers past c :=
  h.offeredFrom_snoc [] past c

theorem waiting_length_le (past : List (Clock σ ι)) : (h.waiting past).length ≤ 1 := by
  unfold waiting
  cases past.getLast? with
  | none => simp
  | some c =>
    simp only [Option.toList_some, List.flatMap_singleton, waits]
    split <;> simp

theorem passes_append_waits (c : Clock σ ι) :
    h.passes c ++ h.waits c = if h.valid c then [h.data c] else [] := by
  unfold passes waits
  cases h.valid c <;> cases h.ready c <;> rfl

/-- Every word that is offered passes once, in order; the last may still wait. -/
theorem passes_of_holds {past : List (Clock σ ι)} (held : Held h.Holds past) :
    past.flatMap h.passes ++ h.waiting past = h.offered past := by
  induction past using List.reverseRecOn with
  | nil => rfl
  | append_singleton past c ih =>
    obtain ⟨before, now⟩ := (held_snoc _ _ _).mp held
    have small := h.waiting_length_le past
    rw [flatMap_snoc, waiting_snoc, List.append_assoc, passes_append_waits, offered_snoc, ← ih before,
      List.append_assoc, List.append_cancel_left_eq]
    unfold Holds at now
    unfold offers
    match waits : h.waiting past with
    | [] => simp
    | [word] =>
      obtain ⟨still, same⟩ := now word (by simp [waits])
      simp [still, same]
    | _ :: _ :: _ =>
      rw [waits] at small
      simp at small

/-- A word that is offered in every clock is kept. -/
theorem heldFrom_of_forall {word : β} {before past : List (Clock σ ι)}
    (waits : ∀ x ∈ h.waiting before, x = word)
    (offers : ∀ c ∈ past, h.valid c = true ∧ h.data c = word) : HeldFrom h.Holds before past := by
  induction past generalizing before with
  | nil => trivial
  | cons c past ih =>
    obtain ⟨valid, data⟩ := offers c List.mem_cons_self
    refine ⟨fun x member => ⟨valid, data.trans (waits x member).symm⟩, ih ?_ ?_⟩
    · intro x member
      rw [waiting_snoc, Handshake.waits] at member
      split at member
      · exact (List.mem_singleton.mp member).trans data
      · cases member
    · exact fun d member => offers d (List.mem_cons_of_mem c member)

end Handshake

end Switcheck.Sync
