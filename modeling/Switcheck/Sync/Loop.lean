import Mathlib.Data.Nat.Init

/-!
# Loops

A `while` loop is the step that its body makes while the condition holds. With an invariant and a
variant it ends, after no more rounds than the variant counts.
-/

namespace Switcheck.Sync

variable {σ : Type}

/-- A number of rounds, or fewer if the loop ends before. -/
def rounds (body : σ → Option σ) : Nat → σ → σ
  | 0, s => s
  | n + 1, s => (body s).elim s (rounds body n)

variable {body : σ → Option σ} {s t : σ}

theorem rounds_of_end (ended : body s = none) (n : Nat) : rounds body n s = s := by
  cases n with
  | zero => rfl
  | succ n =>
    rw [rounds, ended]
    rfl

theorem rounds_of_step (next : body s = some t) (n : Nat) :
    rounds body (n + 1) s = rounds body n t := by
  rw [rounds, next]
  rfl

/-- An invariant that each round keeps while it lowers a variant holds when the loop has ended, and
that is after as many rounds as the variant counts. -/
theorem rounds_end {Inv : σ → Prop} (variant : σ → Nat)
    (keeps : ∀ s t, Inv s → body s = some t → Inv t ∧ variant t < variant s) {n : Nat}
    (inv : Inv s) (enough : variant s ≤ n) :
    body (rounds body n s) = none ∧ Inv (rounds body n s) := by
  induction n generalizing s with
  | zero =>
    cases step : body s with
    | none => exact ⟨step, inv⟩
    | some t =>
      have less := (keeps s t inv step).2
      omega
  | succ n ih =>
    cases step : body s with
    | none =>
      rw [rounds_of_end step]
      exact ⟨step, inv⟩
    | some t =>
      obtain ⟨inv', less⟩ := keeps s t inv step
      rw [rounds_of_step step]
      exact ih inv' (by omega)

end Switcheck.Sync
