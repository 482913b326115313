/-!
# The double buffer of the servers

A server sends the ring in two halves. `limit` says which half is next, and with it which
comparison decides whether the writer has left that half.
-/

namespace Switcheck

/-- The bursts of half a ring, and the bytes `send` is given for it. -/
structure DoubleBuffer where
  half : Nat
  block : Nat

namespace DoubleBuffer

variable (d : DoubleBuffer)

def ready (limit position : Nat) : Bool :=
  (decide (0 < limit) && decide (limit < position)) ||
    (decide (limit = 0) && decide (position < d.half))

def offset (limit : Nat) : Nat := if 0 < limit then 0 else d.block

def limitNext (limit : Nat) : Nat := if 0 < limit then 0 else d.half

/-- One turn of the loop: the offset of the block it sends, if it sends one, and the next limit. -/
def poll (limit position : Nat) : Option Nat × Nat :=
  if d.ready limit position then (some (d.offset limit), d.limitNext limit) else (none, limit)

/-- `adc-test-server`. -/
def adcTest : DoubleBuffer where
  half := 32 * 1024
  block := 4096 * 1024

variable {d} {limit position offset : Nat}

theorem poll_sent (sent : (d.poll limit position).1 = some offset) :
    (0 < limit ∧ limit < position ∧ offset = 0) ∨
      (limit = 0 ∧ position < d.half ∧ offset = d.block) := by
  unfold poll at sent
  split at sent
  · rename_i ready
    obtain rfl := Option.some.inj sent
    by_cases low : 0 < limit
    · have passed : limit < position := by simpa [DoubleBuffer.ready, low, Nat.ne_of_gt low] using ready
      exact .inl ⟨low, passed, if_pos low⟩
    · have zero : limit = 0 := Nat.eq_zero_of_not_pos low
      have wrapped : position < d.half := by simpa [DoubleBuffer.ready, zero] using ready
      exact .inr ⟨zero, wrapped, if_neg low⟩
  · cases sent

theorem poll_limit (d : DoubleBuffer) (limit position : Nat) :
    (d.poll limit position).2 = limit ∨
      (0 < limit ∧ limit < position ∧ (d.poll limit position).2 = 0) ∨
      (limit = 0 ∧ position < d.half ∧ (d.poll limit position).2 = d.half) := by
  cases ready : d.ready limit position with
  | false => exact .inl (by simp [poll, ready])
  | true =>
    have sent : (d.poll limit position).1 = some (d.offset limit) := by simp [poll, ready]
    have next : (d.poll limit position).2 = d.limitNext limit := by simp [poll, ready]
    rw [next]
    rcases poll_sent sent with ⟨low, passed, -⟩ | ⟨zero, wrapped, -⟩
    · exact .inr (.inl ⟨low, passed, if_pos low⟩)
    · exact .inr (.inr ⟨zero, wrapped, if_neg (by omega)⟩)

end DoubleBuffer

end Switcheck
