import Switcheck.Modules.Buffers
import Switcheck.Sync.Circuit

/-!
# `inout_buffer` over a run

The two buffers in a row are a queue of two places whose input port is ready from a register.
-/

namespace Switcheck

open Sync Circuit

structure BufferPins (β : Type) where
  inData : β
  inValid : Bool
  outReady : Bool

namespace InoutBuffer

variable {β : Type}

/-- Registers after a clock in reset, or as the `initial` values leave them. -/
def circuit (β : Type) : Circuit (InoutBuffer β) (BufferPins β) where
  Reset b := b.buf0.intReadyReg = true ∧ b.buf1.intValidReg = false
  tick b i := b.posedge true i.inData i.inValid i.outReady

abbrev Tick (β : Type) := Clock (InoutBuffer β) (BufferPins β)

def inAccepted (c : Tick β) : List β := c.regs.put c.pins.inData c.pins.inValid

def outAccepted (c : Tick β) : List β := c.regs.taken c.pins.outReady

variable {past : List (Tick β)} {b : InoutBuffer β}

theorem run_settled (run : (circuit β).Run past b) : b.Settled := by
  cases run with
  | reset start =>
    intro full
    rw [start.1] at full
    cases full
  | tick run i => exact settled_posedge true _ _ _ _

theorem run_conserve (run : (circuit β).Run past b) :
    past.flatMap outAccepted ++ b.held = past.flatMap inAccepted := by
  refine run.conserve held ?_ ?_
  · rintro b ⟨ready, valid⟩
    simp [held, OutputBuffer.held, InputBuffer.held, ready, valid]
  · intro b i
    exact b.taken_append_held i.inData i.inValid i.outReady

theorem held_length (b : InoutBuffer β) :
    b.held.length = b.outValid.toNat + (!b.inReady).toNat := by
  rw [held, List.length_append, OutputBuffer.held, InputBuffer.held, beat_length, beat_length]
  rfl

theorem held_length_le (b : InoutBuffer β) : b.held.length ≤ 2 := by
  rw [held_length]
  have out := Bool.toNat_le b.outValid
  have kept := Bool.toNat_le (!b.inReady)
  omega

theorem inReady_iff (settled : b.Settled) : b.inReady = true ↔ b.held.length < 2 := by
  rw [held_length]
  cases ready : b.inReady with
  | true =>
    have out := Bool.toNat_le b.outValid
    simp only [Bool.not_true, Bool.toNat_false, true_iff]
    omega
  | false => simp [settled ready]

theorem head_held (settled : b.Settled) :
    b.held.head? = if b.outValid then some b.outData else none := by
  cases valid : b.outValid with
  | true =>
    rw [held_of_outValid valid]
    rfl
  | false =>
    have empty : b.held = [] := by
      by_contra some
      rw [outValid_of_held settled some] at valid
      cases valid
    rw [empty]
    rfl

theorem held_unready (unready : b.inReady = false) (i : BufferPins β) :
    b.taken i.outReady ++ (b.posedge true i.inData i.inValid i.outReady).held = b.held := by
  rw [taken_append_held, put, unready, Bool.and_false, beat_false, List.append_nil]

/-- A queue of two places: what has left and what is held is what came in, in order. The input
is ready while a place is free, and nothing held is lost while it is not; the first word held
is offered until it is taken. -/
theorem run_queue (run : (circuit β).Run past b) :
    past.flatMap outAccepted ++ b.held = past.flatMap inAccepted ∧
    b.held.length ≤ 2 ∧
    (b.inReady = true ↔ b.held.length < 2) ∧
    (b.held.head? = if b.outValid then some b.outData else none) ∧
    ∀ i : BufferPins β,
      (b.inReady = false →
        b.taken i.outReady ++ ((circuit β).tick b i).held = b.held) ∧
      (b.outValid = true → i.outReady = false →
        ((circuit β).tick b i).outValid = true ∧
          ((circuit β).tick b i).outData = b.outData) := by
  have settled := run_settled run
  refine ⟨run_conserve run, held_length_le b, inReady_iff settled, head_held settled, fun i => ?_⟩
  refine ⟨fun unready => held_unready unready i, fun valid stalled => ?_⟩
  have next := posedge_stalled i.inData i.inValid valid
  rwa [← stalled] at next

def empty : InoutBuffer Nat := ⟨⟨0, true⟩, ⟨0, false⟩⟩

theorem empty_reset : (circuit Nat).Reset empty := ⟨rfl, rfl⟩

/-- Four words offered to a side that takes none before the fourth clock. -/
def stalls : List (BufferPins Nat) :=
  [⟨5, true, false⟩, ⟨6, true, false⟩, ⟨7, true, false⟩, ⟨7, true, true⟩]

theorem run_queue_stalls :
    ((circuit Nat).trace empty stalls).flatMap outAccepted ++ [6] =
      ((circuit Nat).trace empty stalls).flatMap inAccepted :=
  (run_queue (run_trace empty_reset stalls)).1

end InoutBuffer

end Switcheck
