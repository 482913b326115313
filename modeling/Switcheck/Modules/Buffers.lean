import Mathlib.Data.List.Basic

/-!
# Handshake buffers

`input_buffer`, `output_buffer` and their composition `inout_buffer`. Each is a queue of one
or two places between two ready/valid ports: what it hands on and what it keeps are what it
held and what it took in, in order.
-/

namespace Switcheck

variable {β : Type}

/-- The word of a port that transfers in this clock, if one does. -/
def beat (fires : Bool) (data : β) : List β := if fires then [data] else []

@[simp] theorem beat_true (data : β) : beat true data = [data] := rfl

@[simp] theorem beat_false (data : β) : beat false data = [] := rfl

theorem beat_length (fires : Bool) (data : β) : (beat fires data).length = fires.toNat := by
  cases fires <;> rfl

theorem beat_eq_nil {fires : Bool} {data : β} : beat fires data = [] ↔ fires = false := by
  cases fires <;> simp

theorem beat_eq_singleton {fires : Bool} {data word : β} :
    beat fires data = [word] ↔ fires = true ∧ data = word := by
  cases fires <;> simp

theorem map_beat {γ : Type} (f : β → γ) (fires : Bool) (data : β) :
    (beat fires data).map f = beat fires (f data) := by
  cases fires <;> rfl

/-! ### `output_buffer` -/

structure OutputBuffer (β : Type) where
  intDataReg : β
  intValidReg : Bool
  deriving DecidableEq

namespace OutputBuffer

/-- `int_ready_wire`, which is also `in_ready`. -/
def inReady (b : OutputBuffer β) (outReady : Bool) : Bool := !b.intValidReg || outReady

def posedge (aresetn : Bool) (b : OutputBuffer β) (inData : β) (inValid outReady : Bool) :
    OutputBuffer β where
  intValidReg :=
    if !aresetn then false
    else if b.inReady outReady then inValid
    else b.intValidReg
  intDataReg := if b.inReady outReady then inData else b.intDataReg

def held (b : OutputBuffer β) : List β := beat b.intValidReg b.intDataReg

def taken (b : OutputBuffer β) (outReady : Bool) : List β :=
  beat (b.intValidReg && outReady) b.intDataReg

def put (b : OutputBuffer β) (inData : β) (inValid outReady : Bool) : List β :=
  beat (inValid && b.inReady outReady) inData

theorem held_posedge_reset (b : OutputBuffer β) (d : β) (v r : Bool) :
    (b.posedge false d v r).held = [] := rfl

theorem taken_append_held (b : OutputBuffer β) (d : β) (v r : Bool) :
    b.taken r ++ (b.posedge true d v r).held = b.held ++ b.put d v r := by
  obtain ⟨data, valid⟩ := b
  cases valid <;> cases r <;> cases v <;> rfl

theorem inReady_of_empty (b : OutputBuffer β) {outReady : Bool} (empty : b.held = []) :
    b.inReady outReady = true := by
  cases valid : b.intValidReg with
  | false => simp [inReady, valid]
  | true => simp [held, valid] at empty

theorem posedge_ready {b : OutputBuffer β} {outReady : Bool} (ready : b.inReady outReady = true)
    (d : β) (v : Bool) : b.posedge true d v outReady = ⟨d, v⟩ := by
  simp [posedge, ready]

theorem posedge_stalled {b : OutputBuffer β} {outReady : Bool} (full : b.inReady outReady = false)
    (d : β) (v : Bool) : b.posedge true d v outReady = b := by
  simp [posedge, full]

theorem inReady_eq_false {b : OutputBuffer β} {outReady : Bool} :
    b.inReady outReady = false ↔ b.intValidReg = true ∧ outReady = false := by
  unfold inReady
  cases b.intValidReg <;> simp

theorem held_length_le (b : OutputBuffer β) : b.held.length ≤ 1 := by
  rw [held, beat_length]
  exact Bool.toNat_le _

theorem valid_of_held_eq {b c : OutputBuffer β} (same : b.held = c.held) :
    b.intValidReg = c.intValidReg := by
  have lengths := congrArg List.length same
  rw [held, held, beat_length, beat_length] at lengths
  cases valid : b.intValidReg <;> cases valid' : c.intValidReg <;> simp [valid, valid'] at lengths ⊢

/-- What a buffer holds decides what it will hold. -/
theorem held_posedge_congr {b c : OutputBuffer β} (same : b.held = c.held) (d : β) (v r : Bool) :
    (b.posedge true d v r).held = (c.posedge true d v r).held := by
  obtain ⟨data, valid⟩ := b
  obtain ⟨data', valid'⟩ := c
  obtain rfl : valid = valid' := valid_of_held_eq same
  cases valid with
  | false => rfl
  | true =>
    cases r with
    | true => rfl
    | false => exact same

end OutputBuffer

/-! ### `input_buffer` -/

structure InputBuffer (β : Type) where
  intDataReg : β
  intReadyReg : Bool

namespace InputBuffer

/-- `int_valid_wire`, which is also `out_valid`. -/
def outValid (b : InputBuffer β) (inValid : Bool) : Bool := !b.intReadyReg || inValid

def outData (b : InputBuffer β) (inData : β) : β := if b.intReadyReg then inData else b.intDataReg

def posedge (aresetn : Bool) (b : InputBuffer β) (inData : β) (inValid outReady : Bool) :
    InputBuffer β where
  intReadyReg :=
    if !aresetn then true
    else if b.outValid inValid then outReady
    else b.intReadyReg
  intDataReg := if b.intReadyReg then inData else b.intDataReg

def held (b : InputBuffer β) : List β := beat (!b.intReadyReg) b.intDataReg

def taken (b : InputBuffer β) (inData : β) (inValid outReady : Bool) : List β :=
  beat (b.outValid inValid && outReady) (b.outData inData)

def put (b : InputBuffer β) (inData : β) (inValid : Bool) : List β :=
  beat (inValid && b.intReadyReg) inData

theorem taken_append_held (b : InputBuffer β) (d : β) (v r : Bool) :
    b.taken d v r ++ (b.posedge true d v r).held = b.held ++ b.put d v := by
  obtain ⟨data, ready⟩ := b
  cases ready <;> cases v <;> cases r <;> rfl

end InputBuffer

/-! ### `inout_buffer` -/

structure InoutBuffer (β : Type) where
  buf0 : InputBuffer β
  buf1 : OutputBuffer β

namespace InoutBuffer

def inReady (b : InoutBuffer β) : Bool := b.buf0.intReadyReg

def outValid (b : InoutBuffer β) : Bool := b.buf1.intValidReg

def outData (b : InoutBuffer β) : β := b.buf1.intDataReg

def posedge (aresetn : Bool) (b : InoutBuffer β) (inData : β) (inValid outReady : Bool) :
    InoutBuffer β where
  buf0 := b.buf0.posedge aresetn inData inValid (b.buf1.inReady outReady)
  buf1 := b.buf1.posedge aresetn (b.buf0.outData inData) (b.buf0.outValid inValid) outReady

/-- The words held, the next to leave first. -/
def held (b : InoutBuffer β) : List β := b.buf1.held ++ b.buf0.held

def taken (b : InoutBuffer β) (outReady : Bool) : List β := beat (b.outValid && outReady) b.outData

def put (b : InoutBuffer β) (inData : β) (inValid : Bool) : List β :=
  beat (inValid && b.inReady) inData

theorem taken_append_held (b : InoutBuffer β) (d : β) (v r : Bool) :
    b.taken r ++ (b.posedge true d v r).held = b.held ++ b.put d v := by
  have stage0 := b.buf0.taken_append_held d v (b.buf1.inReady r)
  have stage1 := b.buf1.taken_append_held (b.buf0.outData d) (b.buf0.outValid v) r
  calc b.taken r ++ (b.posedge true d v r).held
      = (b.buf1.taken r ++ (b.posedge true d v r).buf1.held) ++ (b.posedge true d v r).buf0.held :=
        (List.append_assoc ..).symm
    _ = b.buf1.held ++ (b.buf0.taken d v (b.buf1.inReady r) ++ (b.posedge true d v r).buf0.held) := by
        rw [posedge, stage1, List.append_assoc]
        rfl
    _ = b.held ++ b.put d v := by
        rw [posedge, stage0, ← List.append_assoc]
        rfl

/-- With an output buffer before it. -/
theorem taken_append_held_stage (b : InoutBuffer β) (stage : OutputBuffer β) (d : β) (v r : Bool) :
    b.taken r ++ ((b.posedge true stage.intDataReg stage.intValidReg r).held ++
        (stage.posedge true d v b.inReady).held) =
      b.held ++ stage.held ++ stage.put d v b.inReady := by
  have front := b.taken_append_held stage.intDataReg stage.intValidReg r
  have back := stage.taken_append_held d v b.inReady
  calc b.taken r ++ ((b.posedge true stage.intDataReg stage.intValidReg r).held ++
          (stage.posedge true d v b.inReady).held)
      = b.held ++ (stage.taken b.inReady ++ (stage.posedge true d v b.inReady).held) := by
        rw [← List.append_assoc, front, List.append_assoc]
        rfl
    _ = b.held ++ stage.held ++ stage.put d v b.inReady := by
        rw [back, ← List.append_assoc]

theorem posedge_stalled {b : InoutBuffer β} (d : β) (v : Bool) (valid : b.outValid = true) :
    (b.posedge true d v false).outValid = true ∧ (b.posedge true d v false).outData = b.outData := by
  have full : b.buf1.intValidReg = true := valid
  simp [outValid, outData, posedge, OutputBuffer.posedge, OutputBuffer.inReady, full]

/-- A word is kept in the input stage only behind one in the output stage. -/
def Settled (b : InoutBuffer β) : Prop := b.buf0.intReadyReg = false → b.outValid = true

theorem settled_posedge (aresetn : Bool) (b : InoutBuffer β) (d : β) (v r : Bool) :
    (b.posedge aresetn d v r).Settled := by
  obtain ⟨⟨-, ready⟩, ⟨-, valid⟩⟩ := b
  cases aresetn <;> cases ready <;> cases valid <;> cases v <;> cases r <;>
    simp [Settled, posedge, outValid, InputBuffer.posedge, OutputBuffer.posedge,
      InputBuffer.outValid, OutputBuffer.inReady]

theorem outValid_of_held {b : InoutBuffer β} (settled : b.Settled) (some : b.held ≠ []) :
    b.outValid = true := by
  by_contra idle
  have out : b.buf1.intValidReg = false := by simpa [outValid] using idle
  cases ready : b.buf0.intReadyReg with
  | true => simp [held, OutputBuffer.held, InputBuffer.held, out, ready] at some
  | false => exact idle (settled ready)

theorem held_of_outValid {b : InoutBuffer β} (valid : b.outValid = true) :
    b.held = b.outData :: b.buf0.held := by
  simp only [outValid] at valid
  simp [held, OutputBuffer.held, valid, outData]

end InoutBuffer

end Switcheck
