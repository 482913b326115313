import Mathlib.Data.BitVec
import Switcheck.Modules.Buffers

/-! A synchronous RAM: its output register answers one clock after it is addressed, and keeps its
word while the RAM is not enabled. -/

namespace Switcheck

/-- What a write does to the output of a block RAM. -/
inductive WriteMode where
  | writeFirst
  | readFirst
  | noChange
  deriving DecidableEq

structure SyncRam (w : Nat) (β : Type) where
  mem : BitVec w → β
  dout : β

namespace SyncRam

variable {w : Nat} {β : Type}

def written (mode : WriteMode) (r : SyncRam w β) (addr : BitVec w) (din : β) : β :=
  match mode with
  | .writeFirst => din
  | .readFirst => r.mem addr
  | .noChange => r.dout

def posedge (mode : WriteMode) (r : SyncRam w β) (en we : Bool) (addr : BitVec w) (din : β) :
    SyncRam w β where
  mem a := if en && we && a == addr then din else r.mem a
  dout := if !en then r.dout else if we then r.written mode addr din else r.mem addr

theorem posedge_read (mode : WriteMode) (r : SyncRam w β) (en : Bool) (addr : BitVec w) (din : β) :
    r.posedge mode en false addr din = ⟨r.mem, if en then r.mem addr else r.dout⟩ := by
  cases en <;> simp [posedge]

theorem posedge_write (mode : WriteMode) (r : SyncRam w β) (addr a : BitVec w) (din : β) :
    (r.posedge mode true true addr din).mem a = if a = addr then din else r.mem a := by
  simp [posedge]

/-- The output register of the RAM with a buffer that is ready when the RAM is read, as one buffer. -/
def stage {α γ : Type} (f : α → β → γ) (r : SyncRam w β) (b : OutputBuffer α) : OutputBuffer γ :=
  ⟨f b.intDataReg r.dout, b.intValidReg⟩

theorem stage_posedge {α γ : Type} (f : α → β → γ) (mode : WriteMode) (r : SyncRam w β)
    (b : OutputBuffer α) (d : α) (v ready : Bool) (addr : BitVec w) (din : β) :
    (r.posedge mode (b.inReady ready) false addr din).stage f (b.posedge true d v ready) =
      (r.stage f b).posedge true (f d (r.mem addr)) v ready := by
  have same : (r.stage f b).inReady ready = b.inReady ready := rfl
  rw [posedge_read]
  cases free : b.inReady ready with
  | true =>
    rw [OutputBuffer.posedge_ready (same.trans free), OutputBuffer.posedge_ready free]
    rfl
  | false =>
    rw [OutputBuffer.posedge_stalled (same.trans free), OutputBuffer.posedge_stalled free]
    rfl

end SyncRam

end Switcheck
