import Mathlib.Algebra.Group.Nat.Defs
import Mathlib.Logic.Function.Basic
import Switcheck.Sync.Circuit

/-!
# The CMA driver

`/dev/cma` keeps one buffer in module-wide variables, whichever file asked for it. The driver is
run one call a tick; the kernel's answers (what `copy_from_user` read, what
`dma_alloc_coherent` returned) come with the call.
-/

namespace Switcheck

open Sync

/-- The arguments of `dma_free_coherent` and `dma_mmap_coherent`. -/
structure DmaRegion where
  cpuAddr : BitVec 32
  dmaAddr : BitVec 32
  dmaSize : BitVec 32
  deriving DecidableEq

/-- The module-wide variables of `cma.c`. -/
structure Cma where
  dmaSize : BitVec 32
  cpuAddr : BitVec 32
  dmaAddr : BitVec 32

/-- An `ioctl` and the kernel's answers in it. `fromUser` and `toUser` are the bytes not copied. -/
structure CmaIoctl where
  cmd : BitVec 32
  fromUser : Nat
  buffer : BitVec 32
  cpuAddr : BitVec 32
  dmaAddr : BitVec 32
  toUser : Nat

inductive CmaCall (File : Type) where
  | ioctl (file : File) (io : CmaIoctl)
  | mmap (file : File) (rc : Int)
  | release (file : File)

/-- The variables after a call, what it frees and maps, and what it returns. -/
structure CmaOutcome where
  state : Cma
  freed : Option DmaRegion
  mapped : Option DmaRegion
  rc : Int

namespace Cma

/-- `_IOWR('Z', 0, u32)`. -/
def cmaAlloc : BitVec 32 := 0xc0045a00

def isErrOrNull (p : BitVec 32) : Bool := p == 0 || decide (2 ^ 32 - 4095 ≤ p.toNat)

def region (s : Cma) : DmaRegion := ⟨s.cpuAddr, s.dmaAddr, s.dmaSize⟩

def held (s : Cma) : Option DmaRegion := if s.cpuAddr = 0 then none else some s.region

def cmaFree (s : Cma) : Cma × Option DmaRegion :=
  if s.cpuAddr = 0 then (s, none) else ({ s with cpuAddr := 0 }, some s.region)

def cmaIoctl (s : Cma) (io : CmaIoctl) : CmaOutcome :=
  if io.cmd ≠ cmaAlloc then ⟨s, none, none, -25⟩
  else if io.fromUser ≠ 0 then ⟨s, none, none, io.fromUser⟩
  else
    let (s, freed) := s.cmaFree
    let s := { s with dmaSize := io.buffer, cpuAddr := io.cpuAddr, dmaAddr := io.dmaAddr }
    if isErrOrNull s.cpuAddr then
      let rc := s.cpuAddr.toInt
      ⟨{ s with cpuAddr := 0 }, freed, none, if rc = 0 then -12 else rc⟩
    else ⟨s, freed, none, io.toUser⟩

def cmaMmap (s : Cma) (rc : Int) : CmaOutcome :=
  ⟨s, none, if rc = 0 then some s.region else none, rc⟩

def cmaRelease (s : Cma) : CmaOutcome :=
  let (s, freed) := s.cmaFree
  ⟨s, freed, none, 0⟩

variable {File : Type}

def call (s : Cma) : CmaCall File → CmaOutcome
  | .ioctl _ io => s.cmaIoctl io
  | .mmap _ rc => s.cmaMmap rc
  | .release _ => s.cmaRelease

def circuit (File : Type) : Circuit Cma (CmaCall File) where
  Reset s := s = ⟨0, 0, 0⟩
  tick s c := (s.call c).state

abbrev Step (File : Type) := Clock Cma (CmaCall File)

def outcome (c : Step File) : CmaOutcome := c.regs.call c.pins

end Cma

def CmaCall.file {File : Type} : CmaCall File → File
  | .ioctl file _ => file
  | .mmap file _ => file
  | .release file => file

/-- The `ioctl` reaches `cma_free` and `dma_alloc_coherent`. -/
def CmaIoctl.allocates (io : CmaIoctl) : Bool := io.cmd == Cma.cmaAlloc && io.fromUser == 0

/-- What `dma_alloc_coherent` made of the `ioctl`. -/
def CmaIoctl.region (io : CmaIoctl) : DmaRegion := ⟨io.cpuAddr, io.dmaAddr, io.buffer⟩

/-! ### What one call does -/

namespace Cma

variable {File : Type} {s : Cma} {io : CmaIoctl}

theorem cmaFree_freed (s : Cma) : s.cmaFree.2 = s.held := by
  unfold cmaFree held
  split <;> rfl

theorem cmaFree_held (s : Cma) : s.cmaFree.1.held = none := by
  unfold cmaFree
  split
  · rename_i empty
    exact if_pos empty
  · exact if_pos rfl

theorem cmaIoctl_refused (refused : io.allocates = false) :
    (s.cmaIoctl io).state = s ∧ (s.cmaIoctl io).freed = none ∧ (s.cmaIoctl io).mapped = none ∧
      (s.cmaIoctl io).rc ≠ 0 := by
  unfold cmaIoctl
  by_cases cmd : io.cmd = cmaAlloc
  · have unread : io.fromUser ≠ 0 := by simpa [CmaIoctl.allocates, cmd] using refused
    rw [if_neg (not_not_intro cmd), if_pos unread]
    exact ⟨rfl, rfl, rfl, Int.natCast_ne_zero.mpr unread⟩
  · rw [if_pos cmd]
    exact ⟨rfl, rfl, rfl, (by decide : (-25 : Int) ≠ 0)⟩

theorem cmaIoctl_allocates (allocates : io.allocates = true) :
    (s.cmaIoctl io).freed = s.held ∧ (s.cmaIoctl io).mapped = none ∧
    (s.cmaIoctl io).state.held = (if isErrOrNull io.cpuAddr then none else some io.region) ∧
    ((s.cmaIoctl io).rc = 0 ↔ isErrOrNull io.cpuAddr = false ∧ io.toUser = 0) := by
  obtain ⟨cmd, read⟩ := (Bool.and_eq_true _ _).mp allocates
  have cmd' : io.cmd = cmaAlloc := by simpa using cmd
  have read' : io.fromUser = 0 := by simpa using read
  unfold cmaIoctl
  rw [if_neg (not_not_intro cmd'), if_neg (not_not_intro read')]
  dsimp only
  cases error : isErrOrNull io.cpuAddr with
  | true =>
    rw [if_pos rfl]
    refine ⟨cmaFree_freed s, rfl, if_pos rfl, iff_of_false ?_ fun ⟨ok, _⟩ => by cases ok⟩
    dsimp only
    split
    · decide
    · assumption
  | false =>
    have some : io.cpuAddr ≠ 0 := by
      rintro null
      simp [isErrOrNull, null] at error
    rw [if_neg Bool.false_ne_true]
    exact ⟨cmaFree_freed s, rfl, if_neg some, by simp⟩

theorem outcome_freed (s : Cma) (c : CmaCall File) :
    (s.call c).freed = none ∨ (s.call c).freed = s.held := by
  cases c with
  | ioctl file io =>
    cases allocates : io.allocates with
    | false => exact Or.inl (cmaIoctl_refused allocates).2.1
    | true => exact Or.inr (cmaIoctl_allocates allocates).1
  | mmap file rc => exact Or.inl rfl
  | release file => exact Or.inr (cmaFree_freed s)

theorem held_eq {r : DmaRegion} (held : s.held = some r) : r = s.region := by
  unfold Cma.held at held
  split at held
  · cases held
  · exact (Option.some.inj held).symm

theorem outcome_mapped {c : CmaCall File} {r : DmaRegion} (mapped : (s.call c).mapped = some r) :
    r = s.region := by
  cases c with
  | ioctl file io =>
    cases allocates : io.allocates with
    | false => exact absurd ((cmaIoctl_refused allocates).2.2.1.symm.trans mapped) (by simp)
    | true => exact absurd ((cmaIoctl_allocates allocates).2.1.symm.trans mapped) (by simp)
  | mmap file rc =>
    simp only [call, cmaMmap] at mapped
    split at mapped
    · exact (Option.some.inj mapped).symm
    · cases mapped
  | release file => cases mapped

end Cma

end Switcheck
