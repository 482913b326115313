import Switcheck.Driver.Cma

/-!
# Whose buffer it is

The driver does not look at the file a call comes through. The ledger keeps, from the calls
alone, which file the allocated buffer was made for, what each file was given and what it still
uses.
-/

namespace Switcheck

open Sync Circuit

/-- A buffer, by the call that made it: two of them may have the same addresses. -/
structure CmaBuffer (File : Type) where
  made : Nat
  file : File
  region : DmaRegion
  delivered : Bool
  deriving DecidableEq

structure CmaLedger (File : Type) where
  calls : Nat
  live : Option (CmaBuffer File)
  /-- By the last `CMA_ALLOC` of the file that succeeded. -/
  returned : File → Option (CmaBuffer File)
  /-- Returned to the file or mapped through it since it last allocated. -/
  inUse : File → List (CmaBuffer File)

namespace Cma

variable {File : Type} [DecidableEq File]

def nextLedger (l : CmaLedger File) (c : Step File) : CmaLedger File :=
  match c.pins with
  | .ioctl file io =>
    if io.allocates then
      let b : CmaBuffer File := ⟨l.calls, file, io.region, io.toUser == 0⟩
      { calls := l.calls + 1
        live := if isErrOrNull io.cpuAddr then none else some b
        returned :=
          if (outcome c).rc = 0 then Function.update l.returned file (some b) else l.returned
        inUse := Function.update l.inUse file (if (outcome c).rc = 0 then [b] else []) }
    else { l with calls := l.calls + 1 }
  | .mmap file rc =>
    { l with
      calls := l.calls + 1
      inUse :=
        if rc = 0 then Function.update l.inUse file (l.live.toList ++ l.inUse file) else l.inUse }
  | .release file =>
    { calls := l.calls + 1
      live := none
      returned := Function.update l.returned file none
      inUse := Function.update l.inUse file [] }

def ledger (past : List (Step File)) : CmaLedger File :=
  past.foldl nextLedger ⟨0, none, fun _ => none, fun _ => []⟩

theorem ledger_snoc (past : List (Step File)) (c : Step File) :
    ledger (past ++ [c]) = nextLedger (ledger past) c := by
  simp [ledger]

/-- A call frees no buffer another file uses, and maps the buffer its own file was given. -/
structure Protected (before : List (Step File)) (c : Step File) : Prop where
  frees : ∀ r ∈ (outcome c).freed, ∀ file ≠ c.pins.file,
    ∀ b ∈ (ledger before).inUse file, b.region ≠ r
  maps : ∀ r ∈ (outcome c).mapped, ∃ b, (ledger before).returned c.pins.file = some b ∧
    (ledger before).live = some b ∧ b.region = r

/-- While a buffer is allocated, only the file it was made for frees it, and only that file, given
its address, maps it. -/
structure OwnCall (before : List (Step File)) (c : Step File) : Prop where
  frees : (outcome c).freed ≠ none → ∀ b, (ledger before).live = some b → b.delivered = true →
    b.file = c.pins.file
  maps : (outcome c).mapped ≠ none → ∃ b, (ledger before).live = some b ∧ b.delivered = true ∧
    b.file = c.pins.file

instance (before : List (Step File)) (c : Step File) : Decidable (OwnCall before c) :=
  decidable_of_iff (((outcome c).freed ≠ none → (ledger before).live.all
      (fun b => decide (b.delivered = true → b.file = c.pins.file)) = true) ∧
    ((outcome c).mapped ≠ none → (ledger before).live.any
      (fun b => decide (b.delivered = true ∧ b.file = c.pins.file)) = true)) <| by
    simp only [Option.all_eq_true, Option.any_eq_true, decide_eq_true_eq]
    exact ⟨fun ⟨frees, maps⟩ => ⟨frees, maps⟩, fun ⟨frees, maps⟩ => ⟨frees, maps⟩⟩

variable {past : List (Step File)} {s : Cma}

structure LedgerInv (past : List (Step File)) (s : Cma) : Prop where
  held : s.held = (ledger past).live.map CmaBuffer.region
  live : ∀ b, (ledger past).live = some b → b.delivered = true →
    (ledger past).returned b.file = some b ∧ b ∈ (ledger past).inUse b.file
  returned : ∀ file b, (ledger past).returned file = some b →
    b.file = file ∧ b.delivered = true

/-- What the files use is the buffer allocated, each its own. -/
def OnlyOwner (past : List (Step File)) : Prop :=
  ∀ file, ∀ b ∈ (ledger past).inUse file,
    (ledger past).live = some b ∧ b.file = file ∧ b.delivered = true

theorem ledgerInv_start : LedgerInv ([] : List (Step File)) ⟨0, 0, 0⟩ := by
  refine ⟨rfl, ?_, ?_⟩
  · rintro b ⟨⟩
  · rintro file b ⟨⟩

/-! ### The ledger after one call -/

section Calls

variable {file : File} {io : CmaIoctl} {rc : Int}

theorem ledger_refused (past : List (Step File)) (s : Cma) (file : File)
    (refused : io.allocates = false) :
    ledger (past ++ [⟨s, .ioctl file io⟩]) =
      { ledger past with calls := (ledger past).calls + 1 } := by
  rw [ledger_snoc, nextLedger]
  dsimp only
  rw [refused, if_neg Bool.false_ne_true]

theorem ledger_allocates (past : List (Step File)) (s : Cma) (file : File)
    (allocates : io.allocates = true) :
    let b : CmaBuffer File := ⟨(ledger past).calls, file, io.region, io.toUser == 0⟩
    ledger (past ++ [⟨s, .ioctl file io⟩]) =
      { calls := (ledger past).calls + 1
        live := if isErrOrNull io.cpuAddr then none else some b
        returned := if (s.cmaIoctl io).rc = 0 then
          Function.update (ledger past).returned file (some b) else (ledger past).returned
        inUse := Function.update (ledger past).inUse file
          (if (s.cmaIoctl io).rc = 0 then [b] else []) } := by
  rw [ledger_snoc]
  exact if_pos allocates

theorem ledger_mmap : ledger (past ++ [⟨s, .mmap file rc⟩]) =
    { ledger past with
      calls := (ledger past).calls + 1
      inUse := if rc = 0 then Function.update (ledger past).inUse file
        ((ledger past).live.toList ++ (ledger past).inUse file) else (ledger past).inUse } := by
  rw [ledger_snoc, nextLedger]

theorem ledger_release : ledger (past ++ [⟨s, .release file⟩]) =
    { calls := (ledger past).calls + 1
      live := none
      returned := Function.update (ledger past).returned file none
      inUse := Function.update (ledger past).inUse file [] } := by
  rw [ledger_snoc, nextLedger]

theorem ledgerInv_refused (inv : LedgerInv past s) (refused : io.allocates = false) :
    LedgerInv (past ++ [⟨s, .ioctl file io⟩]) (s.cmaIoctl io).state := by
  obtain ⟨state, -⟩ := cmaIoctl_refused (s := s) refused
  have same := ledger_refused past s file refused
  refine ⟨?_, ?_, ?_⟩
  · rw [state, same]
    exact inv.held
  · rw [same]
    exact inv.live
  · rw [same]
    exact inv.returned

theorem ledgerInv_allocates (inv : LedgerInv past s) (allocates : io.allocates = true) :
    LedgerInv (past ++ [⟨s, .ioctl file io⟩]) (s.cmaIoctl io).state := by
  obtain ⟨-, -, held, success⟩ := cmaIoctl_allocates (s := s) allocates
  have next := ledger_allocates past s file allocates
  refine ⟨?_, ?_, ?_⟩
  · rw [held, next]
    cases isErrOrNull io.cpuAddr <;> rfl
  · intro b live delivered
    rw [next] at live ⊢
    cases error : isErrOrNull io.cpuAddr with
    | true => simp [error] at live
    | false =>
      obtain rfl : _ = b := by simpa [error] using live
      have ok : (s.cmaIoctl io).rc = 0 := success.mpr ⟨error, by simpa using delivered⟩
      simp [ok]
  · intro file' b given
    rw [next] at given
    by_cases ok : (s.cmaIoctl io).rc = 0
    · rw [if_pos ok] at given
      by_cases same : file' = file
      · subst same
        obtain rfl : _ = b := by simpa using given
        exact ⟨rfl, by simpa using (success.mp ok).2⟩
      · exact inv.returned file' b (by simpa [Function.update_of_ne same] using given)
    · exact inv.returned file' b (by simpa [ok] using given)

theorem ledgerInv_mmap (inv : LedgerInv past s) :
    LedgerInv (past ++ [⟨s, .mmap file rc⟩]) s := by
  refine ⟨?_, ?_, ?_⟩
  · rw [ledger_mmap]
    exact inv.held
  · intro b live delivered
    rw [ledger_mmap] at live ⊢
    obtain ⟨given, member⟩ := inv.live b live delivered
    refine ⟨given, ?_⟩
    by_cases ok : rc = 0
    · by_cases same : b.file = file
      · subst same
        simp [ok, member]
      · simp [ok, Function.update_of_ne same, member]
    · simpa [ok] using member
  · rw [ledger_mmap]
    exact inv.returned

theorem ledgerInv_release (inv : LedgerInv past s) :
    LedgerInv (past ++ [⟨s, .release file⟩]) s.cmaRelease.state := by
  refine ⟨?_, ?_, ?_⟩
  · rw [ledger_release]
    exact cmaFree_held s
  · rw [ledger_release]
    rintro b ⟨⟩
  · intro file' b given
    rw [ledger_release] at given
    by_cases same : file' = file
    · simp [same] at given
    · exact inv.returned file' b (by simpa [Function.update_of_ne same] using given)

end Calls

theorem run_ledgerInv (run : (circuit File).Run past s) : LedgerInv past s := by
  induction run with
  | reset start =>
    rw [show _ = _ from start]
    exact ledgerInv_start
  | tick _ c inv =>
    cases c with
    | ioctl file io =>
      cases allocates : io.allocates with
      | false => exact ledgerInv_refused inv allocates
      | true => exact ledgerInv_allocates inv allocates
    | mmap file rc => exact ledgerInv_mmap inv
    | release file => exact ledgerInv_release inv

/-! ### Only the owner's calls -/

section Owner

variable {file : File} {io : CmaIoctl} {rc : Int} {c : CmaCall File}

theorem held_of_live (inv : LedgerInv past s) {b : CmaBuffer File}
    (live : (ledger past).live = some b) : s.held = some b.region := by
  rw [inv.held, live]
  rfl

/-- Whoever frees the buffer under the condition is the only one who uses it. -/
theorem OnlyOwner.not_other (only : OnlyOwner past) (inv : LedgerInv past s)
    (own : OwnCall past ⟨s, c⟩) (frees : (s.call c).freed = s.held) {file' : File}
    (other : file' ≠ c.file) : (ledger past).inUse file' = [] := by
  refine List.eq_nil_iff_forall_not_mem.mpr fun b member => ?_
  obtain ⟨live, ours, delivered⟩ := only file' b member
  have some : (outcome ⟨s, c⟩).freed ≠ none := by
    rw [outcome, frees, held_of_live inv live]
    exact Option.some_ne_none _
  exact other (ours.symm.trans (own.frees some b live delivered))

theorem onlyOwner_refused (only : OnlyOwner past) (refused : io.allocates = false) :
    OnlyOwner (past ++ [⟨s, .ioctl file io⟩]) := by
  rw [OnlyOwner, ledger_refused past s file refused]
  exact only

theorem onlyOwner_allocates (only : OnlyOwner past) (inv : LedgerInv past s)
    (own : OwnCall past ⟨s, .ioctl file io⟩) (allocates : io.allocates = true) :
    OnlyOwner (past ++ [⟨s, .ioctl file io⟩]) := by
  obtain ⟨frees, -, -, success⟩ := cmaIoctl_allocates (s := s) allocates
  intro file' b member
  rw [ledger_allocates past s file allocates] at member ⊢
  dsimp only at member ⊢
  by_cases same : file' = file
  · subst same
    rw [Function.update_self] at member
    by_cases ok : (s.cmaIoctl io).rc = 0
    · obtain ⟨valid, copied⟩ := success.mp ok
      rw [if_pos ok] at member
      obtain rfl := List.mem_singleton.mp member
      exact ⟨by simp [valid], rfl, by simpa using copied⟩
    · rw [if_neg ok] at member
      cases member
  · rw [Function.update_of_ne same, only.not_other inv own frees same] at member
    cases member

theorem onlyOwner_mmap (only : OnlyOwner past) (own : OwnCall past ⟨s, .mmap file rc⟩) :
    OnlyOwner (past ++ [⟨s, .mmap file rc⟩]) := by
  intro file' b member
  rw [ledger_mmap] at member ⊢
  dsimp only at member ⊢
  by_cases ok : rc = 0
  · rw [if_pos ok] at member
    by_cases same : file' = file
    · subst same
      rw [Function.update_self] at member
      rcases List.mem_append.mp member with now | before
      · have maps : (outcome (⟨s, .mmap file' rc⟩ : Step File)).mapped ≠ none := by
          simp [outcome, call, cmaMmap, ok]
        obtain ⟨b', live, delivered, ours⟩ := own.maps maps
        rw [live, Option.toList_some] at now
        obtain rfl := List.mem_singleton.mp now
        exact ⟨live, ours, delivered⟩
      · exact only file' b before
    · rw [Function.update_of_ne same] at member
      exact only file' b member
  · rw [if_neg ok] at member
    exact only file' b member

theorem onlyOwner_release (only : OnlyOwner past) (inv : LedgerInv past s)
    (own : OwnCall past ⟨s, .release file⟩) : OnlyOwner (past ++ [⟨s, .release file⟩]) := by
  intro file' b member
  rw [ledger_release] at member ⊢
  dsimp only at member ⊢
  by_cases same : file' = file
  · rw [same, Function.update_self] at member
    cases member
  · rw [Function.update_of_ne same, only.not_other inv own (cmaFree_freed s) same] at member
    cases member

theorem onlyOwner_step (only : OnlyOwner past) (inv : LedgerInv past s)
    (own : OwnCall past ⟨s, c⟩) : OnlyOwner (past ++ [⟨s, c⟩]) := by
  cases c with
  | ioctl file io =>
    cases allocates : io.allocates with
    | false => exact onlyOwner_refused only allocates
    | true => exact onlyOwner_allocates only inv own allocates
  | mmap file rc => exact onlyOwner_mmap only own
  | release file => exact onlyOwner_release only inv own

/-! ### Protection -/

theorem protected_of_own (inv : LedgerInv past s) (only : OnlyOwner past)
    (own : OwnCall past ⟨s, c⟩) : Protected past ⟨s, c⟩ := by
  refine ⟨fun r freed file' other b member => ?_, fun r mapped => ?_⟩
  · rcases outcome_freed s c with none | frees
    · rw [outcome, none] at freed
      cases freed
    · rw [only.not_other inv own frees other] at member
      cases member
  · obtain ⟨b, live, delivered, ours⟩ := own.maps (Option.ne_none_iff_exists'.mpr ⟨r, mapped⟩)
    have given := (inv.live b live delivered).1
    rw [ours] at given
    refine ⟨b, given, live, ?_⟩
    rw [outcome_mapped mapped]
    exact held_eq (held_of_live inv live)

theorem own_of_protected (inv : LedgerInv past s) (safe : Protected past ⟨s, c⟩) :
    OwnCall past ⟨s, c⟩ := by
  refine ⟨fun freed b live delivered => ?_, fun mapped => ?_⟩
  · by_contra other
    rcases outcome_freed s c with none | frees
    · exact freed none
    · have region : (outcome ⟨s, c⟩).freed = some b.region := frees.trans (held_of_live inv live)
      exact safe.frees b.region region b.file other b (inv.live b live delivered).2 rfl
  · obtain ⟨r, mapped⟩ := Option.ne_none_iff_exists'.mp mapped
    obtain ⟨b, given, live, -⟩ := safe.maps r mapped
    obtain ⟨ours, delivered⟩ := inv.returned _ b given
    exact ⟨b, live, delivered, ours⟩

/-- No call of a run harms another file exactly when, while a buffer is allocated, only the file
it was made for allocates again, is released or maps. -/
theorem run_protected_iff (run : (circuit File).Run past s) :
    Held Protected past ↔ Held OwnCall past := by
  constructor
  · exact run.derive fun _ _ _ run _ safe => own_of_protected (run_ledgerInv run) safe
  · intro own
    have start : ∀ s, (circuit File).Reset s → OnlyOwner ([] : List (Step File)) := by
      rintro s - file b ⟨⟩
    refine (run.entails (P := fun past _ => OnlyOwner past) start ?_ ?_ own).2
    · exact fun _ _ _ run only own => protected_of_own (run_ledgerInv run) only own
    · exact fun _ _ _ run only own _ => onlyOwner_step only (run_ledgerInv run) own

end Owner

def granted (file : Nat) (addr : BitVec 32) : CmaCall Nat :=
  .ioctl file ⟨cmaAlloc, 0, 0x1000, addr, addr, 0⟩

def inTurn : List (CmaCall Nat) :=
  [granted 0 0x10000000, .mmap 0 0, .release 0, granted 1 0x20000000, .mmap 1 0]

theorem run_protected_iff_inTurn :
    Held Protected ((circuit Nat).trace ⟨0, 0, 0⟩ inTurn) ∧
    ((circuit Nat).after ⟨0, 0, 0⟩ inTurn).cpuAddr = 0x20000000 :=
  ⟨(run_protected_iff (run_trace rfl inTurn)).mpr (by decide +kernel), by decide +kernel⟩

/-- A second file that is opened and closed frees the buffer the first one has mapped. One that
allocates has its own buffer mapped through the first. -/
theorem secondFile_frees :
    (circuit Nat).Run
      ((circuit Nat).trace ⟨0, 0, 0⟩ [granted 0 0x10000000, .mmap 0 0, .release 1])
      ((circuit Nat).after ⟨0, 0, 0⟩ [granted 0 0x10000000, .mmap 0 0, .release 1]) ∧
    ¬ Held Protected
      ((circuit Nat).trace ⟨0, 0, 0⟩ [granted 0 0x10000000, .mmap 0 0, .release 1]) ∧
    ¬ Held Protected ((circuit Nat).trace ⟨0, 0, 0⟩
      [granted 0 0x10000000, granted 1 0x20000000, .mmap 0 0]) := by
  refine ⟨run_trace rfl _, ?_, ?_⟩
  · rintro ⟨-, -, safe, -⟩
    exact safe.frees ⟨0x10000000, 0x10000000, 0x1000⟩ rfl 0 (by decide)
      ⟨0, 0, ⟨0x10000000, 0x10000000, 0x1000⟩, true⟩ (by decide +kernel) rfl
  · rintro ⟨-, -, safe, -⟩
    obtain ⟨b, given, live, -⟩ := safe.maps ⟨0x20000000, 0x20000000, 0x1000⟩ rfl
    exact absurd (given.trans live.symm) (by decide +kernel)

end Cma

end Switcheck
