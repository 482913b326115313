import Mathlib.Data.Finset.Range
import Mathlib.Data.Finset.Lattice.Fold
import Mathlib.Data.List.Basic

/-!
# Scripts

A thread as the statements it has still to run. A statement changes the variables and puts the
statements of its body, if it has one, before the rest. That statements complete says that they are
run to their end, and at what cost; an outline tells what holds between two statements.
-/

namespace Switcheck.Sync

structure Thread (σ Op : Type) where
  vars : σ
  todo : List Op
  failed : Bool

variable {σ Op ι Φ : Type}

namespace Thread

/-- The next statement; none is run after one that has failed. -/
def step (exec : Op → σ → ι → Option (σ × List Op)) (t : Thread σ Op) (i : ι) : Thread σ Op :=
  match t.failed, t.todo with
  | true, _ => t
  | false, [] => t
  | false, op :: rest =>
    match exec op t.vars i with
    | none => { t with failed := true }
    | some (vars, body) => { t with vars := vars, todo := body ++ rest }

theorem step_cases (exec : Op → σ → ι → Option (σ × List Op)) (t : Thread σ Op) (i : ι) :
    t.step exec i = t ∨
    (∃ op rest, t.todo = op :: rest ∧ exec op t.vars i = none ∧
      t.step exec i = { t with failed := true }) ∨
    ∃ op rest vars body, t.todo = op :: rest ∧ exec op t.vars i = some (vars, body) ∧
      t.step exec i = { t with vars := vars, todo := body ++ rest } := by
  obtain ⟨vars, todo, failed⟩ := t
  cases failed with
  | true => exact .inl rfl
  | false =>
    cases todo with
    | nil => exact .inl rfl
    | cons op rest =>
      refine .inr ?_
      cases ran : exec op vars i with
      | none => exact .inl ⟨op, rest, rfl, ran, by simp [step, ran]⟩
      | some result =>
        obtain ⟨vars', body⟩ := result
        exact .inr ⟨op, rest, vars', body, rfl, ran, by simp [step, ran]⟩

end Thread

/-- Whatever is read, the statements and their bodies are run to their end: every one of them is
among `May`, together they cost `n`, and `Q` holds after them. -/
inductive Completes (exec : Op → σ → ι → Option (σ × List Op)) (May : Op → Prop)
    (cost : Op → σ → Nat) (Q : σ → Prop) : List Op → σ → Nat → Prop where
  | done {v : σ} : Q v → Completes exec May cost Q [] v 0
  | next {op : Op} {rest : List Op} {v : σ} {n : Nat} : May op → (∀ i, exec op v i ≠ none) →
      (∀ i v' body, exec op v i = some (v', body) →
        Completes exec May cost Q (body ++ rest) v' n) →
      Completes exec May cost Q (op :: rest) v (cost op v + n)

namespace Completes

variable {exec : Op → σ → ι → Option (σ × List Op)} {May : Op → Prop} {cost : Op → σ → Nat}
  {Q R : σ → Prop} {first second ops : List Op} {op : Op} {v v' : σ} {m n : Nat}

theorem append (before : Completes exec May cost R first v m)
    (onward : ∀ v', R v' → Completes exec May cost Q second v' n) :
    Completes exec May cost Q (first ++ second) v (m + n) := by
  induction before with
  | done holds =>
    rw [Nat.zero_add]
    exact onward _ holds
  | next may runs later ih =>
    rw [Nat.add_assoc]
    refine .next may runs fun i v' body ran => ?_
    have all := ih i v' body ran
    rwa [List.append_assoc] at all

/-- A statement of which the body is run to its end. -/
theorem single (may : May op) (runs : ∀ i, exec op v i ≠ none)
    (body : ∀ i v' body, exec op v i = some (v', body) → Completes exec May cost Q body v' n) :
    Completes exec May cost Q [op] v (cost op v + n) := by
  refine .next may runs fun i v' ops ran => ?_
  rw [List.append_nil]
  exact body i v' ops ran

/-- Statements that keep `Q` and cost nothing, with bodies of such statements of a lower rank. -/
theorem quiet {Quiet : Op → Prop} {rank : Op → Nat}
    (each : ∀ op v, Quiet op → Q v → May op ∧ cost op v = 0 ∧ ∀ i, ∃ v' body,
      exec op v i = some (v', body) ∧ Q v' ∧ ∀ inner ∈ body, Quiet inner ∧ rank inner < rank op)
    (all : ∀ op ∈ ops, Quiet op) (holds : Q v) : Completes exec May cost Q ops v 0 := by
  suffices below : ∀ bound ops v, (∀ op ∈ ops, Quiet op ∧ rank op < bound) → Q v →
      Completes exec May cost Q ops v 0 by
    obtain ⟨bound, top⟩ := (ops.map rank).toFinset.exists_nat_subset_range
    refine below bound ops v (fun op member => ⟨all op member, ?_⟩) holds
    exact Finset.mem_range.mp (top (List.mem_toFinset.mpr (List.mem_map_of_mem member)))
  intro bound
  induction bound with
  | zero =>
    intro ops v inner holds
    cases ops with
    | nil => exact .done holds
    | cons op rest => exact absurd (inner op List.mem_cons_self).2 (Nat.not_lt_zero _)
  | succ bound outer =>
    intro ops
    induction ops with
    | nil => exact fun v _ holds => .done holds
    | cons op rest ih =>
      intro v inner holds
      obtain ⟨⟨quiet, ranked⟩, others⟩ := List.forall_mem_cons.mp inner
      obtain ⟨may, free, runs⟩ := each op v quiet holds
      have whole : Completes exec May cost Q (op :: rest) v (cost op v + 0) := by
        refine .next may (fun i stops => ?_) fun i v' body ran => ?_
        · obtain ⟨v', body, ran, -⟩ := runs i
          rw [ran] at stops
          cases stops
        · obtain ⟨v₁, body₁, ran₁, holds', lower⟩ := runs i
          obtain ⟨rfl, rfl⟩ := Prod.mk.inj (Option.some.inj (ran₁.symm.trans ran))
          have within : Completes exec May cost Q body₁ v₁ 0 :=
            outer body₁ v₁ (fun op member => ⟨(lower op member).1,
              Nat.lt_of_lt_of_le (lower op member).2 (Nat.lt_succ_iff.mp ranked)⟩) holds'
          exact within.append fun v'' holds'' => ih v'' others holds''
      rwa [free] at whole

theorem head (completes : Completes exec May cost Q (op :: ops) v n) : May op := by
  cases completes with
  | next may => exact may

theorem nil (completes : Completes exec May cost Q [] v n) : n = 0 := by
  cases completes with
  | done => rfl

/-- What is left after a step costs what is left of the cost. -/
theorem step (completes : Completes exec May cost Q (op :: ops) v n) (rest : List Op) (i : ι) :
    ∃ v' left m, Thread.step exec ⟨v, op :: ops ++ rest, false⟩ i = ⟨v', left ++ rest, false⟩ ∧
      Completes exec May cost Q left v' m ∧ cost op v + m = n := by
  cases completes with
  | @next _ _ _ m may runs later =>
    cases ran : exec op v i with
    | none => exact absurd ran (runs i)
    | some result =>
      obtain ⟨v', body⟩ := result
      refine ⟨v', body ++ ops, m, ?_, later i v' body ran, rfl⟩
      simp [Thread.step, ran]

end Completes

/-- The assertions, and the one that holds after a statement that runs where another holds. -/
structure Outline (σ Op Φ : Type) where
  Holds : Φ → σ → Prop
  after : Op → Φ → Option Φ

namespace Outline

variable (O : Outline σ Op Φ)

def through : List Op → Φ → Option Φ
  | [], φ => some φ
  | op :: rest, φ => (O.after op φ).bind (through rest)

/-- A statement leads to an assertion from which its body leads to the one after it. -/
def Sound (exec : Op → σ → ι → Option (σ × List Op)) : Prop :=
  ∀ op φ ψ s i s' body, O.after op φ = some ψ → O.Holds φ s → exec op s i = some (s', body) →
    ∃ χ, O.Holds χ s' ∧ O.through body χ = some ψ

/-- What the thread has still to run has an outline that begins with what holds. -/
def Covers (t : Thread σ Op) : Prop :=
  ∃ φ, O.Holds φ t.vars ∧ (O.through t.todo φ).isSome

variable {O}

theorem through_append (body rest : List Op) (φ : Φ) :
    O.through (body ++ rest) φ = (O.through body φ).bind (O.through rest) := by
  induction body generalizing φ with
  | nil => rfl
  | cons op body ih =>
    rw [List.cons_append, through, through]
    cases O.after op φ with
    | none => rfl
    | some ψ => exact ih ψ

theorem Covers.step {exec : Op → σ → ι → Option (σ × List Op)} {t : Thread σ Op}
    (covers : O.Covers t) (sound : O.Sound exec) (i : ι) : O.Covers (t.step exec i) := by
  obtain ⟨φ, holds, leads⟩ := covers
  rcases t.step_cases exec i with same | ⟨op, rest, -, -, next⟩ | ⟨op, rest, vars, body, todo, ran,
    next⟩
  · rw [same]
    exact ⟨φ, holds, leads⟩
  · rw [next]
    exact ⟨φ, holds, leads⟩
  · rw [todo, through] at leads
    rw [next]
    cases after : O.after op φ with
    | none =>
      rw [after] at leads
      cases leads
    | some ψ =>
      obtain ⟨χ, holds', within⟩ := sound op φ ψ t.vars i vars body after holds ran
      refine ⟨χ, holds', ?_⟩
      rw [after] at leads
      rw [through_append, within]
      exact leads

/-- What the other threads do to the variables does not matter if the assertions do not see it. -/
theorem Covers.frame {t : Thread σ Op} {vars : σ} (covers : O.Covers t)
    (unseen : ∀ φ, O.Holds φ t.vars → O.Holds φ vars) : O.Covers { t with vars := vars } := by
  obtain ⟨φ, holds, leads⟩ := covers
  exact ⟨φ, unseen φ holds, leads⟩

end Outline

end Switcheck.Sync
