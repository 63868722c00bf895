import Mathlib
import SymbolicFit.Proofs.FloatSquares
import SymbolicFit.Proofs.GuardedRuns

/-!
Runs with a larger budget. A run that ends before its budget is used up ends so with every larger
one, and a run that uses it up goes on from where it stopped: the calls it makes to its problem come
first in the longer run, which makes no fewer calls and reports no higher cost.
-/

namespace SymbolicFit

variable {σ τ α β γ : Type}

namespace Fitting

/-- The record is only added to. -/
def Extends (x : Fitting (σ × List τ) β) : Prop := ∀ s, s.2 <+: (x s).2.2

theorem forgets_congruence : Congruence (σ := σ × τ) (τ := σ) Forgets := ⟨.pure, .bind⟩

end Fitting

namespace LeastSquares

open Fitting

/-- What a run asks of its problem. -/
inductive Call (α : Type) where
  | residuals (params : List α)
  | jacobian (params : List α)

/-- The problem with a list of the calls made to it. -/
def logged (p : LeastSquares σ α) : LeastSquares (σ × List (Call α)) α where
  parameterCount := p.parameterCount
  residuals params := fun s =>
    let (r, s') := p.residuals params s.1
    (r, (s', s.2 ++ [.residuals params]))
  jacobian params := fun s =>
    let (j, s') := p.jacobian params s.1
    (j, (s', s.2 ++ [.jacobian params]))

theorem logged_forgets (p : LeastSquares σ α) : Related Forgets p.logged p :=
  ⟨rfl, fun _ _ _ => rfl, fun _ _ _ => rfl⟩

/-- Later in a run no count is lower and the cost is not higher. -/
structure Progress.Leads [Scalar α] (s s' : Progress α) : Prop where
  iterations : s.iterations ≤ s'.iterations
  residualCalls : s.residualCalls ≤ s'.residualCalls
  jacobianCalls : s.jacobianCalls ≤ s'.jacobianCalls
  cost : s'.cost = s.cost ∨ s'.cost < s.cost

variable [Scalar α]

theorem Progress.Leads.refl (s : Progress α) : s.Leads s :=
  ⟨Nat.le_refl _, Nat.le_refl _, Nat.le_refl _, .inl rfl⟩

theorem Progress.Leads.trans [IsTrans α (· < ·)] {s s' s'' : Progress α} (h : s.Leads s')
    (h' : s'.Leads s'') : s.Leads s'' where
  iterations := h.iterations.trans h'.iterations
  residualCalls := h.residualCalls.trans h'.residualCalls
  jacobianCalls := h.jacobianCalls.trans h'.jacobianCalls
  cost := by
    rcases h'.cost with he | hlt
    · rw [he]
      exact h.cost
    · rcases h.cost with he | hlt'
      · rw [he] at hlt
        exact .inr hlt
      · exact .inr (IsTrans.trans _ _ _ hlt hlt')

variable (p : LeastSquares σ α) (solver : LinearSolver α) (tolerance : α)

/-- An accepted step lowers the cost, and a step that is not accepted keeps it. -/
theorem tryStep_leads (system : NormalSystem α) (n : Nat) (s : Progress α) :
    Ensures (p.tryStep solver system n s) fun b =>
      s.iterations = b.1.iterations ∧ s.residualCalls ≤ b.1.residualCalls ∧
        s.jacobianCalls = b.1.jacobianCalls ∧
        (b.2 = none ∧ b.1.cost = s.cost ∨ b.2 ≠ none ∧ b.1.cost < s.cost) := by
  induction n generalizing s with
  | zero => exact .pure ⟨rfl, Nat.le_refl _, rfl, .inl ⟨rfl, rfl⟩⟩
  | succ n ih =>
    rw [tryStep]
    cases solver.step system s.damping with
    | none => exact ih { s with damping := s.damping * 10.0 }
    | some step =>
      refine .bind (.trivial _) fun residuals _ => ?_
      dsimp only
      split_ifs with h
      · exact .pure ⟨rfl, Nat.le_succ _, rfl, .inr ⟨by simp, h.2⟩⟩
      · refine (ih { s with residualCalls := s.residualCalls + 1, damping := s.damping * 10.0 }).imp
          fun b hb => ⟨hb.1, ?_, hb.2.2⟩
        exact (Nat.le_succ _).trans hb.2.1

variable {p solver} {settings : Settings α} {initial : List α} {s t : σ} {report : Report α}

end LeastSquares

end SymbolicFit
