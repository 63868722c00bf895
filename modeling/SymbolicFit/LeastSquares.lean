import SymbolicFit.Failure
import SymbolicFit.NormalSystem

/-!
Nonlinear least squares: minimizing half the squared norm of the residuals by damped steps
(Levenberg and Marquardt). The problem is asked for residuals and Jacobians through callbacks that
may fail and may change a state of their own.
-/

namespace SymbolicFit

open Scalar

/-- A computation with a state that survives a failure. -/
abbrev Fitting (σ : Type) := ExceptT Failure (StateM σ)

structure LeastSquares (σ α : Type) where
  parameterCount : Nat
  residuals : List α → Fitting σ (List α)
  /-- The derivatives of the residuals, one row for each. -/
  jacobian : List α → Fitting σ (List (List α))

namespace LeastSquares

/-- Why a run ended. -/
inductive Ending where
  /-- A tolerance was met. -/
  | converged
  /-- The iterations are used up. -/
  | exhausted
  /-- No damped step lowered the cost. -/
  | stalled
  /-- The Jacobian disagrees with differences of the residuals. -/
  | wrongJacobian
  /-- The first residuals or a Jacobian were not finite. -/
  | nonFinite
deriving DecidableEq, Repr

namespace Ending

def isFailure : Ending → Bool
  | wrongJacobian | nonFinite => true
  | _ => false

def name : Ending → String
  | converged => "Converged"
  | exhausted => "MaxIterations"
  | stalled => "Stalled"
  | wrongJacobian => "BadGradient"
  | nonFinite => "NonFinite"

end Ending

structure Report (α : Type) where
  params : List α
  ending : Ending
  /-- The completed iterations. -/
  iterations : Nat
  cost : α
  residualCalls : Nat
  jacobianCalls : Nat

/-- Where a run stands: the last accepted parameters with their residuals and cost. -/
structure Progress (α : Type) where
  params : List α
  residuals : List α
  cost : α
  damping : α
  iterations : Nat
  residualCalls : Nat
  jacobianCalls : Nat

def Progress.report {α : Type} (s : Progress α) (e : Ending) : Report α :=
  ⟨s.params, e, s.iterations, s.cost, s.residualCalls, s.jacobianCalls⟩

variable {σ α : Type} [Scalar α]

/-- A tolerance of zero turns the convergence tests off. -/
structure Settings (α : Type) [Scalar α] where
  budget : Nat := 10
  tolerance : α := 0
  damping : α := 1e-3
  /-- Compare the first Jacobian with differences of the residuals. -/
  verify : Bool := false

def costOf (residuals : List α) : α := 0.5 * sum (residuals.map fun x => x * x)

/-- Trial steps in one iteration. -/
def maxTrials : Nat := 10

/-- Column `j` of the Jacobian differs from the central differences of width `2 h`; differences
that are not finite are ignored. -/
def columnIsWrong (jacobian : List (List α)) (up down : List α) (h : α) (j : Nat) : Bool :=
  (jacobian.zip (up.zip down)).any fun (row, f, b) =>
    let numeric := (f - b) / (2.0 * h)
    let analytic := row.getD j 0
    isFinite numeric && 1e-3 * greater (Scalar.abs numeric) 1 < Scalar.abs (analytic - numeric)

/-- The first wrong column among the given ones, and the residuals evaluated to find it. -/
def wrongAmong (p : LeastSquares σ α) (params : List α) (jacobian : List (List α)) :
    List Nat → Fitting σ (Option Nat × Nat)
  | [] => pure (none, 0)
  | j :: js => do
    let c := params.getD j 0
    let h := 1e-6 * greater (Scalar.abs c) 1
    let up ← p.residuals (params.set j (c + h))
    let down ← p.residuals (params.set j (c - h))
    if columnIsWrong jacobian up down h j then return (some j, 2)
    else
      let (wrong, n) ← p.wrongAmong params jacobian js
      return (wrong, n + 2)

def firstWrong (p : LeastSquares σ α) (params : List α) (jacobian : List (List α)) :
    Fitting σ (Option Nat × Nat) :=
  p.wrongAmong params jacobian (List.range params.length)

/-- Tries up to `n` steps with growing damping. An accepted step comes with the relative reduction
of the cost. -/
def tryStep (p : LeastSquares σ α) (solver : LinearSolver α) (system : NormalSystem α) :
    Nat → Progress α → Fitting σ (Progress α × Option α)
  | 0, s => pure (s, none)
  | n + 1, s =>
    match solver.step system s.damping with
    | none => p.tryStep solver system n { s with damping := s.damping * 10.0 }
    | some step => do
      let params := List.zipWith (· + ·) s.params step
      let residuals ← p.residuals params
      let s := { s with residualCalls := s.residualCalls + 1 }
      let cost := costOf residuals
      if allFinite residuals ∧ cost < s.cost then
        let reduction : α := (s.cost - cost) / greater s.cost 2.2250738585072014e-308
        let damping : α := greater (s.damping * 0.1) 1e-12
        return ({ s with params, residuals, cost, damping }, some reduction)
      else p.tryStep solver system n { s with damping := s.damping * 10.0 }

/-- Iterates at most `budget` times. -/
def iterate (p : LeastSquares σ α) (solver : LinearSolver α) (tolerance : α) :
    Nat → Progress α → Fitting σ (Progress α × Ending)
  | 0, s => pure (s, .exhausted)
  | budget + 1, s => do
    let jacobian ← p.jacobian s.params
    let s := { s with jacobianCalls := s.jacobianCalls + 1 }
    if !jacobian.all allFinite then return (s, .nonFinite)
    else
      let system := solver.products p.parameterCount jacobian s.residuals
      if 0 < tolerance ∧ system.steepness ≤ tolerance then return (s, .converged)
      else
        let (s, accepted) ← p.tryStep solver system maxTrials s
        let s := { s with iterations := s.iterations + 1 }
        match accepted with
        | none => return (s, .stalled)
        | some reduction =>
          if 0 < tolerance ∧ reduction ≤ tolerance then return (s, .converged)
          else p.iterate solver tolerance budget s

/-- Compares the Jacobian with differences if that is asked for, and iterates unless they
disagree. -/
def run (p : LeastSquares σ α) (solver : LinearSolver α) (settings : Settings α)
    (s : Progress α) : Fitting σ (Progress α × Ending) := do
  if settings.verify then
    let jacobian ← p.jacobian s.params
    let s := { s with jacobianCalls := s.jacobianCalls + 1 }
    if !jacobian.all allFinite then return (s, .nonFinite)
    else
      let (wrong, n) ← p.firstWrong s.params jacobian
      let s := { s with residualCalls := s.residualCalls + n }
      if wrong.isSome then return (s, .wrongJacobian)
      else p.iterate solver settings.tolerance settings.budget s
  else p.iterate solver settings.tolerance settings.budget s

/-- Minimizes the cost from a starting vector, by runs on fresh values. Nothing is evaluated without
iterations or parameters. -/
def solveFresh (p : LeastSquares σ α) (solver : LinearSolver α) (settings : Settings α)
    (initial : List α) : Fitting σ (Report α) := do
  if initial.length ≠ p.parameterCount then
    throw (.parameterCountMismatch p.parameterCount initial.length)
  else if settings.budget = 0 ∨ p.parameterCount = 0 then
    return ⟨initial, .exhausted, 0, undefined, 0, 0⟩
  else
    let residuals ← p.residuals initial
    if !allFinite residuals then return ⟨initial, .nonFinite, 0, undefined, 1, 0⟩
    else
      let (s, ending) ← p.run solver settings
        ⟨initial, residuals, costOf residuals, settings.damping, 0, 1, 0⟩
      return s.report ending

end LeastSquares

end SymbolicFit
