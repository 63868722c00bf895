import SymbolicFit.LeastSquares

/-!
Least-squares runs in memory that is used again. The parameters and residuals of a trial overwrite
those of the trial before, and an accepted step swaps the residuals of the trial with those of the
parameters it replaces.
-/

namespace SymbolicFit.LeastSquares

open Scalar

/-- Where a run stands, with the buffers of its trials. -/
structure Memory (α : Type) extends Progress α where
  trialParams : List α
  trialResiduals : List α

namespace Memory

variable {σ α : Type}

/-- Writes parameters and their residuals into the buffers of a trial. -/
def attempt (p : LeastSquares σ α) (params : List α) (m : Memory α) : Fitting σ (Memory α) := do
  let m := { m with trialParams := params }
  let trialResiduals ← p.residuals m.trialParams
  return { m with trialResiduals }

/-- Goes on from the last trial. -/
def accept (m : Memory α) (cost damping : α) : Memory α :=
  { m with
    params := m.trialParams
    residuals := m.trialResiduals
    trialResiduals := m.residuals
    cost, damping }

variable [Scalar α]

/-- `LeastSquares.wrongAmong` in memory. The buffers of a trial hold the lower side of a
difference. -/
def wrongAmong (p : LeastSquares σ α) (jacobian : List (List α)) :
    List Nat → Memory α → Fitting σ (Memory α × Option Nat × Nat)
  | [], m => pure (m, none, 0)
  | j :: js, m => do
    let c := m.params.getD j 0
    let h := 1e-6 * greater (Scalar.abs c) 1
    let m := { m with trialParams := m.params.set j (c + h) }
    let up ← p.residuals m.trialParams
    let m ← m.attempt p (m.trialParams.set j (c - h))
    if columnIsWrong jacobian up m.trialResiduals h j then return (m, some j, 2)
    else
      let (m, wrong, n) ← wrongAmong p jacobian js m
      return (m, wrong, n + 2)

/-- `LeastSquares.tryStep` in memory. -/
def tryStep (p : LeastSquares σ α) (solver : LinearSolver α) (system : NormalSystem α) :
    Nat → Memory α → Fitting σ (Memory α × Option α)
  | 0, m => pure (m, none)
  | n + 1, m =>
    match solver.step system m.damping with
    | none => tryStep p solver system n { m with damping := m.damping * 10.0 }
    | some step => do
      let m ← m.attempt p (List.zipWith (· + ·) m.params step)
      let m := { m with residualCalls := m.residualCalls + 1 }
      let cost := costOf m.trialResiduals
      if allFinite m.trialResiduals ∧ cost < m.cost then
        let reduction : α := (m.cost - cost) / greater m.cost 2.2250738585072014e-308
        return (m.accept cost (greater (m.damping * 0.1) 1e-12), some reduction)
      else tryStep p solver system n { m with damping := m.damping * 10.0 }

/-- `LeastSquares.iterate` in memory. -/
def iterate (p : LeastSquares σ α) (solver : LinearSolver α) (tolerance : α) :
    Nat → Memory α → Fitting σ (Memory α × Ending)
  | 0, m => pure (m, .exhausted)
  | budget + 1, m => do
    let jacobian ← p.jacobian m.params
    let m := { m with jacobianCalls := m.jacobianCalls + 1 }
    if !jacobian.all allFinite then return (m, .nonFinite)
    else
      let system := solver.products p.parameterCount jacobian m.residuals
      if 0 < tolerance ∧ system.steepness ≤ tolerance then return (m, .converged)
      else
        let (m, accepted) ← tryStep p solver system maxTrials m
        let m := { m with iterations := m.iterations + 1 }
        match accepted with
        | none => return (m, .stalled)
        | some reduction =>
          if 0 < tolerance ∧ reduction ≤ tolerance then return (m, .converged)
          else iterate p solver tolerance budget m

/-- `LeastSquares.run` in memory. -/
def run (p : LeastSquares σ α) (solver : LinearSolver α) (settings : Settings α)
    (m : Memory α) : Fitting σ (Memory α × Ending) := do
  if settings.verify then
    let jacobian ← p.jacobian m.params
    let m := { m with jacobianCalls := m.jacobianCalls + 1 }
    if !jacobian.all allFinite then return (m, .nonFinite)
    else
      let (m, wrong, n) ← wrongAmong p jacobian (List.range m.params.length) m
      let m := { m with residualCalls := m.residualCalls + n }
      if wrong.isSome then return (m, .wrongJacobian)
      else iterate p solver settings.tolerance settings.budget m
  else iterate p solver settings.tolerance settings.budget m

end Memory

variable {σ α : Type} [Scalar α]

/-- Minimizes the cost from a starting vector. Nothing is evaluated without iterations or
parameters. -/
def solve (p : LeastSquares σ α) (solver : LinearSolver α) (settings : Settings α)
    (initial : List α) : Fitting σ (Report α) := do
  if initial.length ≠ p.parameterCount then
    throw (.parameterCountMismatch p.parameterCount initial.length)
  else if settings.budget = 0 ∨ p.parameterCount = 0 then
    return ⟨initial, .exhausted, 0, undefined, 0, 0⟩
  else
    let residuals ← p.residuals initial
    if !allFinite residuals then return ⟨initial, .nonFinite, 0, undefined, 1, 0⟩
    else
      let (m, ending) ← Memory.run p solver settings
        { params := initial, residuals, cost := costOf residuals, damping := settings.damping
          iterations := 0, residualCalls := 1, jacobianCalls := 0
          trialParams := [], trialResiduals := residuals.map fun _ => 0 }
      return m.report ending

end SymbolicFit.LeastSquares
