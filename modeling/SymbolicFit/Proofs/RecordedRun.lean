import SymbolicFit.Proofs.ReusedBuffers

/-!
Least-squares runs that record which parameters they accept and which systems they solve. Without
the record they are the plain runs.
-/

namespace SymbolicFit.LeastSquares

open Fitting

variable {σ α : Type}

inductive Event (α : Type) where
  /-- The run goes on from these parameters. -/
  | accepted (params : List α)
  /-- A damped form of this system is solved for a step. -/
  | solved (system : NormalSystem α)

/-- A computation beside a record of events, the latest first. -/
abbrev Recording (σ α : Type) := Fitting (σ × List (Event α))

def record (e : Event α) : Recording σ α Unit := modify fun s => (s.1, e :: s.2)

/-- The problem in the presence of a record that it does not touch. -/
def besideRecord (p : LeastSquares σ α) : LeastSquares (σ × List (Event α)) α where
  parameterCount := p.parameterCount
  residuals params := fun s => let (r, s') := p.residuals params s.1; (r, (s', s.2))
  jacobian params := fun s => let (j, s') := p.jacobian params s.1; (j, (s', s.2))

theorem forgets_residuals (p : LeastSquares σ α) (params : List α) :
    Forgets (p.besideRecord.residuals params) (p.residuals params) := fun _ _ => rfl

theorem forgets_jacobian (p : LeastSquares σ α) (params : List α) :
    Forgets (p.besideRecord.jacobian params) (p.jacobian params) := fun _ _ => rfl

theorem forgets_record {β : Type} (e : Event α) {f : Unit → Recording σ α β} {y : Fitting σ β}
    (h : Forgets (f ()) y) : Forgets (record e >>= f) y := fun s t => h s (e :: t)

variable [Scalar α]

/-- `tryStep`, recording every system solved and the step accepted. -/
def tryStepRecorded (p : LeastSquares σ α) (solver : LinearSolver α) (system : NormalSystem α) :
    Nat → Progress α → Recording σ α (Progress α × Option α)
  | 0, s => pure (s, none)
  | n + 1, s => do
    record (.solved system)
    match solver.step system s.damping with
    | none => p.tryStepRecorded solver system n { s with damping := s.damping * 10.0 }
    | some step => do
      let params := List.zipWith (· + ·) s.params step
      let residuals ← p.besideRecord.residuals params
      let s := { s with residualCalls := s.residualCalls + 1 }
      let cost := costOf residuals
      if allFinite residuals ∧ cost < s.cost then do
        record (.accepted params)
        let reduction : α := (s.cost - cost) / Scalar.greater s.cost 2.2250738585072014e-308
        let damping : α := Scalar.greater (s.damping * 0.1) 1e-12
        return ({ s with params, residuals, cost, damping }, some reduction)
      else p.tryStepRecorded solver system n { s with damping := s.damping * 10.0 }

/-- `iterate` on recorded steps. -/
def iterateRecorded (p : LeastSquares σ α) (solver : LinearSolver α) (tolerance : α) :
    Nat → Progress α → Recording σ α (Progress α × Ending)
  | 0, s => pure (s, .exhausted)
  | budget + 1, s => do
    let jacobian ← p.besideRecord.jacobian s.params
    let s := { s with jacobianCalls := s.jacobianCalls + 1 }
    if !jacobian.all allFinite then return (s, .nonFinite)
    else
      let system := solver.products p.parameterCount jacobian s.residuals
      if 0 < tolerance ∧ system.steepness ≤ tolerance then return (s, .converged)
      else
        let (s, accepted) ← p.tryStepRecorded solver system maxTrials s
        let s := { s with iterations := s.iterations + 1 }
        match accepted with
        | none => return (s, .stalled)
        | some reduction =>
          if 0 < tolerance ∧ reduction ≤ tolerance then return (s, .converged)
          else p.iterateRecorded solver tolerance budget s

/-- `run` on recorded iterations. -/
def runRecorded (p : LeastSquares σ α) (solver : LinearSolver α) (settings : Settings α)
    (s : Progress α) : Recording σ α (Progress α × Ending) := do
  if settings.verify then
    let jacobian ← p.besideRecord.jacobian s.params
    let s := { s with jacobianCalls := s.jacobianCalls + 1 }
    if !jacobian.all allFinite then return (s, .nonFinite)
    else
      let (wrong, n) ← p.besideRecord.firstWrong s.params jacobian
      let s := { s with residualCalls := s.residualCalls + n }
      if wrong.isSome then return (s, .wrongJacobian)
      else p.iterateRecorded solver settings.tolerance settings.budget s
  else p.iterateRecorded solver settings.tolerance settings.budget s

/-- `solve` on recorded runs; the starting vector is the first one accepted. -/
def solveRecorded (p : LeastSquares σ α) (solver : LinearSolver α) (settings : Settings α)
    (initial : List α) : Recording σ α (Report α) := do
  record (.accepted initial)
  if initial.length ≠ p.parameterCount then
    throw (.parameterCountMismatch p.parameterCount initial.length)
  else if settings.budget = 0 ∨ p.parameterCount = 0 then
    return ⟨initial, .exhausted, 0, Scalar.undefined, 0, 0⟩
  else
    let residuals ← p.besideRecord.residuals initial
    if !allFinite residuals then return ⟨initial, .nonFinite, 0, Scalar.undefined, 1, 0⟩
    else
      let (s, ending) ← p.runRecorded solver settings
        ⟨initial, residuals, costOf residuals, settings.damping, 0, 1, 0⟩
      return s.report ending

theorem forgets_wrongAmong (p : LeastSquares σ α) (params : List α) (jacobian : List (List α))
    (js : List Nat) :
    Forgets (p.besideRecord.wrongAmong params jacobian js) (p.wrongAmong params jacobian js) := by
  induction js with
  | nil => exact .pure _
  | cons j js ih =>
    refine .bind (forgets_residuals p _) fun up => .bind (forgets_residuals p _) fun down => ?_
    split_ifs
    · exact .pure _
    · exact .bind ih fun _ => .pure _

theorem forgets_tryStep (p : LeastSquares σ α) (solver : LinearSolver α)
    (system : NormalSystem α) (n : Nat) (s : Progress α) :
    Forgets (p.tryStepRecorded solver system n s) (p.tryStep solver system n s) := by
  induction n generalizing s with
  | zero => exact .pure _
  | succ n ih =>
    refine forgets_record _ ?_
    rw [tryStep]
    cases solver.step system s.damping with
    | none => exact ih _
    | some step =>
      refine .bind (forgets_residuals p _) fun residuals => ?_
      dsimp only
      split_ifs
      · exact forgets_record _ (.pure _)
      · exact ih _

theorem forgets_iterate (p : LeastSquares σ α) (solver : LinearSolver α) (tolerance : α)
    (budget : Nat) (s : Progress α) :
    Forgets (p.iterateRecorded solver tolerance budget s)
      (p.iterate solver tolerance budget s) := by
  induction budget generalizing s with
  | zero => exact .pure _
  | succ budget ih =>
    refine .bind (forgets_jacobian p _) fun jacobian => ?_
    dsimp only
    split_ifs
    · exact .pure _
    · exact .pure _
    · refine .bind (forgets_tryStep p solver _ _ _) fun ⟨s, accepted⟩ => ?_
      cases accepted with
      | none => exact .pure _
      | some reduction =>
        dsimp only
        split_ifs
        · exact .pure _
        · exact ih _

theorem forgets_run (p : LeastSquares σ α) (solver : LinearSolver α) (settings : Settings α)
    (s : Progress α) :
    Forgets (p.runRecorded solver settings s) (p.run solver settings s) := by
  unfold runRecorded run
  split_ifs
  · refine .bind (forgets_jacobian p _) fun jacobian => ?_
    dsimp only
    split_ifs
    · exact .pure _
    · refine .bind (forgets_wrongAmong p _ _ _) fun ⟨wrong, n⟩ => ?_
      dsimp only
      split_ifs
      · exact .pure _
      · exact forgets_iterate p solver _ _ _
  · exact forgets_iterate p solver _ _ _

theorem forgets_solve (p : LeastSquares σ α) (solver : LinearSolver α) (settings : Settings α)
    (initial : List α) :
    Forgets (p.solveRecorded solver settings initial) (p.solve solver settings initial) := by
  refine forgets_record _ ?_
  rw [solve_eq_fresh]
  unfold solveFresh
  split_ifs
  · exact .throw _
  · exact .pure _
  · refine .bind (forgets_residuals p _) fun residuals => ?_
    split_ifs
    · exact .pure _
    · exact .bind (forgets_run p solver settings _) fun _ => .pure _

end SymbolicFit.LeastSquares
