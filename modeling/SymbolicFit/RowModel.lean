import SymbolicFit.CompiledTree
import SymbolicFit.DesignMatrix
import SymbolicFit.PassCounts
import SymbolicFit.SharedBuffers

/-!
Fitting a differentiable model to observations, row by row.
-/

namespace SymbolicFit

/-- A model with parameters, evaluated on one input row at a time, that may keep a state. -/
structure RowModel (σ α : Type) where
  parameterCount : Nat
  value : (params inputs : List α) → StateM σ α
  /-- The value and its derivatives with respect to the parameters. -/
  differentiate : (params inputs : List α) → StateM σ (α × List α)

variable {σ α : Type} [Scalar α]

/-- A compiled tree as a model; the state is the memory its tape is evaluated in. -/
def CompiledTree.rowModel (c : CompiledTree α) : RowModel (Workspace α) α where
  parameterCount := c.parameterCount
  value params inputs := fun w => c.tape.evaluate params inputs w
  differentiate params inputs := fun w =>
    let (y, gradient, w) :=
      c.tape.differentiate params inputs (List.replicate c.parameterCount 0) w
    ((y, gradient), w)

/-- Evaluations on single rows, of values and of gradients. -/
structure Tally where
  values : Nat := 0
  gradients : Nat := 0
deriving DecidableEq

namespace RowModel

inductive Outcome (α : Type) where
  | fitted (params : List α) (passes : PassCounts)
  | failed (reason : String)

/-- Runs a model beside a tally of row evaluations. -/
def onRow {β : Type} (x : StateM σ β) : Fitting (σ × Tally) β := fun s =>
  let (b, s') := x s.1
  (.ok b, (s', s.2))

def stopIfCancelled (cancelled : σ → Bool) : Fitting (σ × Tally) Unit := do
  if cancelled (← get).1 then throw .cancelled

/-- The residuals of a model on all rows. Cancellation is looked for before each pass. -/
def problem (model : RowModel σ α) (x : DesignMatrix α) (y : List α) (cancelled : σ → Bool) :
    LeastSquares (σ × Tally) α where
  parameterCount := model.parameterCount
  residuals params := do
    stopIfCancelled cancelled
    let rs ← y.zipIdx.mapM fun (yi, i) => do
      let v ← onRow (model.value params (x.row i))
      return v - yi
    modify fun s => (s.1, { s.2 with values := s.2.values + y.length })
    return rs
  jacobian params := do
    stopIfCancelled cancelled
    let rows ← (List.range y.length).mapM fun i => do
      let r ← onRow (model.differentiate params (x.row i))
      return r.2
    modify fun s => (s.1, { s.2 with gradients := s.2.gradients + y.length })
    return rows

/-- Whether a fit can start: parameters, a matching initial vector, and a row for each value. -/
def check (model : RowModel σ α) (x : DesignMatrix α) (y initial : List α) :
    Except Failure Unit :=
  if model.parameterCount = 0 then .error .nothingToFit
  else if initial.length ≠ model.parameterCount then
    .error (.parameterCountMismatch model.parameterCount initial.length)
  else if y.isEmpty then .error .emptyRows
  else if x.rows ≠ y.length then .error (.columnLengthMismatch "target" x.rows y.length)
  else .ok ()

/-- Fits a model to observed values from an initial vector. -/
def fit (model : RowModel σ α) (solver : LinearSolver α) (x : DesignMatrix α)
    (y initial : List α) (budget : Nat) (verify : Bool) (cancelled : σ → Bool) :
    Fitting σ (Outcome α) := do
  model.check x y initial
  if cancelled (← get) then throw .cancelled
  else
    let (report, tally) ← tallied <|
      (model.problem x y cancelled).solve solver { budget, verify } initial
    if report.ending.isFailure then
      return .failed (report.ending.name ++ s!" after {report.iterations} iterations")
    else
      return .fitted report.params (.ofEvaluations tally.values tally.gradients y.length)
where
  /-- Runs a computation from an empty tally. -/
  tallied {β : Type} (f : Fitting (σ × Tally) β) : Fitting σ (β × Tally) := fun s =>
    let (r, s', tally) := f (s, {})
    (r.map (·, tally), s')

end RowModel

end SymbolicFit
