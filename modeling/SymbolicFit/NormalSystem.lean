import SymbolicFit.Scalar

/-!
The damped normal equations of a least-squares step. Matrices are lists of columns.
-/

namespace SymbolicFit

open Scalar

variable {α : Type} [Scalar α]

/-- The Gram matrix `JᵀJ` of a Jacobian and its product `Jᵀr` with the residuals. -/
structure NormalSystem (α : Type) where
  gram : List (List α)
  moment : List α

namespace NormalSystem

/-- The first `n` columns of a matrix given by its rows. -/
def columns (n : Nat) (rows : List (List α)) : List (List α) :=
  (List.range n).map fun j => rows.map (·.getD j 0)

/-- The system of a Jacobian with `n` columns, given by its rows. -/
def ofJacobian (n : Nat) (jacobian : List (List α)) (residuals : List α) : NormalSystem α :=
  let cs := columns n jacobian
  { gram := cs.map fun c => cs.map fun c' => dot c' c
    moment := cs.map fun c => dot c residuals }

/-- Adds `damping` times the diagonal to the diagonal, taking small entries for `1e-12`. -/
def damped (s : NormalSystem α) (damping : α) : List (List α) :=
  s.gram.mapIdx fun i c => c.modify i fun d => d + damping * greater d 1e-12

/-- The largest magnitude among the entries of `Jᵀr`. -/
def steepness (s : NormalSystem α) : α := s.moment.foldl (fun m x => greater m (Scalar.abs x)) 0

end NormalSystem

/-- The linear algebra of a step: the normal equations of a Jacobian with `n` columns, given by its
rows, and how square systems `a x = b` are solved, directly and by the shortest solution of a
singular one. -/
structure LinearSolver (α : Type) where
  products : (n : Nat) → (jacobian : List (List α)) → (residuals : List α) → NormalSystem α
  direct : List (List α) → List α → Option (List α)
  shortest : List (List α) → List α → List α

def allFinite (xs : List α) : Bool := xs.all isFinite

/-- The step of a damped system, the shortest one if the direct solution fails or is not finite. -/
def LinearSolver.step (solver : LinearSolver α) (s : NormalSystem α) (damping : α) :
    Option (List α) :=
  let a := s.damped damping
  let b := s.moment.map (- ·)
  match (solver.direct a b).filter allFinite with
  | some x => some x
  | none => some (solver.shortest a b) |>.filter allFinite

end SymbolicFit
