import Mathlib
import SymbolicFit.LeastSquares
import SymbolicFit.Proofs.DampedSteps

/-!
Problems with affine residuals. A damped step lowers the cost by an explicit amount, and the cost is
least where its gradient vanishes.
-/

namespace SymbolicFit.LeastSquares

open Matrix

section Squares

variable {m n : ℕ}

theorem costOf_eq {xs : List ℝ} (h : xs.length ≤ m) :
    costOf xs = 1 / 2 * (toVector m xs ⬝ᵥ toVector m xs) := by
  have hhalf : (0.5 : ℝ) = 1 / 2 := by norm_num
  rw [← dot_eq h, Scalar.dot, List.zipWith_self, ← hhalf]
  rfl

theorem dotProduct_add_self (r d : Fin m → ℝ) :
    (r + d) ⬝ᵥ (r + d) = r ⬝ᵥ r + 2 * (r ⬝ᵥ d) + d ⬝ᵥ d := by
  rw [add_dotProduct, dotProduct_add, dotProduct_add, dotProduct_comm d r]
  ring

variable (J : Matrix (Fin m) (Fin n) ℝ) {r : Fin m → ℝ} {v : Fin n → ℝ}

/-- What a damped step adds to the square of the residuals. -/
theorem square_of_step {E : Matrix (Fin n) (Fin n) ℝ} {damping : ℝ}
    (hv : (Jᵀ * J + damping • E) *ᵥ v = -(Jᵀ *ᵥ r)) :
    (r + J *ᵥ v) ⬝ᵥ (r + J *ᵥ v) =
      r ⬝ᵥ r + (Jᵀ *ᵥ r) ⬝ᵥ v - damping * (v ⬝ᵥ E *ᵥ v) := by
  have hpair : v ⬝ᵥ (Jᵀ * J + damping • E) *ᵥ v =
      J *ᵥ v ⬝ᵥ J *ᵥ v + damping * (v ⬝ᵥ E *ᵥ v) := by
    rw [add_mulVec, dotProduct_add, ← mulVec_mulVec, dotProduct_transpose_mulVec, smul_mulVec,
      dotProduct_smul, smul_eq_mul]
  rw [hv, dotProduct_neg] at hpair
  rw [dotProduct_add_self, ← dotProduct_transpose_mulVec, dotProduct_comm _ v]
  linarith

theorem square_lt_of_step {damping : ℝ} (hdamping : 0 < damping)
    (hv : (Jᵀ * J + damping • NormalSystem.scales (Jᵀ * J)) *ᵥ v = -(Jᵀ *ᵥ r))
    (hr : Jᵀ *ᵥ r ≠ 0) : (r + J *ᵥ v) ⬝ᵥ (r + J *ᵥ v) < r ⬝ᵥ r := by
  have hdown : (Jᵀ *ᵥ r) ⬝ᵥ v < 0 := dotProduct_neg_of_posDef (posDef_damped J hdamping) hv hr
  have hscales : 0 ≤ v ⬝ᵥ NormalSystem.scales (Jᵀ * J) *ᵥ v :=
    (posDef_scales (Jᵀ * J)).posSemidef.dotProduct_mulVec_nonneg v
  rw [square_of_step J hv]
  linarith [mul_nonneg hdamping.le hscales]

theorem square_le_of_stationary (hr : Jᵀ *ᵥ r = 0) (v : Fin n → ℝ) :
    r ⬝ᵥ r ≤ (r + J *ᵥ v) ⬝ᵥ (r + J *ᵥ v) := by
  have hsquare : 0 ≤ J *ᵥ v ⬝ᵥ J *ᵥ v := Finset.sum_nonneg fun i _ => mul_self_nonneg ((J *ᵥ v) i)
  rw [dotProduct_add_self, ← dotProduct_transpose_mulVec, hr, dotProduct_zero]
  linarith

end Squares

/-- Residuals `J c + r₀`, with a row of `J` and an entry of `r₀` for each. -/
structure LinearProblem where
  parameterCount : ℕ
  jacobian : List (List ℝ)
  offset : List ℝ
  row_length : ∀ row ∈ jacobian, row.length = parameterCount
  offset_length : offset.length = jacobian.length

namespace LinearProblem

variable (l : LinearProblem)

noncomputable def residuals (c : List ℝ) : List ℝ :=
  List.zipWith (fun row o => Scalar.dot row c + o) l.jacobian l.offset

noncomputable def cost (c : List ℝ) : ℝ := costOf (l.residuals c)

def matrix : Matrix (Fin l.jacobian.length) (Fin l.parameterCount) ℝ :=
  ofRows l.jacobian.length l.parameterCount l.jacobian

/-- The gradient `Jᵀ (J c + r₀)` of the cost. -/
noncomputable def gradient (c : List ℝ) : Fin l.parameterCount → ℝ :=
  l.matrixᵀ *ᵥ toVector l.jacobian.length (l.residuals c)

theorem length_residuals (c : List ℝ) : (l.residuals c).length = l.jacobian.length := by
  rw [residuals, List.length_zipWith, l.offset_length, min_self]

theorem toVector_residuals (c : List ℝ) :
    toVector l.jacobian.length (l.residuals c) =
      l.matrix *ᵥ toVector l.parameterCount c + toVector l.jacobian.length l.offset := by
  funext i
  have hi : (i : ℕ) < (l.residuals c).length := by
    rw [length_residuals]
    exact i.isLt
  have hoffset : (i : ℕ) < l.offset.length := by
    rw [l.offset_length]
    exact i.isLt
  have hrow : l.matrix i = toVector l.parameterCount l.jacobian[i] := by
    funext j
    change (l.jacobian.getD i []).getD j 0 = _
    rw [List.getD_eq_getElem _ _ i.isLt]
    rfl
  have hlength : l.jacobian[i].length ≤ l.parameterCount :=
    (l.row_length _ (List.getElem_mem i.isLt)).le
  have hvalue : (l.residuals c)[(i : ℕ)] =
      Scalar.dot l.jacobian[i] c + l.offset[(i : ℕ)] := List.getElem_zipWith
  rw [toVector, List.getD_eq_getElem _ _ hi, hvalue, dot_eq hlength, ← hrow, Pi.add_apply,
    toVector, List.getD_eq_getElem _ _ hoffset]
  rfl

theorem cost_eq (c : List ℝ) : l.cost c =
    1 / 2 * (toVector l.jacobian.length (l.residuals c) ⬝ᵥ
      toVector l.jacobian.length (l.residuals c)) :=
  costOf_eq (l.length_residuals c).le

theorem toVector_residuals_eq_add (c c' : List ℝ) {v : Fin l.parameterCount → ℝ}
    (h : toVector l.parameterCount c' = toVector l.parameterCount c + v) :
    toVector l.jacobian.length (l.residuals c') =
      toVector l.jacobian.length (l.residuals c) + l.matrix *ᵥ v := by
  rw [toVector_residuals, toVector_residuals, h, mulVec_add]
  abel

variable {l}

/-- Where the gradient vanishes the cost is least. -/
theorem cost_le_of_gradient_eq_zero {c : List ℝ} (h : l.gradient c = 0) (c' : List ℝ) :
    l.cost c ≤ l.cost c' := by
  have hc' := l.toVector_residuals_eq_add c c' (add_sub_cancel _ _).symm
  have hsquare := square_le_of_stationary l.matrix h
    (toVector l.parameterCount c' - toVector l.parameterCount c)
  rw [cost_eq, cost_eq, hc']
  linarith

/-- A damped step lowers the cost unless the gradient vanishes. -/
theorem cost_lt_of_step {c δ : List ℝ} {damping : ℝ} (hdamping : 0 < damping)
    (hlength : c.length = δ.length)
    (hδ : (l.matrixᵀ * l.matrix + damping • NormalSystem.scales (l.matrixᵀ * l.matrix)) *ᵥ
      toVector l.parameterCount δ = -l.gradient c)
    (h : l.gradient c ≠ 0) : l.cost (List.zipWith (· + ·) c δ) < l.cost c := by
  have hstep := l.toVector_residuals_eq_add c (List.zipWith (· + ·) c δ)
    (toVector_zipWith (add_zero 0) hlength)
  have hsquare := square_lt_of_step l.matrix hdamping hδ h
  rw [cost_eq, cost_eq, hstep]
  linarith

end LinearProblem

end SymbolicFit.LeastSquares
