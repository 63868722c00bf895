import Mathlib
import SymbolicFit.Proofs.Reflections

/-!
The damped normal equations over the reals. The damped Gram matrix is positive definite whatever the
Jacobian, so the step of an exact solver exists, is the only solution, and points downhill.
-/

namespace SymbolicFit

open Matrix

namespace NormalSystem

variable {n : ℕ} {jacobian : List (List ℝ)} {residuals : List ℝ}

theorem length_columns (n : ℕ) (rows : List (List ℝ)) : (columns n rows).length = n := by
  rw [columns, List.length_map, List.length_range]

theorem getD_map_columns {β : Type} (f : List ℝ → β) (d : β) (rows : List (List ℝ)) (i : Fin n) :
    ((columns n rows).map f).getD i d = f (rows.map (·.getD i 0)) := by
  have hi : (i : ℕ) < ((columns n rows).map f).length := by
    rw [List.length_map, length_columns]
    exact i.isLt
  rw [List.getD_eq_getElem _ _ hi]
  simp [columns]

/-- A column of the Jacobian. -/
theorem toVector_column (m : ℕ) (rows : List (List ℝ)) (i : Fin n) :
    toVector m (rows.map (·.getD i 0)) = fun k => ofRows m n rows k i := by
  funext k
  change (rows.map (·.getD i 0)).getD k (([] : List ℝ).getD i 0) = (rows.getD k []).getD i 0
  exact List.getD_map ..

theorem square_gram : Square n (ofJacobian n jacobian residuals).gram where
  length := by rw [ofJacobian, List.length_map, length_columns]
  columns := by
    intro c hc
    obtain ⟨c', -, rfl⟩ := List.mem_map.1 hc
    rw [List.length_map, length_columns]

theorem length_moment : (ofJacobian n jacobian residuals).moment.length = n := by
  rw [ofJacobian, List.length_map, length_columns]

theorem gram_eq : ofColumns n n (ofJacobian n jacobian residuals).gram =
    (ofRows jacobian.length n jacobian)ᵀ * ofRows jacobian.length n jacobian := by
  ext i j
  have hlength : (jacobian.map (·.getD i 0)).length ≤ jacobian.length := by rw [List.length_map]
  change (((ofJacobian n jacobian residuals).gram.getD j []).getD i 0 : ℝ) = _
  rw [ofJacobian, getD_map_columns, getD_map_columns, dot_eq hlength, toVector_column,
    toVector_column]
  rfl

theorem moment_eq : toVector n (ofJacobian n jacobian residuals).moment =
    (ofRows jacobian.length n jacobian)ᵀ *ᵥ toVector jacobian.length residuals := by
  funext i
  have hlength : (jacobian.map (·.getD i 0)).length ≤ jacobian.length := by rw [List.length_map]
  change ((ofJacobian n jacobian residuals).moment.getD i 0 : ℝ) = _
  rw [ofJacobian, getD_map_columns, dot_eq hlength, toVector_column]
  rfl

/-- What damping adds to the diagonal of a Gram matrix, for a damping of one. -/
noncomputable def scales {n : ℕ} (g : Matrix (Fin n) (Fin n) ℝ) : Matrix (Fin n) (Fin n) ℝ :=
  diagonal fun i => max (g i i) 1e-12

theorem damped_eq {s : NormalSystem ℝ} (hs : Square n s.gram) (damping : ℝ) :
    ofColumns n n (s.damped damping) =
      ofColumns n n s.gram + damping • scales (ofColumns n n s.gram) := by
  ext i j
  have hj : (j : ℕ) < s.gram.length := by
    rw [hs.length]
    exact j.isLt
  have hi : (i : ℕ) < s.gram[(j : ℕ)].length := by
    rw [hs.columns _ (List.getElem_mem hj)]
    exact i.isLt
  have hgram : ofColumns n n s.gram i j = s.gram[(j : ℕ)][(i : ℕ)] := by
    change (s.gram.getD j []).getD i 0 = _
    rw [List.getD_eq_getElem _ _ hj, List.getD_eq_getElem _ _ hi]
  have hcolumn : (s.damped damping).getD j [] =
      s.gram[(j : ℕ)].modify j fun d => d + damping * Scalar.greater d 1e-12 := by
    rw [damped, List.getD_eq_getElem _ _ (by rwa [List.length_mapIdx]), List.getElem_mapIdx]
  change ((s.damped damping).getD j []).getD i 0 = _
  rw [hcolumn, List.getD_eq_getElem _ _ (by rwa [List.length_modify]), List.getElem_modify,
    Matrix.add_apply, Matrix.smul_apply, scales, hgram]
  by_cases hij : i = j
  · subst hij
    rw [if_pos rfl, diagonal_apply_eq, hgram, greater_real]
    rfl
  · rw [if_neg fun h => hij (Fin.ext h.symm), diagonal_apply_ne _ hij, smul_zero, add_zero]

theorem square_damped {s : NormalSystem ℝ} (hs : Square n s.gram) (damping : ℝ) :
    Square n (s.damped damping) where
  length := by rw [damped, List.length_mapIdx, hs.length]
  columns := by
    intro c hc
    obtain ⟨i, hi, rfl⟩ := List.mem_mapIdx.1 hc
    rw [List.length_modify]
    exact hs.columns _ (List.getElem_mem hi)

end NormalSystem

section Definiteness

variable {m n : ℕ} (J : Matrix (Fin m) (Fin n) ℝ)

theorem posSemidef_gram : (Jᵀ * J).PosSemidef := by
  rw [← conjTranspose_eq_transpose_of_trivial]
  exact posSemidef_conjTranspose_mul_self J

theorem posDef_scales (g : Matrix (Fin n) (Fin n) ℝ) : (NormalSystem.scales g).PosDef := by
  refine .diagonal fun i => lt_max_of_lt_right ?_
  norm_num

variable {damping : ℝ} (hdamping : 0 < damping)
include hdamping

theorem posDef_damped : (Jᵀ * J + damping • NormalSystem.scales (Jᵀ * J)).PosDef :=
  PosDef.posSemidef_add (posSemidef_gram J) ((posDef_scales _).smul hdamping)

end Definiteness

section Solutions

variable {n : ℕ} {A : Matrix (Fin n) (Fin n) ℝ} {b v : Fin n → ℝ}

theorem mulVec_eq_iff_of_posDef (hA : A.PosDef) (hv : A *ᵥ v = b) (w : Fin n → ℝ) :
    A *ᵥ w = b ↔ w = v := by
  rw [← hv]
  exact (mulVec_injective_of_isUnit hA.isUnit).eq_iff

/-- The solution for a negated gradient points against the gradient. -/
theorem dotProduct_neg_of_posDef (hA : A.PosDef) (hv : A *ᵥ v = -b) (hb : b ≠ 0) :
    b ⬝ᵥ v < 0 := by
  have hne : v ≠ 0 := by
    rintro rfl
    rw [mulVec_zero] at hv
    exact hb (neg_eq_zero.1 hv.symm)
  have h := hA.dotProduct_mulVec_pos hne
  rw [star_trivial, hv, dotProduct_neg, dotProduct_comm] at h
  exact neg_pos.1 h

end Solutions

namespace LinearSolver

variable {solver : LinearSolver ℝ}

theorem step_of_direct {s : NormalSystem ℝ} {damping : ℝ} {δ : List ℝ}
    (h : solver.direct (s.damped damping) (s.moment.map (- ·)) = some δ) :
    solver.step s damping = some δ := by
  rw [step, h, Option.filter_some, if_pos (allFinite_real δ)]

/-- The direct solution of a damped system exists, and it is the step. -/
theorem Exact.exists_step (hsolver : solver.Exact) (n : ℕ) (jacobian : List (List ℝ))
    (residuals : List ℝ) {damping : ℝ} (hdamping : 0 < damping) :
    let J := ofRows jacobian.length n jacobian
    let s := NormalSystem.ofJacobian n jacobian residuals
    ∃ δ, solver.direct (s.damped damping) (s.moment.map (- ·)) = some δ ∧
      solver.step s damping = some δ ∧ δ.length = n ∧
      (Jᵀ * J + damping • NormalSystem.scales (Jᵀ * J)) *ᵥ toVector n δ =
        -(Jᵀ *ᵥ toVector jacobian.length residuals) := by
  intro J s
  have hsquare : Square n s.gram := NormalSystem.square_gram
  have hmatrix : ofColumns n n (s.damped damping) =
      Jᵀ * J + damping • NormalSystem.scales (Jᵀ * J) := by
    rw [NormalSystem.damped_eq hsquare, NormalSystem.gram_eq]
  have hlength : (s.moment.map (- ·)).length = n := by
    rw [List.length_map, NormalSystem.length_moment]
  have hdet : (ofColumns n n (s.damped damping)).det ≠ 0 := by
    rw [hmatrix]
    exact (posDef_damped J hdamping).det_pos.ne'
  obtain ⟨δ, hdirect, hδ, hsolves⟩ :=
    hsolver n _ _ (NormalSystem.square_damped hsquare damping) hlength hdet
  refine ⟨δ, hdirect, step_of_direct hdirect, hδ, ?_⟩
  rw [← hmatrix, hsolves, toVector_map neg_zero, NormalSystem.moment_eq]
  rfl

/-- Whatever the Jacobian, the damped matrix is symmetric and positive definite. Its system has one
solution, which the direct method finds and which is the step. The step points downhill, or is zero
where the gradient is. -/
theorem step_descends {solver : LinearSolver ℝ} (hsolver : solver.Exact) (n : ℕ)
    (jacobian : List (List ℝ)) (residuals : List ℝ) {damping : ℝ} (hdamping : 0 < damping) :
    let J := ofRows jacobian.length n jacobian
    let gradient := Jᵀ *ᵥ toVector jacobian.length residuals
    let A := Jᵀ * J + damping • diagonal fun i => max ((Jᵀ * J) i i) 1e-12
    let s := NormalSystem.ofJacobian n jacobian residuals
    ofColumns n n (s.damped damping) = A ∧ toVector n s.moment = gradient ∧
      A.IsSymm ∧ A.PosDef ∧
      ∃ δ, solver.direct (s.damped damping) (s.moment.map (- ·)) = some δ ∧
        solver.step s damping = some δ ∧ δ.length = n ∧
        (∀ v, A *ᵥ v = -gradient ↔ v = toVector n δ) ∧
        (gradient ≠ 0 → gradient ⬝ᵥ toVector n δ < 0) ∧
        (gradient = 0 → δ = List.replicate n 0) := by
  intro J gradient A s
  have hmatrix : ofColumns n n (s.damped damping) = A := by
    rw [NormalSystem.damped_eq NormalSystem.square_gram, NormalSystem.gram_eq]
    rfl
  have hA : A.PosDef := posDef_damped J hdamping
  obtain ⟨δ, hdirect, hstep, hδ, hsolves⟩ := hsolver.exists_step n jacobian residuals hdamping
  have hunique : ∀ v, A *ᵥ v = -gradient ↔ v = toVector n δ := mulVec_eq_iff_of_posDef hA hsolves
  have hsymm : A.IsSymm := (conjTranspose_eq_transpose_of_trivial A).symm.trans hA.isHermitian
  refine ⟨hmatrix, NormalSystem.moment_eq, hsymm, hA, δ, hdirect, hstep, hδ, hunique,
    dotProduct_neg_of_posDef hA hsolves, fun hzero => ?_⟩
  refine eq_replicate_of_toVector hδ ((hunique 0).1 ?_).symm
  rw [hzero, mulVec_zero, neg_zero]

/-- One row with two equal columns and a zero column. -/
theorem step_descends_wide :
    (orthogonal : LinearSolver ℝ).Exact ∧ (0 : ℝ) < 1 ∧
      ∃ δ, (orthogonal : LinearSolver ℝ).step (.ofJacobian 3 [[1, 1, 0]] [2]) 1 = some δ ∧
        toVector 3 δ = ![-2 / 3, -2 / 3, 0] ∧ ![2, 2, 0] ⬝ᵥ toVector 3 δ < 0 := by
  refine ⟨orthogonal_exact, one_pos, ?_⟩
  obtain ⟨-, -, -, -, δ, -, hstep, -, hunique, hdescends, -⟩ :=
    step_descends orthogonal_exact 3 [[1, 1, 0]] [2] one_pos
  have hJ : ofRows 1 3 [[1, 1, 0]] = !![1, 1, 0] := by
    ext i j
    fin_cases i
    fin_cases j <;> rfl
  have hr : toVector 1 [2] = ![2] := by
    ext i
    fin_cases i
    rfl
  have hgram : (ofRows 1 3 [[1, 1, 0]])ᵀ * ofRows 1 3 [[1, 1, 0]] =
      !![1, 1, 0; 1, 1, 0; 0, 0, 0] := by
    rw [hJ]
    ext i j
    fin_cases i <;> fin_cases j <;> simp [mul_apply]
  have hgradient : (ofRows 1 3 [[1, 1, 0]])ᵀ *ᵥ toVector 1 [2] = ![2, 2, 0] := by
    rw [hJ, hr]
    ext i
    fin_cases i <;> simp [mulVec, dotProduct]
  rw [List.length_singleton, hgradient] at hunique hdescends
  refine ⟨δ, hstep, ((hunique _).1 ?_).symm, hdescends fun h => two_ne_zero (congrFun h 0)⟩
  rw [hgram]
  ext i
  fin_cases i <;> simp [mulVec, dotProduct, Fin.sum_univ_three, diagonal] <;> norm_num

end LinearSolver

end SymbolicFit
