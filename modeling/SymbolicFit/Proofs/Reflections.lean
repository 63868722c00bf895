import Mathlib
import SymbolicFit.Orthogonal
import SymbolicFit.Proofs.ColumnMatrices

/-!
Solving by reflections is exact over the reals. A reflection takes the first column to a multiple of
the first axis and undoes itself, so the system below that column is non-singular when the whole one
is, and back substitution completes its solution.
-/

namespace SymbolicFit

open Matrix

namespace Reflector

/-- The matrix of the reflection. -/
noncomputable def matrix (n : ℕ) (h : Reflector ℝ) : Matrix (Fin n) (Fin n) ℝ :=
  h.sign • (1 - 2 • vecMulVec (toVector n h.axis) (toVector n h.axis))

theorem matrix_mulVec (n : ℕ) (h : Reflector ℝ) (v : Fin n → ℝ) :
    h.matrix n *ᵥ v =
      h.sign • (v - (2 * (toVector n h.axis ⬝ᵥ v)) • toVector n h.axis) := by
  rw [matrix, smul_mulVec, sub_mulVec, one_mulVec, smul_mulVec, vecMulVec_mulVec,
    op_smul_eq_smul, mul_smul, two_smul, two_smul]

theorem toVector_apply {n : ℕ} {h : Reflector ℝ} {xs : List ℝ} (ha : h.axis.length = n)
    (hx : xs.length = n) : toVector n (h.apply xs) = h.matrix n *ᵥ toVector n xs := by
  have htwo : (-2.0 : ℝ) = -2 := by norm_num
  unfold apply
  dsimp only
  rw [toVector_zipWith (by rw [mul_zero, mul_zero, add_zero]) (hx.trans ha.symm), dot_eq ha.le,
    matrix_mulVec, htwo]
  funext i
  simp only [Pi.smul_apply, Pi.sub_apply, smul_eq_mul]
  ring

theorem length_apply {n : ℕ} {h : Reflector ℝ} {xs : List ℝ} (ha : h.axis.length = n)
    (hx : xs.length = n) : (h.apply xs).length = n := by
  rw [apply, List.length_zipWith, hx, ha, min_self]

/-- A sign, and an axis of length one or zero. -/
structure Unitary (n : ℕ) (h : Reflector ℝ) : Prop where
  sign : h.sign * h.sign = 1
  axis : toVector n h.axis ⬝ᵥ toVector n h.axis = 1 ∨ toVector n h.axis = 0

/-- A reflection undoes itself. -/
theorem Unitary.matrix_mul_matrix {n : ℕ} {h : Reflector ℝ} (hh : h.Unitary n) :
    h.matrix n * h.matrix n = 1 := by
  have hsquare : (1 - 2 • vecMulVec (toVector n h.axis) (toVector n h.axis)) *
      (1 - 2 • vecMulVec (toVector n h.axis) (toVector n h.axis)) = 1 := by
    rcases hh.axis with ha | ha
    · rw [sub_mul, one_mul, mul_sub, mul_one, smul_mul_smul_comm, vecMulVec_mul_vecMulVec, ha,
        one_smul]
      module
    · rw [ha, vecMulVec_zero, smul_zero, sub_zero, mul_one]
  rw [matrix, smul_mul_smul_comm, hh.sign, hsquare, one_smul]

theorem Unitary.det_ne_zero {n : ℕ} {h : Reflector ℝ} (hh : h.Unitary n) :
    (h.matrix n).det ≠ 0 := by
  have hself := congrArg det hh.matrix_mul_matrix
  rw [det_mul, det_one] at hself
  exact left_ne_zero_of_mul (hself ▸ one_ne_zero)

/-- A unitary reflection that takes a column to a multiple of the first axis. -/
structure Clears (n : ℕ) (c : List ℝ) (h : Reflector ℝ) (norm : ℝ) : Prop where
  length : h.axis.length = n + 1
  unitary : h.Unitary (n + 1)
  image : h.matrix (n + 1) *ᵥ toVector (n + 1) c = vecCons norm 0

theorem toVector_scaleDown (n : ℕ) (k : ℝ) (xs : List ℝ) :
    toVector n (scaleDown k xs) = k⁻¹ • toVector n xs := by
  rw [scaleDown, toVector_map (zero_div k)]
  funext i
  exact div_eq_inv_mul _ _

theorem normalized_of_dot_eq_one {xs : List ℝ} (h : Scalar.dot xs xs = 1) :
    normalized xs = xs := by
  have hroot : Scalar.sqrt (Scalar.dot xs xs) = 1 := by
    rw [h]
    exact Real.sqrt_one
  rw [normalized, hroot, scaleDown]
  simp only [div_one, List.map_id']

section Column

variable {n : ℕ} {x : ℝ} {rest : List ℝ} {sign norm : ℝ}

/-- The products of the axis between a column and the first axis, before it is scaled. -/
theorem axis_dotProduct (hs : sign * sign = 1) (hx : sign * x = |x|)
    (hn : norm * norm = x * x + toVector n rest ⬝ᵥ toVector n rest) :
    toVector (n + 1) ((x + sign * norm) :: rest) ⬝ᵥ toVector (n + 1) ((x + sign * norm) :: rest) =
        (norm * norm + |x| * norm) * 2 ∧
      toVector (n + 1) ((x + sign * norm) :: rest) ⬝ᵥ toVector (n + 1) (x :: rest) =
        norm * norm + |x| * norm := by
  rw [toVector_cons, toVector_cons, cons_dotProduct_cons, cons_dotProduct_cons, ← hx]
  constructor
  · linear_combination norm * norm * hs - hn
  · linear_combination -hn

/-- A column of zeros is left alone. -/
theorem clears_of_eq_zero (hl : rest.length = n)
    (haxis : toVector (n + 1) ((x + sign * norm) :: rest) = 0)
    (hcolumn : toVector (n + 1) (x :: rest) = 0) (hn : norm = 0) :
    Clears n (x :: rest) ⟨(x + sign * norm) :: rest, 1⟩ norm where
  length := congrArg Nat.succ hl
  unitary := ⟨one_mul 1, .inr haxis⟩
  image := by
    rw [hcolumn, mulVec_zero, hn]
    exact (cons_zero_zero).symm

theorem clears_of_axis (hl : rest.length = n) (hs : sign * sign = 1) (hx : sign * x = |x|)
    (hn : norm * norm = x * x + toVector n rest ⬝ᵥ toVector n rest)
    (hfactor : 0 < (norm * norm + |x| * norm) * 2) :
    Clears n (x :: rest)
      ⟨normalized (scaleDown √((norm * norm + |x| * norm) * 2) ((x + sign * norm) :: rest)),
        -sign⟩ norm := by
  obtain ⟨hself, hcolumn⟩ := axis_dotProduct hs hx hn
  set factor := (norm * norm + |x| * norm) * 2
  have hroot : √factor * √factor = factor := Real.mul_self_sqrt hfactor.le
  have hroot' : √factor ≠ 0 := (Real.sqrt_pos.2 hfactor).ne'
  have hlength : (scaleDown √factor ((x + sign * norm) :: rest)).length = n + 1 := by
    rw [scaleDown, List.length_map, List.length_cons, hl]
  have hunit : toVector (n + 1) (scaleDown √factor ((x + sign * norm) :: rest)) ⬝ᵥ
      toVector (n + 1) (scaleDown √factor ((x + sign * norm) :: rest)) = 1 := by
    rw [toVector_scaleDown, smul_dotProduct, dotProduct_smul, hself, smul_eq_mul, smul_eq_mul]
    field_simp
    rw [sq, hroot]
  rw [normalized_of_dot_eq_one ((dot_eq hlength.le _).trans hunit)]
  refine ⟨hlength, ⟨(neg_mul_neg sign sign).trans hs, .inl hunit⟩, ?_⟩
  have hone : 2 * ((√factor)⁻¹ • (norm * norm + |x| * norm)) * (√factor)⁻¹ = 1 := by
    rw [smul_eq_mul]
    field_simp
    rw [sq, hroot]
    change 2 * norm * (norm + |x|) = (norm * norm + |x| * norm) * 2
    ring
  rw [matrix_mulVec, toVector_scaleDown, smul_dotProduct, hcolumn, smul_smul, hone, one_smul,
    toVector_cons, toVector_cons, cons_sub_cons, sub_self, smul_cons, smul_zero]
  congr 1
  rw [smul_eq_mul]
  linear_combination norm * hs

end Column

theorem exists_sign (x : ℝ) :
    ∃ sign : ℝ, (if 0 ≤ x then 1 else -1) = sign ∧ sign * sign = 1 ∧ sign * x = |x| := by
  by_cases h : 0 ≤ x
  · exact ⟨1, if_pos h, one_mul 1, by rw [one_mul, abs_of_nonneg h]⟩
  · exact ⟨-1, if_neg h, by norm_num, by rw [neg_one_mul, abs_of_neg (not_le.1 h)]⟩

/-- The reflector of a column, by its sign and its norm. -/
theorem exists_ofColumn {n : ℕ} (x : ℝ) {rest : List ℝ} (hl : rest.length = n) :
    ∃ sign norm : ℝ, sign * sign = 1 ∧ sign * x = |x| ∧ 0 ≤ norm ∧
      norm * norm = x * x + toVector n rest ⬝ᵥ toVector n rest ∧
      ofColumn (x :: rest) =
        if (norm * norm + |x| * norm) * 2 = 0 then (⟨(x + sign * norm) :: rest, 1⟩, norm)
        else (⟨normalized (scaleDown √((norm * norm + |x| * norm) * 2)
          ((x + sign * norm) :: rest)), -sign⟩, norm) := by
  have htwo : (2.0 : ℝ) = 2 := by norm_num
  have hdot : Scalar.dot (x :: rest) (x :: rest) =
      x * x + toVector n rest ⬝ᵥ toVector n rest := by
    rw [dot_eq (congrArg Nat.succ hl).le, toVector_cons, cons_dotProduct_cons]
  have hnonneg : 0 ≤ Scalar.dot (x :: rest) (x :: rest) := by
    rw [hdot]
    exact add_nonneg (mul_self_nonneg x) (Fintype.sum_nonneg fun i => mul_self_nonneg _)
  have hroot : √(Scalar.dot (x :: rest) (x :: rest)) * √(Scalar.dot (x :: rest) (x :: rest)) =
      Scalar.dot (x :: rest) (x :: rest) := Real.mul_self_sqrt hnonneg
  obtain ⟨sign, hsign, hs, hx⟩ := exists_sign x
  refine ⟨sign, √(Scalar.dot (x :: rest) (x :: rest)), hs, hx, Real.sqrt_nonneg _,
    hroot.trans hdot, ?_⟩
  rw [hroot]
  unfold ofColumn
  dsimp only
  rw [hsign, htwo]
  simp only [ExactRing.beq_iff_eq]
  rfl

theorem clears_ofColumn {n : ℕ} {c : List ℝ} (hc : c.length = n + 1) :
    Clears n c (ofColumn c).1 (ofColumn c).2 := by
  rcases c with _ | ⟨x, rest⟩
  · cases hc
  have hl : rest.length = n := Nat.succ.inj hc
  obtain ⟨sign, norm, hs, hx, hpos, hn, hcolumn⟩ := exists_ofColumn x hl
  have hfactor : 0 ≤ (norm * norm + |x| * norm) * 2 := by positivity
  rw [hcolumn]
  split_ifs with hzero
  · have hnorm : norm = 0 := by nlinarith [abs_nonneg x, mul_nonneg (abs_nonneg x) hpos]
    refine clears_of_eq_zero hl ?_ ?_ hnorm
    · rw [← dotProduct_self_eq_zero, (axis_dotProduct hs hx hn).1, hzero]
    · rw [← dotProduct_self_eq_zero, toVector_cons, cons_dotProduct_cons, ← hn, hnorm, mul_zero]
  · exact clears_of_axis hl hs hx hn (hfactor.lt_of_ne' hzero)

variable {n : ℕ} {h : Reflector ℝ}

theorem ofColumns_map_apply (ha : h.axis.length = n) (k : ℕ) {cs : List (List ℝ)}
    (hcs : ∀ c ∈ cs, c.length = n) :
    ofColumns n k (cs.map h.apply) = h.matrix n * ofColumns n k cs := by
  ext i j
  change toVector n ((cs.map h.apply).getD j []) i = (h.matrix n *ᵥ toVector n (cs.getD j [])) i
  rw [List.getD_eq_getElem?_getD, List.getD_eq_getElem?_getD, List.getElem?_map]
  cases hj : cs[(j : ℕ)]? with
  | none =>
    change _ = (h.matrix n *ᵥ toVector n []) i
    rw [toVector_nil, mulVec_zero]
    rfl
  | some c => exact congrFun (toVector_apply ha (hcs c (List.mem_of_getElem? hj))) i

/-- Below a cleared column only the smaller system is left. -/
theorem det_of_cleared {m : Matrix (Fin (n + 1)) (Fin (n + 1)) ℝ} {norm : ℝ}
    (hm : ∀ i, m i 0 = vecCons norm 0 i) :
    m.det = norm * (m.submatrix Fin.succ Fin.succ).det := by
  rw [det_succ_column_zero, Fin.sum_univ_succ, hm, Fin.succAbove_zero, Finset.sum_eq_zero]
  · simp
  · intro i _
    rw [hm, cons_val_succ, Pi.zero_apply, mul_zero, zero_mul]

theorem foldr_sub (ks : List ℝ) (b : ℝ) : ks.foldr (fun k r => r - k) b = b - ks.sum := by
  induction ks with
  | nil => simp
  | cons k ks ih =>
    rw [List.foldr_cons, ih, List.sum_cons]
    ring

/-- Back substitution: the first entry follows from the others. -/
theorem mulVec_of_cleared {m : Matrix (Fin (n + 1)) (Fin (n + 1)) ℝ} {norm : ℝ}
    (hm : ∀ i, m i 0 = vecCons norm 0 i) (hnorm : norm ≠ 0) {v : Fin n → ℝ}
    {b : Fin (n + 1) → ℝ} (hv : m.submatrix Fin.succ Fin.succ *ᵥ v = fun i => b i.succ) :
    m *ᵥ vecCons ((b 0 - (fun j => m 0 (Fin.succ j)) ⬝ᵥ v) / norm) v = b := by
  funext i
  rw [mulVec, dotProduct, Fin.sum_univ_succ, cons_val_zero, hm]
  cases i using Fin.cases with
  | zero =>
    rw [cons_val_zero, mul_div_cancel₀ _ hnorm]
    exact sub_add_cancel _ _
  | succ i =>
    rw [cons_val_succ, Pi.zero_apply, zero_mul, zero_add]
    exact congrFun hv i

theorem Unitary.mulVec_cancel (hh : h.Unitary n) {m : Matrix (Fin n) (Fin n) ℝ}
    {v b : Fin n → ℝ} (hv : (h.matrix n * m) *ᵥ v = h.matrix n *ᵥ b) : m *ᵥ v = b := by
  have hundo := congrArg (h.matrix n *ᵥ ·) hv
  simpa only [mulVec_mulVec, ← Matrix.mul_assoc, hh.matrix_mul_matrix, one_mulVec, one_mul]
    using hundo

theorem solve_cons {c : List ℝ} {cs : List (List ℝ)} {b x : List ℝ} {norm : ℝ}
    (hc : ofColumn c = (h, norm)) (hnorm : norm ≠ 0)
    (hx : solve ((cs.map h.apply).map List.tail) (h.apply b).tail = some x) :
    solve (c :: cs) b = some (((h.apply b).headD 0 -
      Scalar.dot ((cs.map h.apply).map (·.headD 0)) x) / norm :: x) := by
  have hzero : ¬(norm == 0) = true := mt (ExactRing.beq_iff_eq _ _).1 hnorm
  rw [solve]
  dsimp only
  rw [hc]
  dsimp only
  rw [hx]
  dsimp only [Option.bind_eq_bind, Option.bind_some]
  rw [if_neg hzero, foldr_sub, Scalar.dot, ExactRing.sum_eq]
  simp only [List.zipWith_map_left]
  rfl

section Reduction

variable {c : List ℝ} {cs : List (List ℝ)} {norm : ℝ}

/-- The columns of the system below a cleared column. -/
noncomputable def below (h : Reflector ℝ) (cs : List (List ℝ)) : List (List ℝ) :=
  (cs.map h.apply).map List.tail

theorem square_below (ha : h.axis.length = n + 1) (hcs : Square (n + 1) (c :: cs)) :
    Square n (h.below cs) where
  length := by
    rw [below, List.length_map, List.length_map]
    exact Nat.succ.inj hcs.length
  columns := by
    intro c' hc'
    obtain ⟨c'', hc'', rfl⟩ := List.mem_map.1 hc'
    obtain ⟨c₀, hc₀, rfl⟩ := List.mem_map.1 hc''
    rw [List.length_tail, length_apply ha (hcs.columns c₀ (List.mem_cons_of_mem _ hc₀)),
      Nat.add_sub_cancel]

variable (hcs : Square (n + 1) (c :: cs)) (hclears : Clears n c h norm)
include hclears

theorem Clears.reflected_zero (i : Fin (n + 1)) :
    (h.matrix (n + 1) * ofColumns (n + 1) (n + 1) (c :: cs)) i 0 = vecCons norm 0 i :=
  congrFun hclears.image i

include hcs

theorem Clears.reflected_succ (i : Fin (n + 1)) (j : Fin n) :
    (h.matrix (n + 1) * ofColumns (n + 1) (n + 1) (c :: cs)) i j.succ =
      ofColumns (n + 1) n (cs.map h.apply) i j := by
  have hlength : ∀ c' ∈ cs, c'.length = n + 1 := fun c' hc' =>
    hcs.columns c' (List.mem_cons_of_mem _ hc')
  rw [ofColumns_map_apply hclears.length n hlength]
  rfl

theorem Clears.submatrix_reflected :
    (h.matrix (n + 1) * ofColumns (n + 1) (n + 1) (c :: cs)).submatrix Fin.succ Fin.succ =
      ofColumns n n (h.below cs) := by
  ext i j
  rw [submatrix_apply, hclears.reflected_succ hcs, ofColumns_map_tail]
  rfl

theorem Clears.det_reflected :
    (h.matrix (n + 1) * ofColumns (n + 1) (n + 1) (c :: cs)).det =
      norm * (ofColumns n n (h.below cs)).det := by
  rw [det_of_cleared hclears.reflected_zero, hclears.submatrix_reflected hcs]

/-- A solution below the cleared column extends to one of the whole system. -/
theorem Clears.mulVec_cons {b x : List ℝ} (hb : b.length = n + 1) (hnorm : norm ≠ 0)
    (hx : ofColumns n n (h.below cs) *ᵥ toVector n x = toVector n (h.apply b).tail) :
    ofColumns (n + 1) (n + 1) (c :: cs) *ᵥ toVector (n + 1) (((h.apply b).headD 0 -
      Scalar.dot ((cs.map h.apply).map (·.headD 0)) x) / norm :: x) = toVector (n + 1) b := by
  have hcount : ((cs.map h.apply).map (·.headD 0)).length ≤ n := by
    rw [List.length_map, List.length_map, Nat.succ.inj hcs.length]
  have hheads : toVector n ((cs.map h.apply).map (·.headD 0)) =
      fun j => (h.matrix (n + 1) * ofColumns (n + 1) (n + 1) (c :: cs)) 0 j.succ := by
    funext j
    rw [hclears.reflected_succ hcs, ofColumns_zero]
  refine hclears.unitary.mulVec_cancel ?_
  rw [← toVector_apply hclears.length hb, toVector_cons, ← toVector_headD n, dot_eq hcount, hheads]
  refine mulVec_of_cleared hclears.reflected_zero hnorm ?_
  rw [hclears.submatrix_reflected hcs, hx]
  exact funext fun i => toVector_tail n _ i

end Reduction

/-- Reflections solve every non-singular system. -/
theorem solve_exact (a : List (List ℝ)) (b : List ℝ) (ha : Square n a) (hb : b.length = n)
    (hdet : (ofColumns n n a).det ≠ 0) : ∃ x, solve a b = some x ∧ x.length = n ∧
      ofColumns n n a *ᵥ toVector n x = toVector n b := by
  induction n generalizing a b with
  | zero =>
    obtain rfl := List.eq_nil_of_length_eq_zero ha.length
    refine ⟨[], ?_, rfl, funext fun i => i.elim0⟩
    rw [solve]
  | succ n ih =>
    rcases a with _ | ⟨c, cs⟩
    · cases ha.length
    rcases hr : ofColumn c with ⟨h, norm⟩
    have hclears : Clears n c h norm := by
      have := clears_ofColumn (ha.columns c List.mem_cons_self)
      rwa [hr] at this
    have hreflected : (h.matrix (n + 1) * ofColumns (n + 1) (n + 1) (c :: cs)).det ≠ 0 := by
      rw [det_mul]
      exact mul_ne_zero hclears.unitary.det_ne_zero hdet
    rw [hclears.det_reflected ha] at hreflected
    have hnorm : norm ≠ 0 := left_ne_zero_of_mul hreflected
    have htail : (h.apply b).tail.length = n := by
      rw [List.length_tail, length_apply hclears.length hb, Nat.add_sub_cancel]
    obtain ⟨x, hx, hlength, hsolves⟩ :=
      ih _ _ (square_below hclears.length ha) htail (right_ne_zero_of_mul hreflected)
    exact ⟨_, solve_cons hr hnorm hx, congrArg Nat.succ hlength,
      hclears.mulVec_cons ha hb hnorm hsolves⟩

end Reflector

theorem LinearSolver.orthogonal_products : (orthogonal : LinearSolver ℝ).ExactProducts :=
  fun _ _ _ => rfl

theorem LinearSolver.orthogonal_exact : (orthogonal : LinearSolver ℝ).Exact :=
  fun _ a b ha hb hdet => Reflector.solve_exact a b ha hb hdet

end SymbolicFit
