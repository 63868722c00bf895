import Mathlib
import SymbolicFit.NormalSystem
import SymbolicFit.Proofs.ExactArithmetic

/-!
Lists of reals as vectors and lists of columns as matrices, and what it means for a linear solver to
be exact on them.
-/

namespace SymbolicFit

open Matrix

/-- The entries of a list, continued by zeros. -/
def toVector (n : ℕ) (xs : List ℝ) : Fin n → ℝ := fun i => xs.getD i 0

/-- The matrix with the given columns, continued by zeros. -/
def ofColumns (m n : ℕ) (cs : List (List ℝ)) : Matrix (Fin m) (Fin n) ℝ :=
  .of fun i j => toVector m (cs.getD j []) i

/-- The matrix with the given rows, continued by zeros. -/
def ofRows (m n : ℕ) (rows : List (List ℝ)) : Matrix (Fin m) (Fin n) ℝ := (ofColumns n m rows)ᵀ

section Vectors

theorem toVector_nil (n : ℕ) : toVector n [] = 0 := rfl

theorem toVector_cons (n : ℕ) (x : ℝ) (xs : List ℝ) :
    toVector (n + 1) (x :: xs) = vecCons x (toVector n xs) := by
  funext i
  cases i using Fin.cases <;> rfl

theorem toVector_map {n : ℕ} {f : ℝ → ℝ} (hf : f 0 = 0) (xs : List ℝ) :
    toVector n (xs.map f) = f ∘ toVector n xs := by
  funext i
  simp only [toVector, Function.comp, List.getD_eq_getElem?_getD, List.getElem?_map]
  cases xs[(i : ℕ)]? <;> simp [hf]

theorem toVector_zipWith {n : ℕ} {f : ℝ → ℝ → ℝ} (hf : f 0 0 = 0) {xs ys : List ℝ}
    (h : xs.length = ys.length) :
    toVector n (List.zipWith f xs ys) = fun i => f (toVector n xs i) (toVector n ys i) := by
  induction n generalizing xs ys with
  | zero => exact funext fun i => i.elim0
  | succ n ih =>
    rcases xs with _ | ⟨x, xs⟩ <;> rcases ys with _ | ⟨y, ys⟩
    · exact funext fun _ => hf.symm
    · cases h
    · cases h
    · funext i
      rw [List.zipWith_cons_cons, toVector_cons, ih (Nat.succ.inj h), toVector_cons, toVector_cons]
      cases i using Fin.cases <;> rfl

theorem eq_replicate_of_toVector {n : ℕ} {xs : List ℝ} (h : xs.length = n)
    (hx : toVector n xs = 0) : xs = List.replicate n 0 := by
  refine List.eq_replicate_iff.2 ⟨h, fun x hmem => ?_⟩
  obtain ⟨i, hi, rfl⟩ := List.getElem_of_mem hmem
  rw [← List.getD_eq_getElem xs 0 hi]
  exact congrFun hx ⟨i, h ▸ hi⟩

/-- The product of two lists is that of their vectors. -/
theorem dot_eq {n : ℕ} {xs : List ℝ} (h : xs.length ≤ n) (ys : List ℝ) :
    Scalar.dot xs ys = toVector n xs ⬝ᵥ toVector n ys := by
  rw [Scalar.dot, ExactRing.sum_eq]
  induction n generalizing xs ys with
  | zero =>
    rw [List.eq_nil_of_length_eq_zero (Nat.le_zero.1 h)]
    rfl
  | succ n ih =>
    rcases xs with _ | ⟨x, xs⟩
    · rw [toVector_nil, zero_dotProduct]
      rfl
    · rcases ys with _ | ⟨y, ys⟩
      · rw [toVector_nil, dotProduct_zero]
        rfl
      · rw [toVector_cons, toVector_cons, cons_dotProduct_cons, ← ih (Nat.le_of_succ_le_succ h)]
        rfl

end Vectors

section Columns

theorem toVector_tail (n : ℕ) (xs : List ℝ) (i : Fin n) :
    toVector n xs.tail i = toVector (n + 1) xs i.succ := by
  cases xs <;> rfl

theorem toVector_headD (n : ℕ) (xs : List ℝ) : toVector (n + 1) xs 0 = xs.headD 0 := by
  cases xs <;> rfl

theorem ofColumns_map_tail (n k : ℕ) (cs : List (List ℝ)) (i : Fin n) (j : Fin k) :
    ofColumns (n + 1) k cs i.succ j = ofColumns n k (cs.map List.tail) i j := by
  change toVector (n + 1) (cs.getD j []) i.succ = toVector n ((cs.map List.tail).getD j []) i
  rw [← toVector_tail, List.getD_eq_getElem?_getD, List.getD_eq_getElem?_getD, List.getElem?_map]
  cases cs[(j : ℕ)]? <;> rfl

theorem ofColumns_zero (n k : ℕ) (cs : List (List ℝ)) (j : Fin k) :
    ofColumns (n + 1) k cs 0 j = toVector k (cs.map (·.headD 0)) j := by
  change toVector (n + 1) (cs.getD j []) 0 = (cs.map (·.headD 0)).getD j 0
  rw [toVector_headD, List.getD_eq_getElem?_getD, List.getD_eq_getElem?_getD, List.getElem?_map]
  cases cs[(j : ℕ)]? <;> rfl

end Columns

theorem allFinite_real (xs : List ℝ) : allFinite xs = true := List.all_eq_true.2 fun _ _ => rfl

/-- As many columns as each of them is long. -/
structure Square (n : ℕ) (cs : List (List ℝ)) : Prop where
  length : cs.length = n
  columns : ∀ c ∈ cs, c.length = n

/-- The normal equations are those of the exact products. -/
def LinearSolver.ExactProducts (solver : LinearSolver ℝ) : Prop :=
  ∀ n jacobian residuals, solver.products n jacobian residuals = .ofJacobian n jacobian residuals

/-- The direct solution is the solution of every non-singular system. -/
def LinearSolver.Exact (solver : LinearSolver ℝ) : Prop :=
  ∀ (n : ℕ) (a : List (List ℝ)) (b : List ℝ), Square n a → b.length = n →
    (ofColumns n n a).det ≠ 0 →
    ∃ x, solver.direct a b = some x ∧ x.length = n ∧
      ofColumns n n a *ᵥ toVector n x = toVector n b

end SymbolicFit
