import Mathlib
import SymbolicFit.Special
import SymbolicFit.Proofs.ExactArithmetic

/-!
The approximate error function over the reals. It stays between `-1` and `1`, and it is odd except
at zero, where it is not zero itself.
-/

namespace SymbolicFit.Special

/-- The approximation of the complementary error function at a number that is not negative. -/
def tail {α : Type} [Scalar α] (z : α) : α :=
  let t := 1 / (1 + 0.5 * z)
  let exponent := erfcCoefficients.foldr (fun c p => t * (c + p)) 0
  t * Scalar.exp (-z * z - 1.26551223 + exponent)

theorem erf_of_nonneg {x : ℝ} (hx : 0 ≤ x) : erf x = 1 - tail x := by
  have hz : Scalar.abs x = x := abs_of_nonneg hx
  rw [erf, erfc, hz]
  exact congrArg (1 - ·) (if_pos hx)

theorem erf_of_neg {x : ℝ} (hx : x < 0) : erf x = tail (-x) - 1 := by
  have hz : Scalar.abs x = -x := abs_of_neg hx
  have herfc : erfc x = 2.0 - tail (-x) := by
    rw [erfc, hz]
    exact if_neg (not_le.2 hx)
  rw [erf, herfc]
  norm_num
  ring

/-- Where the variable is a fraction, a Horner scheme is at most its sum with negative partial sums
cut off. -/
theorem horner_le {t : ℝ} (h0 : 0 ≤ t) (h1 : t ≤ 1) (cs : List ℝ) :
    cs.foldr (fun c p => t * (c + p)) 0 ≤ cs.foldr (fun c u => max 0 (c + u)) 0 := by
  induction cs with
  | nil => exact le_rfl
  | cons c cs ih =>
    rw [List.foldr_cons, List.foldr_cons]
    rcases le_total (c + cs.foldr (fun c p => t * (c + p)) 0) 0 with hneg | hpos
    · exact (mul_nonpos_of_nonneg_of_nonpos h0 hneg).trans (le_max_left _ _)
    · calc t * (c + cs.foldr (fun c p => t * (c + p)) 0)
          ≤ c + cs.foldr (fun c p => t * (c + p)) 0 := mul_le_of_le_one_left hpos h1
        _ ≤ c + cs.foldr (fun c u => max 0 (c + u)) 0 := by gcongr
        _ ≤ _ := le_max_right _ _

theorem exponent_le_log_two :
    (erfcCoefficients : List ℝ).foldr (fun c u => max 0 (c + u)) 0 - 1.26551223 ≤ Real.log 2 := by
  have hlog := Real.log_two_gt_d9
  simp only [erfcCoefficients, List.foldr_cons, List.foldr_nil]
  norm_num
  linarith

theorem tail_mem {z : ℝ} (hz : 0 ≤ z) : 0 < tail z ∧ tail z ≤ 2 := by
  have hhalf : (0 : ℝ) ≤ 0.5 * z := by positivity
  have hpos : (0 : ℝ) < 1 / (1 + 0.5 * z) := by positivity
  have hle : 1 / (1 + 0.5 * z) ≤ (1 : ℝ) := by
    rw [div_le_one (by positivity)]
    linarith
  have hhorner := horner_le hpos.le hle erfcCoefficients
  have hsquare : -z * z ≤ 0 := by
    rw [neg_mul]
    exact neg_nonpos.2 (mul_self_nonneg z)
  have hlog := exponent_le_log_two
  have hexponent : -z * z - 1.26551223 + (erfcCoefficients : List ℝ).foldr
      (fun c p => 1 / (1 + 0.5 * z) * (c + p)) 0 ≤ Real.log 2 := by linarith
  have hexp := Real.exp_le_exp.2 hexponent
  rw [Real.exp_log two_pos] at hexp
  constructor
  · exact mul_pos hpos (Real.exp_pos _)
  · calc tail z ≤ 1 * 2 := mul_le_mul hle hexp (Real.exp_pos _).le zero_le_one
      _ = 2 := one_mul 2

theorem tail_zero : tail (0 : ℝ) = Real.exp 3e-8 := by
  have hone : 1 / (1 + 0.5 * (0 : ℝ)) = 1 := by norm_num
  have hexponent : -(0 : ℝ) * 0 - 1.26551223 + (erfcCoefficients : List ℝ).foldr
      (fun c p => 1 / (1 + 0.5 * (0 : ℝ)) * (c + p)) 0 = 3e-8 := by
    rw [hone]
    simp only [erfcCoefficients, List.foldr_cons, List.foldr_nil]
    norm_num
  change 1 / (1 + 0.5 * (0 : ℝ)) * Real.exp _ = _
  rw [hexponent, hone, one_mul]

theorem erf_zero : erf (0 : ℝ) = 1 - Real.exp 3e-8 := by
  rw [erf_of_nonneg le_rfl, tail_zero]

theorem erf_zero_neg : erf (0 : ℝ) < 0 := by
  have hexp : 1 < Real.exp 3e-8 := Real.one_lt_exp_iff.2 (by norm_num)
  rw [erf_zero]
  linarith

theorem erf_neg_of_pos {x : ℝ} (hx : 0 < x) : erf (-x) = -erf x := by
  rw [erf_of_neg (neg_neg_of_pos hx), neg_neg, erf_of_nonneg hx.le, neg_sub]

theorem erf_bounded (x : ℝ) : -1 ≤ erf x ∧ erf x ≤ 1 := by
  rcases le_or_gt 0 x with hx | hx
  · obtain ⟨hpos, hle⟩ := tail_mem hx
    rw [erf_of_nonneg hx]
    constructor <;> linarith
  · obtain ⟨hpos, hle⟩ := tail_mem (neg_nonneg.2 hx.le)
    rw [erf_of_neg hx]
    constructor <;> linarith

/-- The approximation changes its sign with its variable exactly away from zero, and it never leaves
the interval from `-1` to `1`. -/
theorem erf_odd_bounded (x : ℝ) :
    (erf (-x) = -erf x ↔ x ≠ 0) ∧ -1 ≤ erf x ∧ erf x ≤ 1 := by
  refine ⟨⟨?_, fun hx => ?_⟩, erf_bounded x⟩
  · rintro h rfl
    have hneg := erf_zero_neg
    rw [neg_zero] at h
    linarith
  · rcases hx.lt_or_gt with hlt | hgt
    · have hreflected := erf_neg_of_pos (neg_pos.2 hlt)
      rw [neg_neg] at hreflected
      rw [hreflected, neg_neg]
    · exact erf_neg_of_pos hgt

/-- At zero the approximation is below zero, where an odd function is zero. -/
theorem erf_not_odd_at_zero :
    erf (0 : ℝ) = 1 - Real.exp 3e-8 ∧ erf (-0 : ℝ) ≠ -erf (0 : ℝ) := by
  refine ⟨erf_zero, fun h => ?_⟩
  have hneg := erf_zero_neg
  rw [neg_zero] at h
  linarith

end SymbolicFit.Special
