import Mathlib
import SymbolicFit.Primitive
import SymbolicFit.Proofs.ExactArithmetic

/-!
The closed-form derivatives over the reals. Where a primitive operation is smooth, its table holds
the derivative of the operation, except for the power whose exponent wraps around when it is
lowered; the entry of the approximate error function is the derivative of the exact one.
-/

namespace SymbolicFit

namespace Special

variable {x : ℝ}

/-- The error function as an integral. -/
noncomputable def exactErf (x : ℝ) : ℝ := 2.0 / √Real.pi * ∫ t in (0 : ℝ)..x, Real.exp (-t * t)

theorem hasDerivAt_exactErf (x : ℝ) : HasDerivAt exactErf (erfDerivative x) x := by
  have hc : Continuous fun t : ℝ => Real.exp (-t * t) := by fun_prop
  exact (intervalIntegral.integral_hasDerivAt_right (hc.intervalIntegrable 0 x)
    (hc.stronglyMeasurableAtFilter _ _) hc.continuousAt).const_mul (2.0 / √Real.pi)

theorem hasDerivAt_normalDensity (x : ℝ) :
    HasDerivAt (normalDensity : ℝ → ℝ) (-x * normalDensity x) x := by
  have hexponent : HasDerivAt (fun t : ℝ => -(t * t) / 2.0) (-x) x := by
    refine (((hasDerivAt_id x).mul (hasDerivAt_id x)).neg.div_const 2.0).congr_deriv ?_
    norm_num [id]
  refine (hexponent.exp.const_mul (1 / √(2.0 * Real.pi))).congr_deriv ?_
  change _ = -x * (1 / √(2.0 * Real.pi) * Real.exp (-(x * x) / 2.0))
  ring

theorem hasDerivAt_nthRoot {n : Int32} (hn : n ≠ 0) (hx : 0 < x) :
    HasDerivAt (nthRoot · n) (nthRoot x n / (n.toInt * x)) x := by
  have hn' : (n.toInt : ℝ) ≠ 0 := Int.cast_ne_zero.2 fun h => hn (Int32.toInt_inj.1 h)
  refine (Real.hasDerivAt_rpow_const (.inl hx.ne')).congr_deriv ?_
  change 1 / (n.toInt : ℝ) * x ^ (1 / (n.toInt : ℝ) - 1) = x ^ (1 / (n.toInt : ℝ)) / (n.toInt * x)
  rw [Real.rpow_sub_one hx.ne']
  field_simp

end Special

namespace Elementary

variable {x : ℝ}

/-- Where an elementary function is differentiable. The error function is left out because it is
computed by an approximation. -/
def SmoothAt : Elementary → ℝ → Prop
  | log, x | sqrt, x => 0 < x
  | cbrt, x | abs, x => x ≠ 0
  | tan, x => Real.cos x ≠ 0
  | erf, _ => False
  | exp, _ | square, _ | cube, _ | sin, _ | cos, _ | tanh, _ | normal, _ => True

theorem hasDerivAt_sqrt (hx : 0 < x) : HasDerivAt Real.sqrt (0.5 / √x) x := by
  have hroot : √x ≠ 0 := (Real.sqrt_pos.2 hx).ne'
  refine (Real.hasDerivAt_sqrt hx.ne').congr_deriv ?_
  field_simp
  norm_num

theorem cbrt_of_pos (hx : 0 < x) : Scalar.cbrt x = Special.nthRoot x 3 := by
  change (if 0 ≤ x then x ^ (1 / 3 : ℝ) else -(-x) ^ (1 / 3 : ℝ)) = x ^ (1 / ((3 : ℤ) : ℝ))
  rw [if_pos hx.le, Int.cast_ofNat]

theorem cbrt_of_neg (hx : x < 0) : Scalar.cbrt x = -Scalar.cbrt (-x) := by
  change (if 0 ≤ x then x ^ (1 / 3 : ℝ) else -(-x) ^ (1 / 3 : ℝ)) =
    -(if 0 ≤ -x then (-x) ^ (1 / 3 : ℝ) else -(- -x) ^ (1 / 3 : ℝ))
  rw [if_neg (not_le.2 hx), if_pos (neg_nonneg.2 hx.le)]

theorem hasDerivAt_cbrt_of_pos (hx : 0 < x) :
    HasDerivAt (Scalar.cbrt : ℝ → ℝ) (1 / (3.0 * Scalar.cbrt x * Scalar.cbrt x)) x := by
  have hroot : 0 < Special.nthRoot x 3 := Real.rpow_pos_of_pos hx _
  have hcube : Special.nthRoot x 3 ^ 3 = x := by
    change (x ^ (1 / ((3 : ℤ) : ℝ))) ^ 3 = x
    rw [← Real.rpow_mul_natCast hx.le]
    norm_num
  have hnear : Scalar.cbrt =ᶠ[nhds x] (Special.nthRoot · 3) :=
    (lt_mem_nhds hx).mono fun t ht => cbrt_of_pos ht
  refine ((Special.hasDerivAt_nthRoot (by decide) hx).congr_of_eventuallyEq hnear).congr_deriv ?_
  have hthree : (3.0 : ℝ) = 3 := by norm_num
  have horder : (((3 : Int32).toInt : ℤ) : ℝ) = 3 := Int.cast_ofNat 3
  rw [cbrt_of_pos hx, hthree, horder, div_eq_div_iff (by positivity) (by positivity)]
  linear_combination 3 * hcube

/-- The cube root is odd, so its derivative is even. -/
theorem hasDerivAt_cbrt (hx : x ≠ 0) :
    HasDerivAt (Scalar.cbrt : ℝ → ℝ) (1 / (3.0 * Scalar.cbrt x * Scalar.cbrt x)) x := by
  rcases hx.lt_or_gt with hlt | hgt
  · have hnear : Scalar.cbrt =ᶠ[nhds x] fun t => -Scalar.cbrt (-t) :=
      (gt_mem_nhds hlt).mono fun t ht => cbrt_of_neg ht
    have hodd := ((hasDerivAt_cbrt_of_pos (neg_pos.2 hlt)).comp x (hasDerivAt_neg x)).neg
    refine (hodd.congr_of_eventuallyEq hnear).congr_deriv ?_
    rw [cbrt_of_neg hlt, mul_neg_one, neg_neg, mul_neg, mul_neg, neg_mul, neg_neg]
  · exact hasDerivAt_cbrt_of_pos hgt

theorem hasDerivAt_tan (hx : Real.cos x ≠ 0) :
    HasDerivAt Real.tan (1 + Real.tan x * Real.tan x) x := by
  refine (Real.hasDerivAt_tan hx).congr_deriv ?_
  rw [← sq, one_div, ← Real.inv_one_add_tan_sq hx, inv_inv]

theorem hasDerivAt_tanh (x : ℝ) : HasDerivAt Real.tanh (1 - Real.tanh x * Real.tanh x) x := by
  have hcosh : Real.cosh x ≠ 0 := (Real.cosh_pos x).ne'
  have hquotient : Real.tanh = fun t => Real.sinh t / Real.cosh t :=
    funext Real.tanh_eq_sinh_div_cosh
  rw [hquotient]
  refine ((Real.hasDerivAt_sinh x).div (Real.hasDerivAt_cosh x) hcosh).congr_deriv ?_
  field_simp

theorem hasDerivAt_abs (hx : x ≠ 0) : HasDerivAt (fun t : ℝ => |t|) (abs.derivative x |x|) x := by
  have hzero : ¬(x == 0) = true := fun h => hx ((ExactRing.beq_iff_eq x 0).1 h)
  rw [derivative, if_neg hzero]
  rcases hx.lt_or_gt with hlt | hgt
  · rw [if_pos hlt]
    exact hasDerivAt_abs_neg hlt
  · rw [if_neg (not_lt.2 hgt.le), if_pos hgt]
    exact hasDerivAt_abs_pos hgt

theorem hasDerivAt_apply (f : Elementary) (hx : f.SmoothAt x) :
    HasDerivAt f.apply (f.derivative x (f.apply x)) x := by
  cases f with
  | log => exact (Real.hasDerivAt_log hx.ne').congr_deriv (one_div x).symm
  | exp => exact Real.hasDerivAt_exp x
  | sqrt => exact hasDerivAt_sqrt hx
  | cbrt => exact hasDerivAt_cbrt hx
  | square =>
    refine ((hasDerivAt_id x).mul (hasDerivAt_id x)).congr_deriv ?_
    change 1 * x + x * 1 = (2.0 : ℝ) * x
    norm_num
    ring
  | cube =>
    refine (((hasDerivAt_id x).mul (hasDerivAt_id x)).mul (hasDerivAt_id x)).congr_deriv ?_
    change (1 * x + x * 1) * x + x * x * 1 = (3.0 : ℝ) * x * x
    norm_num
    ring
  | sin => exact Real.hasDerivAt_sin x
  | cos => exact Real.hasDerivAt_cos x
  | tan => exact hasDerivAt_tan hx
  | tanh => exact hasDerivAt_tanh x
  | erf => exact hx.elim
  | normal => exact Special.hasDerivAt_normalDensity x
  | abs => exact hasDerivAt_abs hx

end Elementary

namespace UnaryOp

def SmoothAt : UnaryOp → ℝ → Prop
  | neg, _ => True
  | recip, x => x ≠ 0
  | elementary f, x => f.SmoothAt x
  | power n, x => x ≠ 0 ∨ 0 ≤ n
  | root n, x => n ≠ 0 ∧ 0 < x

variable {x : ℝ}

theorem toInt_sub_one {n : Int32} (hn : n ≠ Int32.minValue) : (n - 1).toInt = n.toInt - 1 := by
  have hmin : Int32.minValue.toInt = -2147483648 := rfl
  have hne : n.toInt ≠ Int32.minValue.toInt := fun h => hn (Int32.toInt_inj.1 h)
  have hlow := n.le_toInt
  have hhigh := n.toInt_lt
  rw [Int32.toInt_sub]
  exact Int.bmod_eq_of_le (by change -2147483648 ≤ n.toInt - 1; omega)
    (by change n.toInt - 1 < 2147483648; omega)

theorem hasDerivAt_apply_power {n : Int32} (hx : x ≠ 0 ∨ 0 ≤ n) :
    HasDerivAt (power n).apply (n.toInt * x ^ (n.toInt - 1)) x := by
  have hpower : (power n).apply = fun t : ℝ => t ^ n.toInt := funext fun t => zpow_real t n.toInt
  rw [hpower]
  exact hasDerivAt_zpow n.toInt x (hx.imp_right Int32.le_iff_toInt_le.1)

theorem hasDerivAt_power {n : Int32} (hx : x ≠ 0 ∨ 0 ≤ n) (hn : n ≠ Int32.minValue) :
    HasDerivAt (power n).apply ((power n).derivative x ((power n).apply x)) x := by
  refine (hasDerivAt_apply_power hx).congr_deriv ?_
  rw [derivative, zpow_real, toInt_sub_one hn]
  split_ifs with h0
  · rw [h0, Int32.toInt_zero, Int.cast_zero, zero_mul]
  · rfl

/-- Lowering the smallest exponent gives the largest one, `2 ^ 32` above the exponent of the
derivative. -/
theorem hasDerivAt_power_smallest (hx : x ≠ 0) :
    HasDerivAt (power Int32.minValue).apply
      ((power Int32.minValue).derivative x ((power Int32.minValue).apply x)) x ↔ |x| = 1 := by
  have htrue : HasDerivAt (power Int32.minValue).apply
      (((-2147483648 : ℤ) : ℝ) * x ^ (-2147483649 : ℤ)) x := hasDerivAt_apply_power (.inl hx)
  have htable : (power Int32.minValue).derivative x ((power Int32.minValue).apply x) =
      ((-2147483648 : ℤ) : ℝ) * x ^ (2147483647 : ℤ) := by
    rw [derivative, zpow_real]
    rfl
  have hshift : x ^ (2147483647 : ℤ) = x ^ (-2147483649 : ℤ) * |x| ^ (4294967296 : ℤ) := by
    rw [Even.zpow_abs (by decide), ← zpow_add₀ hx]
    rfl
  have hscale : ((-2147483648 : ℤ) : ℝ) * x ^ (-2147483649 : ℤ) ≠ 0 :=
    mul_ne_zero (Int.cast_ne_zero.2 (by decide)) (zpow_ne_zero _ hx)
  rw [htable, hshift, ← mul_assoc]
  constructor
  · intro h
    have hone := mul_left_cancel₀ hscale ((h.unique htrue).trans (mul_one _).symm)
    exact (zpow_left_inj₀ (abs_nonneg x) zero_le_one (by decide)).1 (hone.trans (one_zpow _).symm)
  · intro h
    rw [h, one_zpow, mul_one]
    exact htrue

theorem hasDerivAt_apply (op : UnaryOp) (hx : op.SmoothAt x) (hop : op ≠ .power Int32.minValue) :
    HasDerivAt op.apply (op.derivative x (op.apply x)) x := by
  cases op with
  | neg => exact hasDerivAt_neg x
  | recip =>
    have hrecip : (recip.apply : ℝ → ℝ) = Inv.inv := funext one_div
    rw [hrecip]
    refine (hasDerivAt_inv hx).congr_deriv ?_
    change -(x ^ 2)⁻¹ = -1 / (x * x)
    rw [sq, neg_div, one_div]
  | elementary f => exact f.hasDerivAt_apply hx
  | power n => exact hasDerivAt_power hx fun h => hop (congrArg power h)
  | root n => exact Special.hasDerivAt_nthRoot hx.1 hx.2

/-- The table of a smooth operation is wrong for one operation only, and almost everywhere. -/
theorem hasDerivAt_apply_iff (op : UnaryOp) (hx : op.SmoothAt x) :
    HasDerivAt op.apply (op.derivative x (op.apply x)) x ↔
      op ≠ .power Int32.minValue ∨ |x| = 1 := by
  by_cases hop : op = .power Int32.minValue
  · subst hop
    have hx' : x ≠ 0 := hx.resolve_right (by decide)
    rw [hasDerivAt_power_smallest hx']
    exact ⟨.inr, fun h => h.resolve_left fun h => h rfl⟩
  · exact iff_of_true (hasDerivAt_apply op hx hop) (.inl hop)

end UnaryOp

namespace BinaryOp

/-- Where an operation is differentiable, by its second operand. -/
def SmoothAt : BinaryOp → ℝ → Prop
  | div, b => b ≠ 0
  | add, _ | sub, _ | mul, _ | quotient, _ => True

variable {b : ℝ}

theorem hasDerivAt_quotient_right (a b : ℝ) :
    HasDerivAt (fun t => a / √(1 + t * t)) (-a * b / (√(1 + b * b) * √(1 + b * b) * √(1 + b * b)))
      b := by
  have hpos : 0 < 1 + b * b := add_pos_of_pos_of_nonneg one_pos (mul_self_nonneg b)
  have hroot : √(1 + b * b) ≠ 0 := (Real.sqrt_pos.2 hpos).ne'
  have hsum : HasDerivAt (fun t => 1 + t * t) (b + b) b :=
    (((hasDerivAt_id b).mul (hasDerivAt_id b)).const_add 1).congr_deriv (by simp)
  refine ((hasDerivAt_const b a).div (hsum.sqrt hpos.ne') hroot).congr_deriv ?_
  field_simp
  ring

theorem hasDerivAt_apply_left (op : BinaryOp) (a b : ℝ) :
    HasDerivAt (fun t => op.apply t b) (op.partials a b).1 a := by
  cases op with
  | add => exact (hasDerivAt_id a).add_const b
  | sub => exact (hasDerivAt_id a).sub_const b
  | mul => exact ((hasDerivAt_id a).mul_const b).congr_deriv (one_mul b)
  | div => exact (hasDerivAt_id a).div_const b
  | quotient => exact (hasDerivAt_id a).div_const √(1 + b * b)

theorem hasDerivAt_apply_right (op : BinaryOp) (a : ℝ) (hb : op.SmoothAt b) :
    HasDerivAt (fun t => op.apply a t) (op.partials a b).2 b := by
  cases op with
  | add => exact (hasDerivAt_id b).const_add a
  | sub => exact (hasDerivAt_id b).const_sub a
  | mul => exact ((hasDerivAt_id b).const_mul a).congr_deriv (mul_one a)
  | div =>
    refine ((hasDerivAt_const b a).div (hasDerivAt_id b) hb).congr_deriv ?_
    change (0 * b - a * 1) / b ^ 2 = -a / (b * b)
    rw [zero_mul, zero_sub, mul_one, sq]
  | quotient => exact hasDerivAt_quotient_right a b

end BinaryOp

/-- Where an operation is smooth, its table holds its derivative, for the binary operations both
partial ones. Only the power with the smallest exponent has a wrong table, wherever the number is
not one or minus one. The table of the error function holds the derivative of the exact one. -/
theorem primitives_hasDerivAt (x y : ℝ) :
    (∀ op : UnaryOp, op.SmoothAt x →
      (HasDerivAt op.apply (op.derivative x (op.apply x)) x ↔
        op ≠ .power Int32.minValue ∨ |x| = 1)) ∧
    HasDerivAt Special.exactErf ((UnaryOp.elementary .erf).derivative x y) x ∧
    ∀ op : BinaryOp, op.SmoothAt y →
      HasDerivAt (fun t => op.apply t y) (op.partials x y).1 x ∧
      HasDerivAt (fun t => op.apply x t) (op.partials x y).2 y :=
  ⟨fun op hx => op.hasDerivAt_apply_iff hx, Special.hasDerivAt_exactErf x,
    fun op hy => ⟨op.hasDerivAt_apply_left x y, op.hasDerivAt_apply_right x hy⟩⟩

theorem primitives_hasDerivAt_two :
    (UnaryOp.power (-2)).SmoothAt 2 ∧ HasDerivAt (UnaryOp.power (-2)).apply (-1 / 4 : ℝ) 2 ∧
      BinaryOp.div.SmoothAt 2 ∧ HasDerivAt (fun t : ℝ => BinaryOp.div.apply t 2) (1 / 2) 6 ∧
      HasDerivAt (fun t : ℝ => BinaryOp.div.apply 6 t) (-3 / 2) 2 := by
  have hpower : (UnaryOp.power (-2)).SmoothAt 2 := .inl two_ne_zero
  have hdiv : BinaryOp.div.SmoothAt 2 := two_ne_zero
  obtain ⟨hunary, -, -⟩ := primitives_hasDerivAt 2 0
  obtain ⟨-, -, hbinary⟩ := primitives_hasDerivAt 6 2
  obtain ⟨hleft, hright⟩ := hbinary .div hdiv
  have hne : UnaryOp.power (-2) ≠ .power Int32.minValue := by decide
  refine ⟨hpower, ((hunary _ hpower).2 (.inl hne)).congr_deriv ?_, hdiv, hleft,
    hright.congr_deriv ?_⟩
  · rw [UnaryOp.derivative, if_neg (by decide), zpow_real]
    change ((-2 : ℤ) : ℝ) * 2 ^ (-3 : ℤ) = -1 / 4
    norm_num
  · change (-6 : ℝ) / (2 * 2) = -3 / 2
    norm_num

/-- At two, the smallest power has a derivative that is not the one in its table. -/
theorem smallest_power_not_hasDerivAt :
    (UnaryOp.power Int32.minValue).SmoothAt 2 ∧
      ¬HasDerivAt (UnaryOp.power Int32.minValue).apply ((UnaryOp.power Int32.minValue).derivative 2
        ((UnaryOp.power Int32.minValue).apply 2)) (2 : ℝ) := by
  refine ⟨.inl two_ne_zero, fun h => ?_⟩
  have habs : |(2 : ℝ)| = 1 := (UnaryOp.hasDerivAt_power_smallest two_ne_zero).1 h
  norm_num at habs

end SymbolicFit
