import Mathlib
import SymbolicFit.Scalar

/-!
Exact arithmetic: scalars whose sums and products form a commutative ring, while the elementary
functions stay arbitrary. The real numbers are an instance.
-/

namespace SymbolicFit

/-- Scalars without rounding. Division and the elementary functions obey no law. -/
class ExactRing (α : Type) extends Scalar α, CommRing α where
  beq_iff_eq (a b : α) : (a == b) = true ↔ a = b

/-- Scalars without rounding where dividing is multiplying by the reciprocal, integers are their
own nearest integers, and the general power extends the integer one. -/
class ExactArithmetic (α : Type) extends ExactRing α where
  mul_one_div (a b : α) : a * (1 / b) = a / b
  round_intCast (n : ℤ) : Scalar.round (n : α) = n
  pow_intCast (x : α) (n : ℤ) : Scalar.pow x (n : α) = Scalar.zpow x n

/-- Exact arithmetic with an order that sums and products respect. -/
class OrderedArithmetic (α : Type) extends ExactArithmetic α, PartialOrder α,
    IsStrictOrderedRing α where
  half_add_half : (0.5 : α) + 0.5 = 1

namespace ExactRing

variable {α : Type} [ExactRing α]

theorem sum_eq (xs : List α) : Scalar.sum xs = xs.sum := by
  rw [Scalar.sum, List.sum_eq_foldl, neg_zero]

theorem mulPow_eq (r x : α) (n : ℕ) : Scalar.mulPow r x n = r * x ^ n := by
  induction n using Nat.strong_induction_on generalizing r x with
  | _ n ih =>
    have hn : x ^ n = x ^ (n % 2) * (x * x) ^ (n / 2) := by
      rw [← sq, ← pow_mul, ← pow_add, Nat.mod_add_div]
    rw [Scalar.mulPow]
    by_cases h0 : n / 2 = 0
    · have hlt : n % 2 = n := by omega
      rw [if_pos h0]
      split_ifs with h1
      · rw [← hlt, h1, pow_one]
      · rw [show n = 0 by omega, pow_zero, mul_one]
    · rw [if_neg h0, ih _ (by omega), hn]
      split_ifs with h1
      · rw [h1]; ring
      · rw [show n % 2 = 0 by omega]; ring

end ExactRing

section Real

/-- The nearest integer, halves away from zero. -/
noncomputable def roundAway (x : ℝ) : ℤ := if 0 ≤ x then ⌊x + 1 / 2⌋ else -⌊-x + 1 / 2⌋

noncomputable instance : Scalar ℝ where
  toZero := inferInstance
  toOne := inferInstance
  toAdd := inferInstance
  toSub := inferInstance
  toMul := inferInstance
  toDiv := inferInstance
  toNeg := inferInstance
  toLT := inferInstance
  toLE := inferInstance
  toNatCast := inferInstance
  toIntCast := inferInstance
  toOfScientific := inferInstance
  beq x y := decide (x = y)
  decideLT := inferInstance
  decideLE := inferInstance
  isFinite _ := true
  isNaN _ := false
  pi := Real.pi
  abs := abs
  sqrt := Real.sqrt
  cbrt x := if 0 ≤ x then x ^ (1 / 3 : ℝ) else -(-x) ^ (1 / 3 : ℝ)
  exp := Real.exp
  log := Real.log
  sin := Real.sin
  cos := Real.cos
  tan := Real.tan
  tanh := Real.tanh
  pow x y := x ^ y
  round x := roundAway x
  toInt32 x := Int32.ofIntClamp (if 0 ≤ x then ⌊x⌋ else ⌈x⌉)

noncomputable instance : ExactRing ℝ :=
  { (inferInstance : Scalar ℝ), (inferInstance : CommRing ℝ) with
    beq_iff_eq := fun _ _ => decide_eq_true_iff }

theorem roundAway_intCast (n : ℤ) : roundAway (n : ℝ) = n := by
  have h : ⌊(n : ℝ) + 1 / 2⌋ = n ∧ ⌊-(n : ℝ) + 1 / 2⌋ = -n := by
    constructor <;> rw [Int.floor_eq_iff] <;> push_cast <;> constructor <;> linarith
  rw [roundAway, h.1, h.2, neg_neg, ite_self]

theorem zpow_real (x : ℝ) (n : ℤ) : Scalar.zpow x n = x ^ n := by
  rw [Scalar.zpow, ExactRing.mulPow_eq, one_mul]
  split_ifs with h
  · rw [one_div, ← zpow_natCast, ← zpow_neg]
    congr 1
    omega
  · rw [← zpow_natCast]
    congr 1
    omega

theorem greater_real (x y : ℝ) : Scalar.greater x y = max x y := by
  change (if false = true then y else if x < y then y else x) = max x y
  rw [if_neg Bool.false_ne_true]
  split_ifs with h
  · exact (max_eq_right h.le).symm
  · exact (max_eq_left (not_lt.1 h)).symm

theorem toInt32_intCast {n : ℤ} (hn : n.natAbs ≤ 2147483647) :
    (Scalar.toInt32 (n : ℝ)).toInt = n := by
  have hf : (if (0 : ℝ) ≤ n then ⌊(n : ℝ)⌋ else ⌈(n : ℝ)⌉) = n := by
    rw [Int.floor_intCast, Int.ceil_intCast, ite_self]
  have hmin : Int32.minValue.toInt = -2147483648 := rfl
  have hmax : Int32.maxValue.toInt = 2147483647 := rfl
  change (Int32.ofIntClamp (if (0 : ℝ) ≤ n then ⌊(n : ℝ)⌋ else ⌈(n : ℝ)⌉)).toInt = n
  rw [hf]
  exact Int32.toInt_ofIntClamp (by omega) (by omega)

noncomputable instance : ExactArithmetic ℝ where
  mul_one_div := mul_one_div
  round_intCast n := congrArg Int.cast (roundAway_intCast n)
  pow_intCast x n := (Real.rpow_intCast x n).trans (zpow_real x n).symm

noncomputable instance : OrderedArithmetic ℝ :=
  { (inferInstance : ExactArithmetic ℝ), (inferInstance : PartialOrder ℝ),
    (inferInstance : IsStrictOrderedRing ℝ) with
    half_add_half := by
      change (0.5 : ℝ) + 0.5 = 1
      norm_num }

end Real

end SymbolicFit
