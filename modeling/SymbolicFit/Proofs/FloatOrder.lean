import Mathlib
import SymbolicFit.Scalar

/-!
The strict order of floating-point numbers is transitive: it is the lexicographic order of sign,
exponent and mantissa, on which a number that is not one has no place.
-/

namespace SymbolicFit.FloatOrder

open Float.Model (UnpackedFloat)

/-- The place of a number: its sign class, then its exponent, then its mantissa. -/
def place : UnpackedFloat → Option (ℤ ×ₗ ℤ ×ₗ ℤ)
  | .notANumber => none
  | .infinity .negative => some (toLex (-2, toLex (0, 0)))
  | .finite .negative m e _ => some (toLex (-1, toLex (-e, -m)))
  | .zero _ => some (toLex (0, toLex (0, 0)))
  | .finite .positive m e _ => some (toLex (1, toLex (e, m)))
  | .infinity .positive => some (toLex (2, toLex (0, 0)))

theorem compare_exponent_mantissa_lt (e e' : ℤ) (m m' : ℕ) :
    (compare e e').then (compare m m') = .lt ↔ e < e' ∨ e = e' ∧ m < m' := by
  rw [Ordering.then_eq_lt, compare_lt_iff_lt, compare_eq_iff_eq, compare_lt_iff_lt]

theorem compare_exponent_mantissa_gt (e e' : ℤ) (m m' : ℕ) :
    (compare e e').then (compare m m') = .gt ↔ e' < e ∨ e = e' ∧ m' < m := by
  rw [Ordering.then_eq_gt, compare_gt_iff_gt, compare_eq_iff_eq, compare_gt_iff_gt]

theorem compare_negative_positive :
    compare UnpackedFloat.Sign.negative UnpackedFloat.Sign.positive = .lt := rfl

theorem lt_iff_place_lt (x y : UnpackedFloat) :
    x.lt y = true ↔ ∃ a b, place x = some a ∧ place y = some b ∧ a < b := by
  rcases x with s | _ | s | ⟨s, m, e, hm⟩ <;> rcases y with s' | _ | s' | ⟨s', m', e', hm'⟩ <;>
    try cases s <;> try cases s'
  all_goals
    simp [UnpackedFloat.lt, UnpackedFloat.compare, place, Prod.Lex.lt_iff,
      compare_exponent_mantissa_lt, compare_exponent_mantissa_gt, compare_negative_positive]

theorem lt_iff (a b : Float) : a < b ↔ a.toModel.unpack.lt b.toModel.unpack = true := by
  change decide (a.toModel.unpack.lt b.toModel.unpack = true) = true ↔ _
  exact decide_eq_true_iff

instance isTrans_lt : IsTrans Float (· < ·) where
  trans a b c hab hbc := by
    obtain ⟨x, y, hx, hy, hxy⟩ := (lt_iff_place_lt _ _).1 ((lt_iff a b).1 hab)
    obtain ⟨y', z, hy', hz, hyz⟩ := (lt_iff_place_lt _ _).1 ((lt_iff b c).1 hbc)
    obtain rfl : y = y' := Option.some.inj (hy.symm.trans hy')
    exact (lt_iff a c).2 ((lt_iff_place_lt _ _).2 ⟨x, z, hx, hz, hxy.trans hyz⟩)

end SymbolicFit.FloatOrder
