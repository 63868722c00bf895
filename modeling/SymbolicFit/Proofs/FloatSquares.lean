import Mathlib
import SymbolicFit.Proofs.FloatOrder

/-!
Where squares and self-differences of floating-point numbers lie. A square has a positive sign
whatever is rounded, and `x - x` is zero, unless they are not numbers at all.
-/

namespace SymbolicFit.FloatOrder

open Float.Model (UnpackedFloat Format)
open Float.Model.UnpackedFloat

theorem compare_swap (x y : UnpackedFloat) : x.compare y = (y.compare x).map Ordering.swap := by
  rcases x with s | _ | s | ⟨s, m, e, hm⟩ <;> rcases y with s' | _ | s' | ⟨s', m', e', hm'⟩ <;>
    try cases s <;> try cases s'
  case finite.finite.negative.negative | finite.finite.positive.positive =>
    have hexponent : compare e e' = (compare e' e).swap := Std.OrientedCmp.eq_swap
    have hmantissa : compare m m' = (compare m' m).swap := Std.OrientedCmp.eq_swap
    simp only [UnpackedFloat.compare, Option.map_some, Ordering.swap_then]
    rw [hexponent, hmantissa]
  all_goals rfl

theorem exists_compare {x y : UnpackedFloat} (hx : x.isNaN = false) (hy : y.isNaN = false) :
    ∃ c, x.compare y = some c := by
  rcases x with s | _ | s | ⟨s, m, e, hm⟩
  case notANumber => cases hx
  all_goals
    cases y with
    | notANumber => cases hy
    | infinity s' | zero s' | finite s' => cases s <;> cases s' <;> exact ⟨_, rfl⟩

theorem le_iff (a b : Float) : a ≤ b ↔ a.toModel.unpack.le b.toModel.unpack = true := by
  change decide (a.toModel.unpack.le b.toModel.unpack = true) = true ↔ _
  exact decide_eq_true_iff

/-- The order is total among numbers. -/
theorem le_of_not_lt {a b : Float} (ha : a.isNaN = false) (hb : b.isNaN = false) (h : ¬b < a) :
    a ≤ b := by
  rw [le_iff]
  rw [lt_iff] at h
  obtain ⟨c, hc⟩ := exists_compare ha hb
  rw [UnpackedFloat.lt, compare_swap, hc] at h
  rw [UnpackedFloat.le, hc]
  cases c <;> simp_all

theorem not_lt_of_le {a b : Float} (h : a ≤ b) : ¬b < a := by
  intro hlt
  rw [lt_iff, UnpackedFloat.lt] at hlt
  have hc : b.toModel.unpack.compare a.toModel.unpack = some .lt := by simpa using hlt
  rw [le_iff, UnpackedFloat.le, compare_swap, hc] at h
  cases h

/-- The sign is positive, if there is one. -/
def Unsigned : UnpackedFloat → Prop
  | .notANumber => True
  | .infinity s | .zero s | .finite s .. => s = .positive

theorem unpackSign_packComponents (f : Format) (s : Sign) (e : BitVec f.exponentBits)
    (m : BitVec f.mantissaBitsWithoutImplicit) :
    Sign.ofBitVec (unpackSign (packComponents f s e m)) = s := by
  have h : unpackSign (packComponents f s e m) = s.toBitVec := by
    apply BitVec.eq_of_getLsbD_eq
    intro i hi
    obtain rfl : i = 0 := by omega
    simp [unpackSign, packComponents, BitVec.getLsbD_append, BitVec.getElem_append]
  rw [h]
  cases s <;> rfl

theorem unsigned_unpack_pack {x : UnpackedFloat} (f : Format) (h : Unsigned x) :
    Unsigned (unpack f (pack f x)) := by
  have hp : ∃ e m, pack f x = packComponents f .positive e m := by
    cases x with
    | notANumber => exact ⟨_, _, rfl⟩
    | infinity s | zero s =>
      cases h
      exact ⟨_, _, rfl⟩
    | finite s m e hm =>
      cases h
      unfold pack
      dsimp only
      split_ifs <;> exact ⟨_, _, rfl⟩
  obtain ⟨e, m, hp⟩ := hp
  rw [hp]
  unfold unpack
  simp only [unpackSign_packComponents]
  split_ifs <;> trivial

theorem unsigned_mul_self (f : Format) (x : UnpackedFloat) : Unsigned (mul f x x) := by
  have hs : ∀ s : Sign, s * s = .positive := by rintro (_ | _) <;> rfl
  cases x with
  | notANumber => trivial
  | infinity s => exact hs s
  | zero s => exact hs s
  | finite s m e hm =>
    change Unsigned (roundWithAccuracy f (s * s) (m * m) (e + e) .exact)
    rw [hs]
    unfold roundWithAccuracy
    dsimp only
    split_ifs <;> trivial

theorem zero_le_of_unsigned {x : UnpackedFloat} (h : Unsigned x) (hx : x.isNaN = false) :
    (zero .positive).le x = true := by
  cases x with
  | notANumber => cases hx
  | infinity s | finite s m e hm =>
    cases h
    rfl
  | zero s => rfl

theorem zero_le_mul_self {x : Float} (h : (x * x).isNaN = false) : 0 ≤ x * x := by
  rw [le_iff]
  exact zero_le_of_unsigned (unsigned_unpack_pack _ (unsigned_mul_self _ _)) h

theorem sub_self_cases (f : Format) (x : UnpackedFloat) :
    sub f x x = .notANumber ∨ sub f x x = .zero .positive := by
  cases x with
  | notANumber => exact .inl rfl
  | infinity s => cases s <;> exact .inl rfl
  | zero s => cases s <;> exact .inr rfl
  | finite s m e hm =>
    right
    simp only [sub, UnpackedFloat.normalize, Int.sub_self]
    rfl

/-- A difference of a number from itself is not above a bound that is not negative. -/
theorem not_lt_sub_self {a : Float} (ha : ¬a < 0) (x : Float) : ¬a < x - x := by
  rw [lt_iff] at ha ⊢
  change ¬a.toModel.unpack.lt (unpack .binary64 (pack .binary64
    (sub .binary64 x.toModel.unpack x.toModel.unpack))) = true
  rcases sub_self_cases .binary64 x.toModel.unpack with h | h
  · rw [h]
    change ¬a.toModel.unpack.lt .notANumber = true
    cases a.toModel.unpack <;> exact nofun
  · rw [h]
    exact ha

end SymbolicFit.FloatOrder
