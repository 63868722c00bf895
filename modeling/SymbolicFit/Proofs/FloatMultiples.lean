import Mathlib
import SymbolicFit.Proofs.FloatIntegers

/-!
Multiples of whole numbers. A whole number that the mantissa can hold is not above its product with
a number that is at least one, whatever is rounded, and not above the integer part of the product.
-/

namespace SymbolicFit.FloatOrder

open Float.Model (UnpackedFloat Format totalExponent)
open Float.Model.UnpackedFloat

theorem AtLeast.mul {n n' m m' : Nat} {e e' : Int} (h : AtLeast n m e) (h' : AtLeast n' m' e') :
    AtLeast (n * n') (m * m') (e + e') := by
  have hmul := Nat.mul_le_mul h h'
  -- both sides have a power of two too many if one of the exponents is negative
  obtain ⟨c, hc⟩ : ∃ c, e.toNat + e'.toNat = (e + e').toNat + c :=
    ⟨e.toNat + e'.toNat - (e + e').toNat, by omega⟩
  have hneg : (-e).toNat + (-e').toNat = (-(e + e')).toNat + c := by omega
  rw [mul_mul_mul_comm, ← pow_add, hneg, pow_add, ← mul_assoc, mul_mul_mul_comm, ← pow_add, hc,
    pow_add, ← mul_assoc] at hmul
  exact Nat.le_of_mul_le_mul_right hmul (by positivity)

theorem AtLeast.totalExponent_pos {n m : Nat} {e : Int} (h : AtLeast n m e) (hn : 0 < n)
    (hm : 0 < m) : 0 < totalExponent m e := by
  rw [totalExponent]
  rcases le_or_gt 0 e with he | he
  · omega
  · have he₀ : e.toNat = 0 := by omega
    rw [AtLeast, he₀, pow_zero, mul_one] at h
    have hlog := (Nat.le_log2 hm.ne').2 ((Nat.le_mul_of_pos_left _ hn).trans h)
    omega

/-- The integer part of a number is not below a whole number that the number is not below. -/
theorem AtLeast.le_roundToInt {n m : Nat} {e : Int} (h : AtLeast n m e) :
    (n : Int) ≤ roundToInt .positive m e := by
  have hround : roundToInt .positive m e = (m * 2 ^ e.toNat / 2 ^ (-e).toNat : Nat) := by
    have hup : (e - 0).toNat = e.toNat := by omega
    have hdown : (0 - (e - (e.toNat : Int))).toNat = (-e).toNat := by omega
    rw [roundToInt, decreaseExponent, hup]
    dsimp only
    rw [shiftToExponent, hdown, Nat.shiftLeft_eq, mantissa_shiftRight]
    rfl
  rw [hround]
  exact Int.ofNat_le.2 ((Nat.le_div_iff_mul_le (by positivity)).2 h)

/-- A positive number that is not below a whole number. -/
def Covers (n : Nat) : UnpackedFloat → Prop
  | .infinity s => s = .positive
  | .finite s m e _ => s = .positive ∧ Canonical m e ∧ AtLeast n m e
  | _ => False

theorem covers_of_one_le {a : Float} (h : 1 ≤ a) : Covers 1 a.toModel.unpack := by
  have hone : (1 : Float).toModel.unpack = .finite .positive (2 ^ 52) (-52) (by decide) := rfl
  rw [le_iff, hone] at h
  cases ha : a.toModel.unpack with
  | notANumber =>
    rw [ha] at h
    cases h
  | infinity s | zero s =>
    rw [ha] at h
    cases s <;> first | rfl | cases h
  | finite s m e hm =>
    rw [ha] at h
    cases s with
    | negative => cases h
    | positive =>
      have hcanonical := canonical_of_unpack ha
      refine ⟨rfl, hcanonical, ?_⟩
      have horder : ((compare (-52 : Int) e).then (compare (2 ^ 52) m)).isLE = true := h
      have hlt : ¬(e < -52 ∨ -52 = e ∧ m < 2 ^ 52) := by
        rw [← compare_exponent_mantissa_gt]
        intro hgt
        rw [hgt] at horder
        cases horder
      rw [canonical_iff] at hcanonical
      have hmantissa := (Nat.le_log2 hm.ne').1 (show 52 ≤ m.log2 by omega)
      have hexponent : 2 ^ (-e).toNat ≤ 2 ^ 52 := Nat.pow_le_pow_right (by decide) (by omega)
      rw [AtLeast, one_mul]
      exact (hexponent.trans hmantissa).trans (Nat.le_mul_of_pos_right m (by positivity))

theorem covers_ofNat {n : Nat} (hn : 0 < n) (hle : n ≤ 2 ^ 53) :
    Covers n (Float.ofNat n).toModel.unpack := by
  rcases hle.lt_or_eq with hlt | rfl
  · rw [unpack_ofNat hn hlt]
    refine ⟨rfl, canonical_whole hn hlt, ?_⟩
    have hexponent : (-(-((52 - n.log2 : Nat) : Int))).toNat = 52 - n.log2 := by omega
    rw [AtLeast, hexponent]
    exact Nat.le_mul_of_pos_right _ (by positivity)
  · have hunpack : (Float.ofNat (2 ^ 53)).toModel.unpack =
        .finite .positive (2 ^ 52) 1 (by decide) := rfl
    rw [hunpack]
    exact ⟨rfl, rfl, (by decide : 2 ^ 53 * 2 ^ 0 ≤ 2 ^ 52 * 2 ^ 1)⟩

theorem Covers.positive {n : Nat} {x : UnpackedFloat} (h : Covers n x) : Positive x := by
  cases x with
  | notANumber | zero s => cases h
  | infinity s => exact h
  | finite s m e hm => exact h.1

/-- Products of numbers that cover whole numbers cover the product of these. -/
theorem covers_mul {x y : UnpackedFloat} {k n : Nat} (hx : Covers k x) (hy : Covers n y)
    (hk : 0 < k) (hn : 0 < n) (hle : k * n ≤ 2 ^ 53) :
    Covers (k * n) (unpack .binary64 (pack .binary64 (mul .binary64 x y))) := by
  rcases mul_of_positive hx.positive hy.positive with hmul | ⟨m, e, hm, m', e', hm', rfl, rfl, hmul⟩
  · rw [hmul]
    rfl
  · obtain ⟨-, hc, hleast⟩ := hx
    obtain ⟨-, -, hleast'⟩ := hy
    have hproduct := hleast.mul hleast'
    have htotal := hleast.totalExponent_pos hk hm
    have htotal' := hproduct.totalExponent_pos (Nat.mul_pos hk hn) (Nat.mul_pos hm hm')
    have hlog := log2_mono (Nat.le_mul_of_pos_right m hm')
    rw [canonical_iff] at hc
    rw [totalExponent] at htotal
    obtain ⟨m₁, e₁, hm₁, hround, hcanonical, -, hkeeps⟩ := roundWithAccuracy_spec .positive
      (m := m * m') (e := e + e') .exact (Nat.mul_pos hm hm')
      (by rw [targetExponent_eq, totalExponent]; omega) (by omega)
    rw [hmul, hround]
    rcases unpack_pack_of_canonical _ hm₁ hcanonical with h | h
    · rw [h]
      rfl
    · rw [h]
      exact ⟨rfl, hcanonical, hkeeps _ hle hproduct⟩

theorem le_ofNatClamp {n k : Nat} (hn : n < UInt64.size) (h : n ≤ k) :
    n ≤ (UInt64.ofNatClamp k).toNat := by
  unfold UInt64.ofNatClamp
  split_ifs with hk
  · exact h
  · exact Nat.le_sub_one_of_lt hn

theorem le_toUInt64 {a : Float} {n : Nat} (h : Covers n a.toModel.unpack) (hle : n ≤ 2 ^ 53) :
    n ≤ a.toUInt64.toNat := by
  have hsize : (UInt64.size : Nat) = 2 ^ 64 := rfl
  refine le_ofNatClamp (by omega) ?_
  cases ha : a.toModel.unpack with
  | notANumber | zero s =>
    rw [ha] at h
    cases h
  | infinity s =>
    rw [ha] at h
    cases h
    change n ≤ ((UInt64.size : Int) - 1).toNat
    omega
  | finite s m e hm =>
    rw [ha] at h
    obtain ⟨rfl, -, hleast⟩ := h
    have hround := hleast.le_roundToInt
    change n ≤ (roundToInt .positive m e).toNat
    omega

/-- The integer part of a multiple of a whole number is not below the whole number. -/
theorem le_toUInt64_mul {a : Float} {n : Nat} (ha : 1 ≤ a) (hn : 0 < n) (hle : n ≤ 2 ^ 53) :
    n ≤ (a * Float.ofNat n).toUInt64.toNat := by
  have hcovers := covers_mul (covers_of_one_le ha) (covers_ofNat hn hle) one_pos hn
    (by rwa [one_mul])
  rw [one_mul] at hcovers
  exact le_toUInt64 hcovers hle

end SymbolicFit.FloatOrder
