import Mathlib
import SymbolicFit.Proofs.ExactArithmetic
import SymbolicFit.Proofs.FloatRounding

/-!
Small integers as numbers. They are represented exactly, so a number that equals one has it as its
integer part.
-/

namespace SymbolicFit

/-- What equals an integer of at most 31 bits is finite and has it as its integer part. -/
class SmallIntegers (α : Type) [Scalar α] : Prop where
  of_beq {n : ℤ} {v : α} (hn : n.natAbs ≤ 2147483647) (h : ((n : α) == v) = true) :
    Scalar.isFinite v = true ∧ (Scalar.toInt32 v).toInt = n

noncomputable instance : SmallIntegers ℝ where
  of_beq hn h := by
    rw [← (ExactRing.beq_iff_eq _ _).1 h]
    exact ⟨rfl, toInt32_intCast hn⟩

namespace FloatOrder

open Float.Model (UnpackedFloat Format totalExponent)
open Float.Model.UnpackedFloat

theorem shiftRight_exact (m k : Nat) :
    (⟨m * 2 ^ k, false, false⟩ : ExtendedMantissa) >>> k = ⟨m, false, false⟩ := by
  change k.repeat ExtendedMantissa.shiftRightOne _ = _
  induction k generalizing m with
  | zero => rw [pow_zero, mul_one]; rfl
  | succ k ih =>
    have hm : m * 2 ^ (k + 1) = m * 2 * 2 ^ k := by rw [pow_succ, mul_comm (2 ^ k), mul_assoc]
    change ExtendedMantissa.shiftRightOne (k.repeat ExtendedMantissa.shiftRightOne _) = _
    rw [hm, ih, ExtendedMantissa.shiftRightOne]
    simp

theorem log2_mul_two_pow {m : Nat} (hm : 0 < m) (k : Nat) : (m * 2 ^ k).log2 = m.log2 + k := by
  induction k with
  | zero => rw [pow_zero, mul_one, Nat.add_zero]
  | succ k ih =>
    have hpos : m * 2 ^ k ≠ 0 := (Nat.mul_pos hm (by positivity)).ne'
    rw [pow_succ, ← mul_assoc, Nat.log2_eq_log_two, Nat.log_mul_base Nat.one_lt_two hpos,
      ← Nat.log2_eq_log_two, ih, Nat.add_assoc]

/-- Digits that the format does not keep are rounded away without a trace if they are zero. -/
theorem roundWithAccuracy_exact (s : Sign) {m : Nat} {e : Int} (hm : 0 < m) (h : Canonical m e)
    (k : Nat) : roundWithAccuracy .binary64 s (m * 2 ^ k) (e - k) .exact = .finite s m e hm := by
  -- the shift before rounding and the one after it end at the same number
  have hshift : ∀ j : Nat, shiftToTargetExponent .binary64 (m * 2 ^ j) (e - j) .exact =
      (⟨m, false, false⟩, e) := by
    intro j
    have htotal : totalExponent (m * 2 ^ j) (e - j) = totalExponent m e := by
      rw [totalExponent, totalExponent, log2_mul_two_pow hm]
      omega
    have hj : (e - (e - (j : Int))).toNat = j := by omega
    rw [shiftToTargetExponent, htotal, h, shiftToExponent, hj]
    exact Prod.ext (shiftRight_exact m j) (by omega)
  have hfinal := hshift 0
  rw [pow_zero, mul_one, Int.natCast_zero, Int.sub_zero] at hfinal
  unfold roundWithAccuracy
  have hrounded : (⟨m, false, false⟩ : ExtendedMantissa).roundedMantissa = m := rfl
  simp only [hshift, hrounded, hfinal, dif_neg hm.ne']

/-- A whole number with its digits moved to the top of the mantissa. -/
def whole (s : Sign) (n : Nat) (hn : 0 < n) : UnpackedFloat :=
  .finite s (n * 2 ^ (52 - n.log2)) (-(52 - n.log2 : Nat)) (Nat.mul_pos hn (by positivity))

theorem log2_le_of_lt {n : Nat} (hn : 0 < n) (hlt : n < 2 ^ 53) : n.log2 ≤ 52 :=
  Nat.le_of_lt_succ ((Nat.log2_lt hn.ne').2 hlt)

theorem canonical_whole {n : Nat} (hn : 0 < n) (hlt : n < 2 ^ 53) :
    Canonical (n * 2 ^ (52 - n.log2)) (-(52 - n.log2 : Nat)) := by
  have hlog := log2_le_of_lt hn hlt
  rw [canonical_iff, log2_mul_two_pow hn]
  omega

theorem round_whole (s : Sign) {n : Nat} (hn : 0 < n) (hlt : n < 2 ^ 53) :
    UnpackedFloat.round .binary64 s n 0 = whole s n hn := by
  have hlog := log2_le_of_lt hn hlt
  have htarget : (0 - Format.binary64.targetExponent (totalExponent n 0)).toNat = 52 - n.log2 := by
    rw [targetExponent_eq, totalExponent]
    omega
  have hround := roundWithAccuracy_exact s (Nat.mul_pos hn (by positivity))
    (canonical_whole hn hlt) 0
  rw [pow_zero, mul_one, Int.natCast_zero, Int.sub_zero] at hround
  rw [UnpackedFloat.round, decreaseExponent, htarget, Nat.shiftLeft_eq, Int.zero_sub]
  exact hround

theorem unpack_pack_whole (s : Sign) {n : Nat} (hn : 0 < n) (hlt : n < 2 ^ 53) :
    unpack .binary64 (pack .binary64 (whole s n hn)) = whole s n hn :=
  unpack_pack_finite s _ (canonical_whole hn hlt) (by omega)

theorem unpack_ofNat {n : Nat} (hn : 0 < n) (hlt : n < 2 ^ 53) :
    (Float.ofNat n).toModel.unpack = whole .positive n hn := by
  have hword : n.toUInt64.toNat = n := by
    rw [Nat.toUInt64, UInt64.toNat_ofNat']
    omega
  have hround : UnpackedFloat.ofUInt64 .binary64 n.toUInt64 = whole .positive n hn := by
    rw [UnpackedFloat.ofUInt64, hword, UnpackedFloat.ofNat, UnpackedFloat.ofInt,
      UnpackedFloat.normalize, Int.compare_eq_gt.2 (Int.natCast_pos.2 hn)]
    exact round_whole .positive hn hlt
  have hunpack : n.toUInt64.toFloat.toModel.unpack = whole .positive n hn := by
    change unpack .binary64 (pack .binary64 (UnpackedFloat.ofUInt64 .binary64 n.toUInt64)) = _
    rw [hround, unpack_pack_whole]
    exact hlt
  -- a decimal without an exponent is multiplied by one
  have hone : Float.exactlyRepresentablePowersOfTen[0].toModel.unpack =
      .finite .positive (2 ^ 52) (-52) (by decide) := rfl
  have hmul : Float.ofNat n = n.toUInt64.toFloat * Float.exactlyRepresentablePowersOfTen[0] :=
    dif_pos (⟨hlt, by decide⟩ : n < 2 ^ 53 ∧ 0 ≤ 22)
  rw [hmul]
  change unpack .binary64 (pack .binary64 (mul .binary64 n.toUInt64.toFloat.toModel.unpack
    Float.exactlyRepresentablePowersOfTen[0].toModel.unpack)) = _
  have hproduct :
      mul .binary64 (whole .positive n hn) (.finite .positive (2 ^ 52) (-52) (by decide)) =
        whole .positive n hn :=
    roundWithAccuracy_exact .positive (Nat.mul_pos hn (by positivity)) (canonical_whole hn hlt) 52
  rw [hunpack, hone, hproduct, unpack_pack_whole]
  exact hlt

theorem unpack_neg (a : Float) : a.neg.toModel.unpack =
    unpack .binary64 (pack .binary64 a.toModel.unpack.neg) := rfl

/-- A whole number that is not zero, unpacked. -/
theorem unpack_intCast {n : Int} (hn : n ≠ 0) (hlt : n.natAbs < 2 ^ 53) :
    ∃ s, (n : Float).toModel.unpack = whole s n.natAbs (Int.natAbs_pos.2 hn) ∧
      s.apply n.natAbs = n := by
  cases n with
  | ofNat m =>
    exact ⟨.positive, unpack_ofNat (Int.natAbs_pos.2 hn) hlt, rfl⟩
  | negSucc m =>
    refine ⟨.negative, ?_, rfl⟩
    change (Float.ofNat m.succ).neg.toModel.unpack = _
    rw [unpack_neg, unpack_ofNat m.succ_pos hlt]
    exact unpack_pack_whole .negative m.succ_pos hlt

theorem roundToInt_whole (s : Sign) (n : Nat) :
    roundToInt s (n * 2 ^ (52 - n.log2)) (-(52 - n.log2 : Nat)) = s.apply n := by
  have hup : (-((52 - n.log2 : Nat) : Int) - 0).toNat = 0 := by omega
  have hdown : (0 - (-((52 - n.log2 : Nat) : Int) - ((0 : Nat) : Int))).toNat = 52 - n.log2 := by
    omega
  rw [roundToInt, decreaseExponent, hup]
  dsimp only
  rw [shiftToExponent, hdown, Nat.shiftLeft_zero, mantissa_shiftRight]
  change s.apply ((n * 2 ^ (52 - n.log2) / 2 ^ (52 - n.log2) : Nat) : Int) = _
  rw [Nat.mul_div_cancel _ (by positivity)]

theorem toInt32_of_toInt {v : Float} {n : Int} (hn : n.natAbs ≤ 2147483647)
    (h : UnpackedFloat.toInt Int32.minValue.toInt Int32.maxValue.toInt v.toModel.unpack = n) :
    (Scalar.toInt32 v).toInt = n := by
  have hmin : Int32.minValue.toInt = -2147483648 := rfl
  have hmax : Int32.maxValue.toInt = 2147483647 := rfl
  change (Int32.ofIntClamp (UnpackedFloat.toInt _ _ v.toModel.unpack)).toInt = n
  rw [h]
  exact Int32.toInt_ofIntClamp (by omega) (by omega)

/-- A number that equals an integer is a zero, or it is the integer. -/
theorem unpack_of_beq {v : Float} {n : Int} (hn : n.natAbs < 2 ^ 53) (h : (n : Float) == v) :
    (n = 0 ∧ ∃ s, v.toModel.unpack = .zero s) ∨
      ∃ s hpos, v.toModel.unpack = whole s n.natAbs hpos ∧ s.apply n.natAbs = n := by
  have hbeq : (n : Float).toModel.unpack.beq v.toModel.unpack = true := h
  obtain ⟨-, -, hv⟩ := (beq_iff_ne_notANumber_and_eq _ _).1 hbeq
  by_cases h₀ : n = 0
  · subst h₀
    have hzero : ((0 : Int) : Float).toModel.unpack = .zero .positive := rfl
    rw [hzero] at hv
    -- zeros of both signs are equal
    rcases hv with hv | ⟨-, hv⟩ | ⟨hs, -⟩
    · exact .inl ⟨rfl, _, hv.symm⟩
    · exact .inl ⟨rfl, _, hv⟩
    · cases hs
  · obtain ⟨s, hs, hn'⟩ := unpack_intCast h₀ hn
    rw [hs] at hv
    rcases hv with hv | ⟨hz, -⟩ | ⟨hz, -⟩
    · exact .inr ⟨s, _, hv.symm, hn'⟩
    · cases hz
    · cases hz

instance : SmallIntegers Float where
  of_beq {n v} hn h := by
    have hfinite : Scalar.isFinite v = v.toModel.unpack.isFinite := rfl
    rw [hfinite]
    rcases unpack_of_beq (by omega) h with ⟨rfl, s, hv⟩ | ⟨s, hpos, hv, hn'⟩
    · refine ⟨by rw [hv]; rfl, toInt32_of_toInt hn ?_⟩
      rw [hv]
      rfl
    · refine ⟨by rw [hv]; rfl, toInt32_of_toInt hn ?_⟩
      rw [hv]
      exact (roundToInt_whole s n.natAbs).trans hn'

end FloatOrder

end SymbolicFit
