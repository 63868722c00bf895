import Mathlib
import SymbolicFit.Proofs.FloatSquares

/-!
Rounding and packing of floating-point numbers. A rounded number is canonical and not smaller in
magnitude, packing keeps canonical numbers or overflows, and so products of roots do not vanish.
-/

namespace SymbolicFit.FloatOrder

open Float.Model (UnpackedFloat Format totalExponent)
open Float.Model.UnpackedFloat

/-- The exponent is the one that the format chooses for the number. -/
def Canonical (m : Nat) (e : Int) : Prop :=
  Format.binary64.targetExponent (totalExponent m e) = e

theorem targetExponent_eq (t : Int) : Format.binary64.targetExponent t = max (t - 53) (-1074) := rfl

theorem canonical_iff {m : Nat} {e : Int} :
    Canonical m e ↔ (m.log2 = 52 ∧ -1074 ≤ e) ∨ (m.log2 < 52 ∧ e = -1074) := by
  rw [Canonical, targetExponent_eq, totalExponent]
  omega

theorem mantissa_shiftRight (em : ExtendedMantissa) (k : Nat) :
    (em >>> k).mantissa = em.mantissa / 2 ^ k := by
  change (k.repeat ExtendedMantissa.shiftRightOne em).mantissa = _
  induction k with
  | zero => exact (Nat.div_one _).symm
  | succ k ih =>
    change (k.repeat ExtendedMantissa.shiftRightOne em).mantissa / 2 = _
    rw [ih, Nat.div_div_eq_div_mul, pow_succ]

theorem le_roundedMantissa (em : ExtendedMantissa) : em.mantissa ≤ em.roundedMantissa := by
  obtain ⟨m, _ | _, _ | _⟩ := em
  · exact Nat.le_refl m
  · exact Nat.le_refl m
  · exact Nat.le_add_right m (m % 2)
  · exact Nat.le_succ m

theorem log2_div_two_pow (m k : Nat) : (m / 2 ^ k).log2 = m.log2 - k := by
  rw [Nat.log2_eq_log_two, Nat.log2_eq_log_two, Nat.log_div_base_pow]

/-- The number `m * 2 ^ e` is not below `n`. -/
def AtLeast (n m : Nat) (e : Int) : Prop := n * 2 ^ (-e).toNat ≤ m * 2 ^ e.toNat

theorem AtLeast.mono {n m m' : Nat} {e : Int} (h : AtLeast n m e) (hm : m ≤ m') :
    AtLeast n m' e := h.trans (Nat.mul_le_mul_right _ hm)

/-- A shift to the exponent of the format drops no whole number that the mantissa can hold. -/
theorem AtLeast.shift {n m : Nat} {e t : Int} (h : AtLeast n m e) (hn : n ≤ 2 ^ 53) (hm : 0 < m)
    (ht : Format.binary64.targetExponent (totalExponent m e) = t) (he : e ≤ t) :
    AtLeast n (m / 2 ^ (t - e).toNat) t := by
  rw [targetExponent_eq, totalExponent] at ht
  unfold AtLeast at h ⊢
  rcases le_or_gt t 0 with ht₀ | ht₀
  · have he₀ : e.toNat = 0 := by omega
    have ht₀' : t.toNat = 0 := by omega
    have hk : (-e).toNat = (-t).toNat + (t - e).toNat := by omega
    rw [he₀, hk, pow_add, ← mul_assoc, pow_zero, mul_one] at h
    rw [ht₀', pow_zero, mul_one]
    exact (Nat.le_div_iff_mul_le (by positivity)).2 h
  · -- all digits of the mantissa are in use
    have hk : m.log2 = 52 + (t - e).toNat := by omega
    have hpow : 2 ^ 52 * 2 ^ (t - e).toNat ≤ m := by
      rw [← pow_add, ← hk]
      exact (Nat.le_log2 hm.ne').1 le_rfl
    have hmantissa := (Nat.le_div_iff_mul_le (by positivity)).2 hpow
    have hexponent : 2 ^ 1 ≤ 2 ^ t.toNat := Nat.pow_le_pow_right (by decide) (by omega)
    have hzero : (-t).toNat = 0 := by omega
    rw [hzero, pow_zero, mul_one]
    exact hn.trans (Nat.mul_le_mul hmantissa hexponent)

/-- A shift to the exponent of the format keeps the place of the leading digit. -/
theorem shiftToTargetExponent_spec {m : Nat} {e : Int} (a : Accuracy) (hm : 0 < m)
    (he : e ≤ Format.binary64.targetExponent (totalExponent m e))
    (hmin : -1073 ≤ totalExponent m e) :
    ∃ em, shiftToTargetExponent .binary64 m e a =
        (em, Format.binary64.targetExponent (totalExponent m e)) ∧ 0 < em.mantissa ∧
      totalExponent em.mantissa (Format.binary64.targetExponent (totalExponent m e)) =
        totalExponent m e ∧
      ∀ n ≤ 2 ^ 53, AtLeast n m e →
        AtLeast n em.mantissa (Format.binary64.targetExponent (totalExponent m e)) := by
  generalize htarget : Format.binary64.targetExponent (totalExponent m e) = t at he ⊢
  have ht := htarget
  rw [targetExponent_eq, totalExponent] at ht
  rw [totalExponent] at hmin
  have hk : (t - e).toNat ≤ m.log2 := by omega
  have hmantissa : (ExtendedMantissa.ofMantissaAndAccuracy m a >>> (t - e).toNat).mantissa =
      m / 2 ^ (t - e).toNat := by
    rw [mantissa_shiftRight]
    congr 1
    rcases a with _ | _ | _ | _ <;> rfl
  refine ⟨ExtendedMantissa.ofMantissaAndAccuracy m a >>> (t - e).toNat, ?_, ?_, ?_,
    fun n hn h => ?_⟩
  · have hshift : e + ((t - e).toNat : Int) = t := by omega
    rw [shiftToTargetExponent, targetExponent_eq, totalExponent, ht, shiftToExponent, hshift]
  · rw [hmantissa]
    exact Nat.div_pos ((Nat.le_log2 hm.ne').1 hk) (by positivity)
  · rw [hmantissa, totalExponent, totalExponent, log2_div_two_pow]
    omega
  · rw [hmantissa]
    exact h.shift hn hm htarget he

theorem log2_mono {m n : Nat} (h : m ≤ n) : m.log2 ≤ n.log2 := by
  rw [Nat.log2_eq_log_two, Nat.log2_eq_log_two]
  exact Nat.log_mono_right h

theorem totalExponent_mono {m n : Nat} (e : Int) (h : m ≤ n) :
    totalExponent m e ≤ totalExponent n e := by
  have hlog := log2_mono h
  rw [totalExponent, totalExponent]
  omega

/-- Rounding gives a canonical number whose leading digit does not move down, and which is not below
a whole number that it was not below before. -/
theorem roundWithAccuracy_spec (s : Sign) {m : Nat} {e : Int} (a : Accuracy) (hm : 0 < m)
    (he : e ≤ Format.binary64.targetExponent (totalExponent m e))
    (hmin : -1073 ≤ totalExponent m e) :
    ∃ m' e' hm', roundWithAccuracy .binary64 s m e a = .finite s m' e' hm' ∧ Canonical m' e' ∧
      totalExponent m e ≤ totalExponent m' e' ∧
      ∀ n ≤ 2 ^ 53, AtLeast n m e → AtLeast n m' e' := by
  obtain ⟨em, hem, hpos, htotal, hleast⟩ := shiftToTargetExponent_spec a hm he hmin
  generalize htarget : Format.binary64.targetExponent (totalExponent m e) = t at hem htotal hleast
  have hle := le_roundedMantissa em
  have hmono := totalExponent_mono t hle
  rw [htotal] at hmono
  -- rounding may carry into a new digit, so there is a second shift
  have ht : t ≤ Format.binary64.targetExponent (totalExponent em.roundedMantissa t) := by
    rw [targetExponent_eq] at htarget ⊢
    omega
  obtain ⟨em', hem', hpos', htotal', hleast'⟩ := shiftToTargetExponent_spec .exact
    (Nat.lt_of_lt_of_le hpos hle) ht (hmin.trans hmono)
  refine ⟨em'.mantissa, _, hpos', ?_, ?_, hmono.trans_eq htotal'.symm, fun n hn h =>
    hleast' n hn ((hleast n hn h).mono hle)⟩
  · unfold roundWithAccuracy
    simp only [hem, hem', dif_neg hpos'.ne']
  · rw [Canonical, htotal']

theorem toNat_append_one {n : Nat} (v : BitVec n) : (1#1 ++ v).toNat = 2 ^ n + v.toNat := by
  rw [BitVec.toNat_append, ← Nat.shiftLeft_add_eq_or_of_lt v.isLt]
  simp [Nat.shiftLeft_eq]

theorem canonical_of_unpack {b : BitVec Format.binary64.numBits} {s : Sign} {m : Nat} {e : Int}
    {hm : 0 < m} (h : unpack .binary64 b = .finite s m e hm) : Canonical m e := by
  have hbias : Format.binary64.exponentBias = 1023 := rfl
  unfold unpack at h
  dsimp only at h
  rw [hbias] at h
  rw [canonical_iff]
  split_ifs at h with h₁ h₂ h₃ h₄
  · injection h with _ hmantissa hexponent
    have hlt : m < 2 ^ 52 := hmantissa ▸ (unpackMantissa b).isLt
    have hlog := (Nat.log2_lt hm.ne').2 hlt
    have hzero : (unpackExponent b).toNat = 0 := congrArg BitVec.toNat h₃
    omega
  · injection h with _ hmantissa hexponent
    have hlt : (unpackMantissa b).toNat < 2 ^ 52 := (unpackMantissa b).isLt
    have hsum : 2 ^ 52 + (unpackMantissa b).toNat = m :=
      (toNat_append_one (n := 52) _).symm.trans hmantissa
    have hlower := (Nat.le_log2 hm.ne').2 (show 2 ^ 52 ≤ m by omega)
    have hupper := (Nat.log2_lt hm.ne').2 (show m < 2 ^ 53 by omega)
    have hpos : (unpackExponent b).toNat ≠ 0 := fun hz => h₃ (BitVec.eq_of_toNat_eq hz)
    omega

theorem toNat_lt_of_ne {n : Nat} {b : Nat} (h : ¬2 ^ n ≤ b + 1) :
    (BitVec.ofNat n b).toNat = b ∧ BitVec.ofNat n b ≠ -1#n := by
  have hb : (BitVec.ofNat n b).toNat = b := by
    rw [BitVec.toNat_ofNat, Nat.mod_eq_of_lt (by omega)]
  refine ⟨hb, fun hall => ?_⟩
  have hn := congrArg BitVec.toNat hall
  rw [hb, BitVec.neg_one_eq_allOnes, BitVec.toNat_allOnes] at hn
  omega

/-- Packing keeps a canonical number whose exponent is not too large. -/
theorem unpack_pack_finite (s : Sign) {m : Nat} {e : Int} (hm : 0 < m) (h : Canonical m e)
    (he : e < 972) :
    unpack .binary64 (pack .binary64 (.finite s m e hm)) = .finite s m e hm := by
  have hbias : Format.binary64.exponentBias = 1023 := rfl
  have hbits : Format.binary64.mantissaBits = 53 := rfl
  rw [canonical_iff] at h
  unfold pack
  dsimp only
  rw [hbias, hbits]
  generalize hb : (e + ((1023 : Nat) : Int) + ((52 : Nat) : Int)).toNat = b
  split_ifs with h₁ h₂
  · change 2 ^ 11 ≤ b + 1 at h₁
    omega
  · obtain ⟨hnat, hne⟩ := toNat_lt_of_ne h₁
    have hexponent : (b : Int) - (((1023 : Nat) : Int) + ((52 : Nat) : Int)) = e := by omega
    have hzero : BitVec.ofNat 11 b ≠ 0#11 := by
      intro hz
      have := congrArg BitVec.toNat hz
      rw [hnat] at this
      change b = 0 at this
      omega
    have hmantissa : (1#1 ++ BitVec.ofNat 52 m).toNat = m := by
      have hlower := (Nat.le_log2 hm.ne').1 (show 52 ≤ m.log2 by omega)
      have hupper := (Nat.log2_lt hm.ne').1 (show m.log2 < 53 by omega)
      rw [toNat_append_one, BitVec.toNat_ofNat]
      omega
    unfold unpack
    simp only [unpackMantissa_packComponents, unpackExponent_packComponents,
      unpackSign_packComponents, hne, hzero, hnat, hbias, hexponent, hmantissa, if_false]
  · have hlog : m.log2 < 52 := by omega
    have hlt := (Nat.log2_lt hm.ne').1 hlog
    have hmantissa : (BitVec.ofNat 52 m).toNat = m := by
      rw [BitVec.toNat_ofNat, Nat.mod_eq_of_lt hlt]
    have hne : BitVec.ofNat 52 m ≠ 0#52 := by
      intro hz
      have := congrArg BitVec.toNat hz
      rw [hmantissa] at this
      exact hm.ne' this
    have hexponent :
        (((0#11).toNat : Int)) - (((1023 : Nat) : Int) + ((52 : Nat) : Int)) + 1 = e := by
      have hz : (0#11).toNat = 0 := rfl
      omega
    have hall : 0#11 ≠ -1#11 := by decide
    unfold unpack
    simp only [unpackMantissa_packComponents, unpackExponent_packComponents,
      unpackSign_packComponents, hall, hne, hbias, hexponent, hmantissa, if_false, if_true,
      dif_neg, not_false_eq_true]

/-- Packing keeps a canonical number unless its exponent is too large. -/
theorem unpack_pack_of_canonical (s : Sign) {m : Nat} {e : Int} (hm : 0 < m) (h : Canonical m e) :
    unpack .binary64 (pack .binary64 (.finite s m e hm)) = .infinity s ∨
      unpack .binary64 (pack .binary64 (.finite s m e hm)) = .finite s m e hm := by
  by_cases he : e < 972
  · exact .inr (unpack_pack_finite s hm h he)
  · left
    have hbias : Format.binary64.exponentBias = 1023 := rfl
    have hlarge : 2 ^ 11 ≤
        (e + (Format.binary64.exponentBias : Int) + ((52 : Nat) : Int)).toNat + 1 := by
      rw [hbias]
      omega
    unfold pack
    dsimp only
    rw [if_pos hlarge]
    unfold unpack packedInfinity
    simp

theorem isNaN_unpack_pack (x : UnpackedFloat) :
    (unpack .binary64 (pack .binary64 x)).isNaN = x.isNaN := by
  cases x with
  | notANumber => rfl
  | infinity s => cases s <;> rfl
  | zero s => cases s <;> rfl
  | finite s m e hm =>
    have hall : 0#11 ≠ -1#11 := by decide
    have hcomponents : ∀ (b : BitVec 11) (v : BitVec 52), b ≠ -1#11 →
        (unpack .binary64 (packComponents .binary64 s b v)).isNaN = false := by
      intro b v hb
      unfold unpack
      simp only [unpackExponent_packComponents, hb, if_false]
      split_ifs <;> rfl
    unfold pack
    dsimp only
    split_ifs with h₁ h₂
    · unfold unpack packedInfinity
      simp [isNaN]
    · exact hcomponents _ _ (toNat_lt_of_ne h₁).2
    · exact hcomponents _ _ hall

/-- A positive number, which may be infinite. -/
def Positive : UnpackedFloat → Prop
  | .infinity s | .finite s .. => s = .positive
  | _ => False

/-- A positive number not below the root of the least one. -/
def Root : UnpackedFloat → Prop
  | .infinity s => s = .positive
  | .finite s m e _ => s = .positive ∧ Canonical m e ∧ -536 ≤ totalExponent m e
  | _ => False

theorem root_unpack_pack {m : Nat} {e : Int} (a : Accuracy) (hm : 0 < m)
    (he : e ≤ Format.binary64.targetExponent (totalExponent m e))
    (hmin : -536 ≤ totalExponent m e) :
    Root (unpack .binary64 (pack .binary64 (roundWithAccuracy .binary64 .positive m e a))) := by
  obtain ⟨m', e', hm', hround, hcanonical, htotal, -⟩ :=
    roundWithAccuracy_spec .positive a hm he (by omega)
  rw [hround]
  rcases unpack_pack_of_canonical .positive hm' hcanonical with h | h
  · rw [h]
    rfl
  · rw [h]
    exact ⟨rfl, hcanonical, hmin.trans htotal⟩

theorem sqrtCore_spec {m : Nat} {e : Int} (hm : 0 < m) (h : Canonical m e) :
    ∃ r t a, sqrtCore .binary64 m e = (r, t, a) ∧ 0 < r ∧
      t ≤ Format.binary64.targetExponent (totalExponent r t) ∧ -536 ≤ totalExponent r t := by
  obtain ⟨t, ht⟩ : ∃ t, t = min (e / 2)
    (Format.binary64.targetExponent ((totalExponent m e + 1) / 2)) := ⟨_, rfl⟩
  obtain ⟨k, hk⟩ : ∃ k, k = (e - 2 * t).toNat := ⟨_, rfl⟩
  refine ⟨Nat.sqrt (m <<< k), t, _, by rw [hk, ht]; rfl, ?_⟩
  rw [canonical_iff] at h
  rw [targetExponent_eq, totalExponent] at ht
  -- the root has about half as many digits
  have hdigits : ∃ j : Nat, (j : Int) = (m.log2 + e) / 2 - t := by
    refine ⟨((m.log2 + e) / 2 - t).toNat, ?_⟩
    omega
  obtain ⟨j, hj⟩ := hdigits
  have hsquare : 2 ^ j * 2 ^ j ≤ m <<< k :=
    calc 2 ^ j * 2 ^ j = 2 ^ (j + j) := (pow_add 2 j j).symm
      _ ≤ 2 ^ (m.log2 + k) := Nat.pow_le_pow_right (by decide) (by omega)
      _ = 2 ^ m.log2 * 2 ^ k := pow_add 2 _ _
      _ ≤ m * 2 ^ k := Nat.mul_le_mul_right _ ((Nat.le_log2 hm.ne').1 le_rfl)
      _ = m <<< k := (Nat.shiftLeft_eq m k).symm
  have hroot := Nat.le_sqrt.2 hsquare
  have hpos : 0 < Nat.sqrt (m <<< k) := Nat.lt_of_lt_of_le (by positivity) hroot
  have hlog := (Nat.le_log2 hpos.ne').2 hroot
  rw [targetExponent_eq, totalExponent]
  omega

theorem root_sqrt {b : BitVec Format.binary64.numBits} (h : Positive (unpack .binary64 b)) :
    Root (unpack .binary64 (pack .binary64 (sqrt .binary64 (unpack .binary64 b)))) := by
  cases hx : unpack .binary64 b with
  | notANumber | zero s =>
    rw [hx] at h
    cases h
  | infinity s =>
    rw [hx] at h
    cases h
    exact rfl
  | finite s m e hm =>
    rw [hx] at h
    cases h
    obtain ⟨r, t, a, hcore, hr, ht, hmin⟩ := sqrtCore_spec hm (canonical_of_unpack hx)
    rw [sqrt, hcore]
    exact root_unpack_pack a hr ht hmin

/-- A product of positive numbers is infinite, or it is the rounded product of the mantissas. -/
theorem mul_of_positive {x y : UnpackedFloat} (hx : Positive x) (hy : Positive y) :
    mul .binary64 x y = .infinity .positive ∨ ∃ m e hm m' e' hm',
      x = .finite .positive m e hm ∧ y = .finite .positive m' e' hm' ∧
      mul .binary64 x y = roundWithAccuracy .binary64 .positive (m * m') (e + e') .exact := by
  cases x with
  | notANumber | zero s => cases hx
  | infinity s =>
    cases hx
    cases y with
    | notANumber | zero s => cases hy
    | infinity s | finite s m e hm =>
      cases hy
      exact .inl rfl
  | finite s m e hm =>
    cases hx
    cases y with
    | notANumber | zero s => cases hy
    | infinity s =>
      cases hy
      exact .inl rfl
    | finite s' m' e' hm' =>
      cases hy
      exact .inr ⟨m, e, hm, m', e', hm', rfl, rfl, rfl⟩

theorem Root.positive {x : UnpackedFloat} (h : Root x) : Positive x := by
  cases x with
  | notANumber | zero s => cases h
  | infinity s => exact h
  | finite s m e hm => exact h.1

/-- The product of two roots does not vanish. -/
theorem positive_mul {x y : UnpackedFloat} (hx : Root x) (hy : Root y) :
    Positive (unpack .binary64 (pack .binary64 (mul .binary64 x y))) := by
  rcases mul_of_positive hx.positive hy.positive with hmul | ⟨m, e, hm, m', e', hm', rfl, rfl, hmul⟩
  · rw [hmul]
    rfl
  · obtain ⟨-, hc, htotal⟩ := hx
    obtain ⟨-, hc', htotal'⟩ := hy
    rw [canonical_iff] at hc hc'
    rw [totalExponent] at htotal htotal'
    have hpow : 2 ^ (m.log2 + m'.log2) ≤ m * m' := by
      rw [pow_add]
      exact Nat.mul_le_mul ((Nat.le_log2 hm.ne').1 le_rfl) ((Nat.le_log2 hm'.ne').1 le_rfl)
    have hlog := (Nat.le_log2 (Nat.mul_pos hm hm').ne').2 hpow
    obtain ⟨m₁, e₁, hm₁, hround, hcanonical, -⟩ := roundWithAccuracy_spec .positive
      (m := m * m') (e := e + e') .exact (Nat.mul_pos hm hm')
      (by rw [targetExponent_eq, totalExponent]; omega) (by rw [totalExponent]; omega)
    rw [hmul, hround]
    rcases unpack_pack_of_canonical _ hm₁ hcanonical with h | h <;> rw [h] <;> exact rfl

theorem isNaN_div {x y : UnpackedFloat} (hx : x.isFinite = true) (hy : Positive y) :
    (div .binary64 x y).isNaN = false := by
  have hround : ∀ (s : Sign) (m : Nat) (e : Int) (a : Accuracy),
      (roundWithAccuracy .binary64 s m e a).isNaN = false := by
    intro s m e a
    unfold roundWithAccuracy
    dsimp only
    split_ifs <;> rfl
  cases x with
  | notANumber | infinity s => cases hx
  | zero s =>
    cases y with
    | notANumber | zero s' => cases hy
    | infinity s' | finite s' m' e' hm' => rfl
  | finite s m e hm =>
    cases y with
    | notANumber | zero s' => cases hy
    | infinity s' => rfl
    | finite s' m' e' hm' => exact hround _ _ _ _

theorem positive_of_not_le {a : Float} (ha : a.isNaN = false) (h : ¬a ≤ 0) :
    Positive a.toModel.unpack := by
  rw [le_iff] at h
  cases hx : a.toModel.unpack with
  | notANumber =>
    change a.toModel.unpack.isNaN = false at ha
    rw [hx] at ha
    cases ha
  | zero s =>
    rw [hx] at h
    exact absurd (by cases s <;> rfl) h
  | infinity s | finite s m e hm =>
    rw [hx] at h
    cases s with
    | negative => exact absurd rfl h
    | positive => exact rfl

/-- A finite number over a product of roots of positive numbers is a number. -/
theorem isNaN_div_mul_sqrt {a b c : Float} (ha : a.isNaN = false) (hb : b.isNaN = false)
    (ha₀ : ¬a ≤ 0) (hb₀ : ¬b ≤ 0) (hc : c.isFinite = true) :
    (c / (a.sqrt * b.sqrt)).isNaN = false := by
  have hroots := positive_mul (root_sqrt (positive_of_not_le ha ha₀))
    (root_sqrt (positive_of_not_le hb hb₀))
  exact (isNaN_unpack_pack _).trans (isNaN_div hc hroots)

end SymbolicFit.FloatOrder
