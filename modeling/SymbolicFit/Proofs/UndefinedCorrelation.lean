import SymbolicFit.Proofs.FloatRounding
import SymbolicFit.Quality

/-!
When an undefined correlation scores. As long as the moments have not overflowed it does not, since
a spread vanishes; after an overflow it may pass both checks of the spreads, and then it is capped
to one.
-/

namespace SymbolicFit

open FloatOrder

namespace Moments

/-- The spreads are numbers and the covariation is finite. -/
structure Settled (m : Moments Float) : Prop where
  spreadEstimated : m.spreadEstimated.isNaN = false
  spreadObserved : m.spreadObserved.isNaN = false
  covariation : m.covariation.isFinite = true

variable {m : Moments Float}

/-- Settled moments with positive spreads have a correlation. -/
theorem Settled.isNaN_correlation (h : m.Settled) {q : Float}
    (hq : m.squaredCorrelation? = some q) : m.correlation.isNaN = false := by
  unfold squaredCorrelation? at hq
  split_ifs at hq with hspread
  obtain ⟨he, ho⟩ := not_or.1 hspread
  exact isNaN_div_mul_sqrt h.spreadEstimated h.spreadObserved he ho h.covariation

theorem isNaN_mul_self {x : Float} (h : x.isNaN = true) : (x * x).isNaN = true := by
  have hx : x.toModel.unpack = .notANumber := by
    change x.toModel.unpack.isNaN = true at h
    cases hu : x.toModel.unpack with
    | notANumber => rfl
    | infinity s | zero s | finite s m e hm =>
      rw [hu] at h
      cases h
  refine (isNaN_unpack_pack _).trans ?_
  rw [hx]
  rfl

/-- The cap takes the place of an undefined square. -/
theorem squaredCorrelation?_of_isNaN (h : m.correlation.isNaN = true) :
    m.squaredCorrelation? = none ∨ m.squaredCorrelation? = some 1 := by
  unfold squaredCorrelation?
  split_ifs with hspread
  · exact .inl rfl
  · exact .inr (congrArg some (if_pos (isNaN_mul_self h)))

end Moments

theorem squaredCorrelation?_eq_none_or (estimated observed : List Float) :
    squaredCorrelation? estimated observed = none ∨ squaredCorrelation? estimated observed =
      (Moments.ofPairs (estimated.zip observed)).squaredCorrelation? := by
  unfold squaredCorrelation?
  split_ifs
  · exact .inl rfl
  · exact .inr rfl
  · exact .inl rfl

/-- An undefined correlation does not score while the moments are settled. In any case it scores
zero or one. -/
theorem correlation_undefined (estimated observed : List Float) (m : Moments Float)
    (hm : m = Moments.ofPairs (estimated.zip observed)) (h : m.correlation.isNaN = true) :
    (m.Settled → squaredCorrelation? estimated observed = none ∧
      ∀ (l : Limits Float) values, values.map l.clamp = estimated →
        l.quality values observed = 0) ∧
    (squaredCorrelation? estimated observed = none ∨
      squaredCorrelation? estimated observed = some 1) := by
  subst hm
  have hcases := squaredCorrelation?_eq_none_or estimated observed
  constructor
  · intro hs
    have hnone : squaredCorrelation? estimated observed = none := by
      rcases hcases with hn | hq
      · exact hn
      · rw [hq]
        cases hm : (Moments.ofPairs (estimated.zip observed)).squaredCorrelation? with
        | none => rfl
        | some q => exact absurd (h.symm.trans (hs.isNaN_correlation hm)) nofun
    refine ⟨hnone, fun l values hvalues => ?_⟩
    rw [Limits.quality, hvalues, hnone]
    rfl
  · rcases hcases with hn | hq
    · exact .inl hn
    · rw [hq]
      exact Moments.squaredCorrelation?_of_isNaN h

/-- A constant list has no correlation with another one, also where the spread of that one is
infinite. -/
theorem correlation_undefined_constant :
    squaredCorrelation? [(1 : Float), 1] [1, 2] = none ∧
    squaredCorrelation? [(0 : Float), 1e200] [1, 1] = none := by
  have hn : (Moments.ofPairs ([(1 : Float), 1].zip [1, 2])).correlation.isNaN = true := by
    decide +kernel
  have hs : (Moments.ofPairs ([(1 : Float), 1].zip [1, 2])).Settled :=
    ⟨by decide +kernel, by decide +kernel, by decide +kernel⟩
  have hn' : (Moments.ofPairs ([(0 : Float), 1e200].zip [1, 1])).correlation.isNaN = true := by
    decide +kernel
  have hs' : (Moments.ofPairs ([(0 : Float), 1e200].zip [1, 1])).Settled :=
    ⟨by decide +kernel, by decide +kernel, by decide +kernel⟩
  exact ⟨((correlation_undefined [1, 1] [1, 2] _ rfl hn).1 hs).1,
    ((correlation_undefined [0, 1e200] [1, 1] _ rfl hn').1 hs').1⟩

section Overflow

/-- The tree that predicts the values of a column. -/
def copyTree : Tree Float := .node (.column "x" 1 0 none) []

def hugeData : Dataset Float where
  rows := some 3
  columns := [("x", .numbers #[0, 1e200, 0]), ("y", .numbers #[0, 1e200, 1e200])]

/-- Finite values whose moments overflow: the correlation is undefined, and scores one. -/
theorem correlation_undefined_overflow :
    ([0, 1e200, 0] ++ [0, 1e200, 1e200]).all Float.isFinite = true ∧
    (Moments.ofPairs ([0, 1e200, 0].zip [0, 1e200, (1e200 : Float)])).correlation.isNaN = true ∧
    squaredCorrelation? [0, 1e200, 0] [0, 1e200, (1e200 : Float)] = some 1 ∧
    copyTree.quality hugeData "y" [0, 1, 2] .finite = .ok 1 := by
  exact ⟨by decide +kernel, by decide +kernel, by decide +kernel, by decide +kernel⟩

end Overflow

end SymbolicFit
