import Mathlib
import SymbolicFit.Proofs.Assessments
import SymbolicFit.Proofs.FloatSquares
import SymbolicFit.Proofs.TunedTrees

/-!
The quality that an assessment reports. It lies in the unit interval, and it was taken from the tree
that is returned, on rows that are told by the policy.
-/

namespace SymbolicFit

open FloatOrder

/-- A number from zero to one. -/
structure InUnit (q : Float) : Prop where
  number : q.isNaN = false
  nonneg : 0 ≤ q
  le_one : q ≤ 1

theorem inUnit_zero : InUnit 0 := ⟨by decide, by decide, by decide⟩

theorem inUnit_one : InUnit 1 := ⟨by decide, by decide, by decide⟩

/-- Capping a square at one takes it into the unit interval, also where it is not a number. -/
theorem inUnit_lesser_mul_self (x : Float) : InUnit (Scalar.lesser (x * x) 1) := by
  unfold Scalar.lesser
  split_ifs with hnan hone
  · exact inUnit_one
  · exact inUnit_one
  · have hn : (x * x).isNaN = false := Bool.eq_false_of_not_eq_true hnan
    exact ⟨hn, zero_le_mul_self hn, le_of_not_lt hn inUnit_one.number hone⟩

theorem Limits.quality_inUnit (l : Limits Float) (estimated observed : List Float) :
    InUnit (l.quality estimated observed) := by
  unfold quality squaredCorrelation? Moments.squaredCorrelation?
  split_ifs
  · exact inUnit_zero
  · exact inUnit_zero
  · exact inUnit_lesser_mul_self _
  · exact inUnit_zero

theorem Tree.quality_inUnit {t : Tree Float} {d : Dataset Float} {target : String}
    {rows : List Nat} {l : Limits Float} {q : Float} (h : t.quality d target rows l = .ok q) :
    InUnit q := by
  unfold Tree.quality at h
  by_cases hr : rows.isEmpty = true
  · rw [if_pos hr] at h
    cases h
  · rw [if_neg hr] at h
    obtain ⟨estimated, -, h⟩ := bind_eq_ok.1 h
    obtain ⟨observed, -, h⟩ := bind_eq_ok.1 h
    cases h
    exact l.quality_inUnit estimated observed

namespace ScoringPolicy

variable {c : ScoringPolicy} {solver : LinearSolver Float} {d : Dataset Float} {t : Tree Float}
  {rows : List Nat} {cancelled : Bool}

theorem scoreOf_inUnit : InUnit (c.scoreOf d t rows) := by
  unfold scoreOf
  cases h : t.quality d c.target rows c.limits with
  | error e => exact inUnit_zero
  | ok q => exact Tree.quality_inUnit h

/-- An attempt that returns either keeps the tree with its score, or a fit that is good enough. -/
theorem attempt_ok {a : Assessment} (h : c.attempt solver d t rows cancelled = .ok a) :
    (a.tuned = false ∧ a.tree = t ∧ a.rescaling = none ∧ a.quality = c.scoreOf d t rows) ∨
    (a.tuned = true ∧ ∃ r, t.tune solver d c.target rows c.tuningSettings cancelled = .ok r ∧
      a.tree = (if c.keepTuned then r.tree else t) ∧ a.quality = c.scoreOf d r.tree rows ∧
      ¬acceptedLoss < c.scoreOf d t rows - c.scoreOf d r.tree rows) := by
  cases ht : t.tune solver d c.target rows c.tuningSettings cancelled with
  | error e =>
    by_cases he : e.isRecoverable = true
    · rw [attempt_of_recoverable he ht] at h
      cases h
      exact .inl ⟨rfl, rfl, rfl, rfl⟩
    · obtain rfl : e = .cancelled := by cases e <;> simp_all [Failure.isRecoverable]
      rw [attempt_of_cancelled ht] at h
      cases h
  | ok r =>
    rw [attempt_of_tuned ht] at h
    split_ifs at h with hloss
    all_goals cases h
    · exact .inl ⟨rfl, rfl, rfl, rfl⟩
    all_goals exact .inr ⟨rfl, r, rfl, by simp [*], rfl, hloss⟩

section Assess

variable {γ : Type} {draws : Draws γ} {g : γ} {a : Assessment}

/-- An assessment that returns is an attempt, rescored if the fractions differ, or a score alone. -/
theorem assess_inv (h : ((c.assess solver draws t d cancelled).run g).1 = .ok a) :
    (c.attempts draws g = false ∧
      a = ⟨t, c.scoreOf d t (c.reportRows draws d g), false, {}, none⟩) ∨
    (c.attempts draws g = true ∧
      ∃ b, c.attempt solver d t (c.attemptRows draws d g).1 cancelled = .ok b ∧
      a = if c.tuningFraction != c.scoringFraction then
        { b with quality := c.scoreOf d b.tree (c.reportRows draws d g) } else b) := by
  by_cases hu : c.Usable d
  · rw [assess_usable solver draws t cancelled g hu] at h
    by_cases hd : c.attempts draws g = true
    · rw [if_pos hd] at h
      obtain ⟨b, hb, rfl⟩ := map_eq_ok.1 h
      exact .inr ⟨hd, b, hb, rfl⟩
    · rw [if_neg hd] at h
      exact .inl ⟨Bool.eq_false_of_not_eq_true hd, (Except.ok.inj h).symm⟩
  · obtain ⟨err, herr, -⟩ := assess_unusable solver draws t cancelled g hu
    rw [herr] at h
    cases h

theorem assess_reported (h : ((c.assess solver draws t d cancelled).run g).1 = .ok a)
    (hr : c.attempts draws g = false ∨ (c.tuningFraction != c.scoringFraction) = true) :
    a.quality = c.scoreOf d a.tree (c.reportRows draws d g) := by
  rcases assess_inv h with ⟨-, rfl⟩ | ⟨hd, b, -, rfl⟩
  · rfl
  · rw [if_pos (hr.resolve_left (by simp [hd]))]

theorem assess_attempted (h : ((c.assess solver draws t d cancelled).run g).1 = .ok a)
    (hd : c.attempts draws g = true) (hf : (c.tuningFraction != c.scoringFraction) = false) :
    c.attempt solver d t (c.attemptRows draws d g).1 cancelled = .ok a := by
  rcases assess_inv h with ⟨hn, -⟩ | ⟨-, b, hb, rfl⟩
  · exact absurd (hd.symm.trans hn) nofun
  · rwa [if_neg (by simp [hf])]

theorem assess_untuned (h : ((c.assess solver draws t d cancelled).run g).1 = .ok a)
    (ha : a.tuned = false) : a.tree = t ∧ a.rescaling = none := by
  rcases assess_inv h with ⟨-, rfl⟩ | ⟨-, b, hb, rfl⟩
  · exact ⟨rfl, rfl⟩
  · -- rescoring changes the quality only
    have hkept : b.tuned = false → b.tree = t ∧ b.rescaling = none := by
      intro hn
      rcases attempt_ok hb with ⟨-, htree, hrescaling, -⟩ | ⟨ht, -⟩
      · exact ⟨htree, hrescaling⟩
      · exact absurd (hn.symm.trans ht) nofun
    split_ifs at ha ⊢
    · exact hkept ha
    · exact hkept ha

theorem assess_inUnit (h : ((c.assess solver draws t d cancelled).run g).1 = .ok a) :
    InUnit a.quality := by
  by_cases hr : c.attempts draws g = false ∨ (c.tuningFraction != c.scoringFraction) = true
  · rw [assess_reported h hr]
    exact scoreOf_inUnit
  · rw [not_or, Bool.not_eq_false, Bool.not_eq_true] at hr
    rcases attempt_ok (assess_attempted h hr.1 hr.2) with ⟨-, -, -, hq⟩ | ⟨-, r, -, -, hq, -⟩
    · exact hq ▸ scoreOf_inUnit
    · exact hq ▸ scoreOf_inUnit

end Assess

end ScoringPolicy

/-- The reported quality lies in the unit interval. Where it is taken from an attempt it is the
score of the tree on the rows of the attempt, or that of the fit if the tree is not to be changed,
and not much below the score of the given tree. Otherwise it is the score of the tree on the rows
of the report. Without a fit the tree is the given one. -/
theorem Evaluator.assess_quality {γ : Type} (e : Evaluator) (solver : LinearSolver Float)
    (draws : Draws γ) (t : Tree Float) (d : Dataset Float) (cancelled : Bool) (g : γ)
    (a : Assessment) (h : (e.assess solver draws t d cancelled g).1 = .ok a) :
    let c := e.policy
    let rows := (c.attemptRows draws d g).1
    InUnit a.quality ∧
    (c.attempts draws g = false ∨ (c.tuningFraction != c.scoringFraction) = true →
      a.quality = c.scoreOf d a.tree (c.reportRows draws d g)) ∧
    (c.attempts draws g = true → (c.tuningFraction != c.scoringFraction) = false →
      (if a.tuned = true ∧ c.keepTuned = false then
        ∃ r, t.tune solver d c.target rows c.tuningSettings cancelled = .ok r ∧
          a.quality = c.scoreOf d r.tree rows
      else a.quality = c.scoreOf d a.tree rows) ∧
      ¬ScoringPolicy.acceptedLoss < c.scoreOf d t rows - a.quality) ∧
    (a.tuned = false → a.tree = t ∧ a.rescaling = none) := by
  intro c rows
  rw [Evaluator.assess_fst] at h
  refine ⟨ScoringPolicy.assess_inUnit h, ScoringPolicy.assess_reported h, fun hd hf => ?_,
    ScoringPolicy.assess_untuned h⟩
  rcases ScoringPolicy.attempt_ok (ScoringPolicy.assess_attempted h hd hf) with
    ⟨ht, htree, -, hq⟩ | ⟨ht, r, hr, htree, hq, hloss⟩
  · rw [ht, htree, hq, if_neg nofun]
    exact ⟨rfl, not_lt_sub_self (by decide) _⟩
  · rw [ht, htree, hq]
    refine ⟨?_, hloss⟩
    cases c.keepTuned
    · rw [if_pos ⟨rfl, rfl⟩]
      exact ⟨r, hr, rfl⟩
    · rw [if_neg nofun]
      rfl

theorem Evaluator.assess_quality_line :
    ∃ a, ((ofPolicy eagerPolicy).assess .orthogonal .ofWords (lineTree 1 1) (lineData 1 2 3 5) false
        (⟨0⟩ : SplitMix)).1 = .ok a ∧
      a.tuned = true ∧ a.tree.same (lineTree 1 1) = false ∧ InUnit a.quality ∧
      a.quality = eagerPolicy.scoreOf (lineData 1 2 3 5) a.tree [0, 1] := by
  have hu := eagerPolicy_usable 1 2 3 5
  have hrows := eagerPolicy_attemptRows 1 2 3 5 .ofWords (⟨0⟩ : SplitMix)
  obtain ⟨r, hr, hgood⟩ := exists_ok_of_any
    (p := fun r => !r.tree.same (lineTree 1 1) && !decide (ScoringPolicy.acceptedLoss <
      eagerPolicy.scoreOf (lineData 1 2 3 5) (lineTree 1 1) [0, 1] -
        eagerPolicy.scoreOf (lineData 1 2 3 5) r.tree [0, 1]))
    (x := (lineTree (1 : Float) 1).tune .orthogonal (lineData 1 2 3 5) "y" [0, 1]
      eagerPolicy.tuningSettings false) (by decide +kernel)
  rw [Bool.and_eq_true, Bool.not_eq_true', Bool.not_eq_true', decide_eq_false_iff_not] at hgood
  obtain ⟨a, ha, htuned, hmoved⟩ : ∃ a, ((ofPolicy eagerPolicy).assess .orthogonal .ofWords
      (lineTree 1 1) (lineData 1 2 3 5) false (⟨0⟩ : SplitMix)).1 = .ok a ∧
      a.tuned = true ∧ a.tree.same (lineTree 1 1) = false := by
    rw [Evaluator.assess_fst]
    change ∃ a, ((eagerPolicy.assess _ _ _ _ _).run _).1 = _ ∧ _
    rw [ScoringPolicy.assess_usable _ _ _ _ _ hu, if_pos eagerPolicy_attempts, hrows,
      ScoringPolicy.attempt_of_tuned hr, if_neg hgood.2]
    exact ⟨_, rfl, rfl, hgood.1⟩
  obtain ⟨hunit, -, hq, -⟩ := Evaluator.assess_quality _ _ _ _ _ _ _ a ha
  have hq := (hq eagerPolicy_attempts (by decide)).1
  rw [if_neg (fun h => absurd h.2 nofun)] at hq
  exact ⟨a, ha, htuned, hmoved, hunit, hq.trans (congrArg _ hrows)⟩

end SymbolicFit
