import Mathlib
import SymbolicFit.Proofs.AssessmentRuns

/-!
The random draws of an assessment. An assessment first selects its rows, by draws that depend on the
fractions and the training rows only, and then reaches a conclusion about the tree on those rows. So
two assessments from one generator use the same rows and leave the same generator, whatever trees
they are about and however their fits end.
-/

namespace SymbolicFit

/-- The rows that an assessment works on. -/
structure RowSelection where
  /-- The rows of the attempt to tune the tree, if one is made. -/
  tuning : Option (List Nat)
  /-- The rows of the reported quality, unless it is that of the attempt. -/
  scoring : Option (List Nat)

namespace ScoringPolicy

variable {γ : Type}

/-- One uniform draw, the rows of an attempt if it asks for one, and the rows of the quality unless
they are those of the attempt. -/
def select (c : ScoringPolicy) (draws : Draws γ) (d : Dataset Float) :
    ExceptT Failure (StateM γ) RowSelection := do
  let draw ← (draws.uniform : StateM γ Float)
  if draw < c.probability then
    let tuning ← Sampling.rowsBy draws.positions (c.training d) c.tuningFraction
    if c.tuningFraction != c.scoringFraction then
      let scoring ← Sampling.rowsBy draws.positions (c.training d) c.scoringFraction
      return ⟨some tuning, some scoring⟩
    else return ⟨some tuning, none⟩
  else
    let scoring ← Sampling.rowsBy draws.positions (c.training d) c.scoringFraction
    return ⟨none, some scoring⟩

/-- What is concluded about a tree on selected rows. -/
def conclude (c : ScoringPolicy) (solver : LinearSolver Float) (d : Dataset Float)
    (t : Tree Float) (cancelled : Bool) (s : RowSelection) : Except Failure Assessment :=
  let a := match s.tuning with
    | some rows => c.attempt solver d t rows cancelled
    | none => .ok ⟨t, 0, false, {}, none⟩
  match s.scoring with
  | some rows => a.map fun a => { a with quality := c.scoreOf d a.tree rows }
  | none => a

variable {c c' : ScoringPolicy} {solver : LinearSolver Float} {draws : Draws γ}
  {d : Dataset Float} {t : Tree Float} {cancelled : Bool} {g g' : γ} {a : Assessment}

theorem select_run (h : c.training d ≠ []) :
    (c.select draws d).run g =
      if c.attempts draws g then
        if c.tuningFraction != c.scoringFraction then
          (.ok ⟨some (c.attemptRows draws d g).1, some (c.reportRows draws d g)⟩,
            c.reportState draws d g)
        else (.ok ⟨some (c.attemptRows draws d g).1, none⟩, (c.attemptRows draws d g).2)
      else (.ok ⟨none, some (c.reportRows draws d g)⟩, c.reportState draws d g) := by
  unfold select reportRows reportState attempts
  rw [Fitting.run_bind, Fitting.run_state]
  simp only [decide_eq_true_eq]
  by_cases hd : (draws.uniform g).1 < c.probability
  · rw [if_pos hd, if_pos hd, if_pos hd, Fitting.run_bind, Sampling.rowsBy_run h]
    dsimp only
    by_cases hf : (c.tuningFraction != c.scoringFraction) = true
    · rw [if_pos hf, if_pos hf, Fitting.run_bind, Sampling.rowsBy_run h]
      rfl
    · rw [if_neg hf, if_neg hf]
      rfl
  · rw [if_neg hd, if_neg hd, if_neg hd, Fitting.run_bind, Sampling.rowsBy_run h]
    rfl

variable (solver draws t cancelled g) in
/-- An assessment concludes from the rows it selects, and leaves the generator of the selection
unless its fit is cancelled. -/
theorem assess_of_select (h : c.Usable d) : ∃ s g', (c.select draws d).run g = (.ok s, g') ∧
    (c.assess solver draws t d cancelled).run g =
      match c.conclude solver d t cancelled s with
      | .ok a => (.ok a, g')
      | .error e => (.error e, (c.attemptRows draws d g).2) := by
  rw [assess_run solver draws t cancelled g h, select_run h.nonempty]
  unfold conclude
  by_cases ha : c.attempts draws g = true
  · rw [if_pos ha, if_pos ha]
    by_cases hf : (c.tuningFraction != c.scoringFraction) = true
    · refine ⟨_, _, if_pos hf, ?_⟩
      simp only [hf, if_true]
      cases c.attempt solver d t (c.attemptRows draws d g).1 cancelled <;> rfl
    · refine ⟨_, _, if_neg hf, ?_⟩
      simp only [hf]
      cases c.attempt solver d t (c.attemptRows draws d g).1 cancelled <;> rfl
  · rw [if_neg ha, if_neg ha]
    exact ⟨_, _, rfl, rfl⟩

/-- An assessment succeeds when the conclusion from its selected rows does. -/
theorem assess_ok_iff : (c.assess solver draws t d cancelled).run g = (.ok a, g') ↔
    c.Usable d ∧ ∃ s, (c.select draws d).run g = (.ok s, g') ∧
      c.conclude solver d t cancelled s = .ok a := by
  by_cases hu : c.Usable d
  · obtain ⟨s, g₁, hs, ha⟩ := assess_of_select solver draws t cancelled g hu
    rw [hs, ha]
    cases hc : c.conclude solver d t cancelled s with
    | error e =>
      refine iff_of_false nofun ?_
      rintro ⟨-, s', hs', hc'⟩
      cases hs'
      rw [hc] at hc'
      cases hc'
    | ok b =>
      constructor
      · intro h
        cases h
        exact ⟨hu, s, rfl, hc⟩
      · rintro ⟨-, s', hs', hc'⟩
        cases hs'
        rw [hc] at hc'
        cases hc'
        rfl
  · obtain ⟨e, he, -⟩ := assess_unusable solver draws t cancelled g hu
    rw [he]
    exact iff_of_false nofun fun h => hu h.1

theorem Usable.congr (h : c.Usable d) (hr : c.trainingRows = c'.trainingRows)
    (ht : c.target = c'.target) : c'.Usable d := by
  have htraining : c'.training d = c.training d := by rw [training, training, hr]
  exact ⟨htraining ▸ h.nonempty, htraining ▸ h.inside, ht ▸ h.target⟩

/-- Policies that ask a generator for the same. -/
structure SameDraws (c c' : ScoringPolicy) : Prop where
  probability : c.probability = c'.probability
  tuningFraction : c.tuningFraction = c'.tuningFraction
  scoringFraction : c.scoringFraction = c'.scoringFraction
  trainingRows : c.trainingRows = c'.trainingRows

theorem SameDraws.select (h : SameDraws c c') : c.select draws d = c'.select draws d := by
  unfold ScoringPolicy.select training
  rw [h.probability, h.tuningFraction, h.scoringFraction, h.trainingRows]

end ScoringPolicy

namespace Evaluator

variable {γ : Type} {solver : LinearSolver Float} {draws : Draws γ}

theorem assess_ok {e e₁ : Evaluator} {t : Tree Float} {d : Dataset Float} {cancelled : Bool}
    {g g₁ : γ} {a : Assessment} (h : e.assess solver draws t d cancelled g = (.ok a, e₁, g₁)) :
    (e.policy.assess solver draws t d cancelled).run g = (.ok a, g₁) := by
  unfold assess at h
  rcases hr : (e.policy.assess solver draws t d cancelled).run g with ⟨err | b, g'⟩
  · simp [hr] at h
  · simp only [hr] at h
    cases h
    rfl

/-- Two assessments with the same draws that start from the same generator select the same rows and
leave the generator of that selection; what they conclude about their trees is all that differs. -/
theorem assess_same_draws (e e' : Evaluator) (h : e.policy.SameDraws e'.policy)
    (solver solver' : LinearSolver Float) (draws : Draws γ) (d : Dataset Float)
    (t t' : Tree Float) (cancelled cancelled' : Bool) (g : γ) (a a' : Assessment)
    (e₁ e₁' : Evaluator) (g₁ g₁' : γ)
    (ha : e.assess solver draws t d cancelled g = (.ok a, e₁, g₁))
    (ha' : e'.assess solver' draws t' d cancelled' g = (.ok a', e₁', g₁')) :
    g₁ = g₁' ∧ ∃ s : RowSelection,
      (e.policy.select draws d).run g = (.ok s, g₁) ∧
      (e'.policy.select draws d).run g = (.ok s, g₁) ∧
      e.policy.conclude solver d t cancelled s = .ok a ∧
      e'.policy.conclude solver' d t' cancelled' s = .ok a' := by
  obtain ⟨-, s, hs, hc⟩ := ScoringPolicy.assess_ok_iff.1 (assess_ok ha)
  obtain ⟨-, s', hs', hc'⟩ := ScoringPolicy.assess_ok_iff.1 (assess_ok ha')
  rw [← h.select] at hs' ⊢
  rw [hs] at hs'
  cases hs'
  exact ⟨rfl, s, hs, hs, hc, hc'⟩

variable (solver draws) in
theorem exists_assess_ok (e : Evaluator) {t : Tree Float} {d : Dataset Float} {g : γ}
    (hu : e.policy.Usable d) :
    ∃ a e₁ g₁, e.assess solver draws t d false g = (.ok a, e₁, g₁) := by
  have hn : ¬e.policy.IsCancelled draws d t false g := fun h => Bool.false_ne_true h.2.1
  obtain ⟨a, ha⟩ : ∃ a, ((e.policy.assess solver draws t d false).run g).1 = .ok a :=
    ScoringPolicy.assess_ok hu hn
  rw [← assess_fst] at ha
  exact ⟨a, _, _, Prod.ext ha rfl⟩

/-- Tunes each tree on half of the rows. -/
def halfPolicy (budget : Nat) (excluded : List Nat) : ScoringPolicy :=
  { eagerPolicy with tuningFraction := 0.5, budget, excluded }

theorem halfPolicy_sameDraws (budget budget' : Nat) (excluded excluded' : List Nat) :
    (halfPolicy budget excluded).SameDraws (halfPolicy budget' excluded') := ⟨rfl, rfl, rfl, rfl⟩

/-- A fit and an attempt that fails, with other settings, leave the same generator. -/
theorem assess_same_draws_half : ∃ a a' e₁ e₁' g₁,
    (ofPolicy (halfPolicy 1 [])).assess .orthogonal .ofWords (lineTree 1 1) (lineData 1 2 3 5)
      false (⟨0⟩ : SplitMix) = (.ok a, e₁, g₁) ∧
    (ofPolicy (halfPolicy 7 [1])).assess .orthogonal .ofWords (.node (.unknown "f") [])
      (lineData 1 2 3 5) false (⟨0⟩ : SplitMix) = (.ok a', e₁', g₁) ∧
    ∃ s : RowSelection,
      ((halfPolicy 1 []).select .ofWords (lineData 1 2 3 5)).run (⟨0⟩ : SplitMix) =
        (.ok s, g₁) := by
  have hu := eagerPolicy_usable 1 2 3 5
  obtain ⟨a, e₁, g₁, ha⟩ := exists_assess_ok .orthogonal .ofWords (t := lineTree 1 1)
    (g := (⟨0⟩ : SplitMix)) (ofPolicy (halfPolicy 1 [])) (hu.congr rfl rfl)
  obtain ⟨a', e₁', g₁', ha'⟩ := exists_assess_ok .orthogonal .ofWords (t := .node (.unknown "f") [])
    (g := (⟨0⟩ : SplitMix)) (ofPolicy (halfPolicy 7 [1])) (hu.congr rfl rfl)
  obtain ⟨hg, s, hs, -⟩ := assess_same_draws (γ := SplitMix) (ofPolicy (halfPolicy 1 []))
    (ofPolicy (halfPolicy 7 [1])) (halfPolicy_sameDraws 1 7 [] [1]) .orthogonal .orthogonal .ofWords
    (lineData 1 2 3 5) (lineTree 1 1) (.node (.unknown "f") []) false false ⟨0⟩ a a' e₁ e₁' g₁ g₁'
    ha ha'
  subst hg
  exact ⟨a, a', e₁, e₁', g₁, ha, ha', s, hs⟩

end Evaluator

end SymbolicFit
