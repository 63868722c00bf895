import Mathlib
import SymbolicFit.Evaluator
import SymbolicFit.Random
import SymbolicFit.Proofs.FitFailures
import SymbolicFit.Proofs.SampledRows

/-!
What an assessment returns. On usable data rows can always be selected and every tree has a score,
so the outcome is told by the fit alone.
-/

namespace SymbolicFit

variable {γ : Type}

namespace Fitting

variable {σ β δ : Type}

theorem run_bind (x : Fitting σ β) (f : β → Fitting σ δ) (s : σ) :
    (x >>= f).run s = match x.run s with
      | (.ok b, s') => (f b).run s'
      | (.error e, s') => (.error e, s') := bind_apply x f s

theorem run_except (x : Except Failure β) (s : σ) : (liftM x : Fitting σ β).run s = (x, s) := rfl

theorem run_state (x : StateM σ β) (s : σ) :
    (liftM x : Fitting σ β).run s = (.ok (x s).1, (x s).2) := rfl

end Fitting

namespace Sampling

variable {sample : Nat → Nat → StateM γ (List Nat)}

/-- The rows selected, none from an empty list, and the generator afterwards. -/
def selected (sample : Nat → Nat → StateM γ (List Nat)) (all : List Nat) (fraction : Float)
    (g : γ) : List Nat × γ :=
  let (r, g') := (rowsBy sample all fraction).run g
  (r.toOption.getD [], g')

theorem rowsBy_run {all : List Nat} (h : all ≠ []) (fraction : Float) (g : γ) :
    (rowsBy sample all fraction).run g =
      (.ok (selected sample all fraction g).1, (selected sample all fraction g).2) := by
  have hok : ∃ rs g', (rowsBy sample all fraction).run g = (.ok rs, g') := by
    rcases le_or_gt all.length (size fraction all.length) with hge | hlt
    · exact ⟨_, _, rowsBy_of_size_ge h hge g⟩
    · exact ⟨_, _, rowsBy_of_size_lt h hlt g⟩
  obtain ⟨rs, g', h⟩ := hok
  rw [selected, h]
  rfl

/-- A full fraction selects all rows and draws nothing. -/
theorem selected_of_size_ge {all : List Nat} {fraction : Float} (ha : all ≠ [])
    (h : all.length ≤ size fraction all.length) (g : γ) :
    selected sample all fraction g = (all.mergeSort, g) := by
  rw [selected, rowsBy_of_size_ge ha h]
  rfl

end Sampling

theorem checkRows_ok_iff {rows : List Nat} {n : Nat} :
    checkRows rows n = .ok () ↔ rows ≠ [] ∧ ∀ row ∈ rows, row < n := by
  unfold checkRows
  split_ifs with h
  · simpa using fun hn => absurd (by simpa using h) hn
  · cases hf : rows.find? (n ≤ ·) with
    | none => simpa using ⟨by simpa using h, by simpa using hf⟩
    | some row =>
      have hr := List.find?_some hf
      simp only [decide_eq_true_eq] at hr
      simpa using fun _ => ⟨row, List.mem_of_find?_eq_some hf, hr⟩

theorem checkRows_recoverable (rows : List Nat) (n : Nat) : Recoverable (checkRows rows n) := by
  unfold checkRows
  split_ifs
  · exact .error rfl
  · split
    · exact .error rfl
    · exact .ok _

theorem checkTarget_ok_iff {d : Dataset Float} {target : String} :
    checkTarget d target = .ok () ↔ d.typeOf? target = some .number := by
  unfold checkTarget
  split <;> simp_all

theorem checkTarget_recoverable (d : Dataset Float) (target : String) :
    Recoverable (checkTarget d target) := by
  unfold checkTarget
  split
  · exact .ok _
  · exact .error rfl
  · exact .error rfl

namespace ScoringPolicy

/-- There are training rows, all of them in the dataset, and the target is a column of numbers. -/
structure Usable (c : ScoringPolicy) (d : Dataset Float) : Prop where
  nonempty : c.training d ≠ []
  inside : ∀ row ∈ c.training d, row < d.rowCount
  target : d.typeOf? c.target = some .number

/-- The quality of a tree, or zero. -/
def scoreOf (c : ScoringPolicy) (d : Dataset Float) (t : Tree Float) (rows : List Nat) : Float :=
  (t.quality d c.target rows c.limits).toOption.getD 0

/-- The first draw asks for an attempt. -/
def attempts (c : ScoringPolicy) (draws : Draws γ) (g : γ) : Bool :=
  (draws.uniform g).1 < c.probability

/-- The rows of an attempt and the generator after it. -/
def attemptRows (c : ScoringPolicy) (draws : Draws γ) (d : Dataset Float) (g : γ) :
    List Nat × γ :=
  Sampling.selected draws.positions (c.training d) c.tuningFraction (draws.uniform g).2

/-- The rows of a quality that is not taken from an attempt. -/
def reportRows (c : ScoringPolicy) (draws : Draws γ) (d : Dataset Float) (g : γ) : List Nat :=
  (Sampling.selected draws.positions (c.training d) c.scoringFraction
    (if c.attempts draws g then (c.attemptRows draws d g).2 else (draws.uniform g).2)).1

/-- The generator after those rows. -/
def reportState (c : ScoringPolicy) (draws : Draws γ) (d : Dataset Float) (g : γ) : γ :=
  (Sampling.selected draws.positions (c.training d) c.scoringFraction
    (if c.attempts draws g then (c.attemptRows draws d g).2 else (draws.uniform g).2)).2

variable {c : ScoringPolicy} {solver : LinearSolver Float} {draws : Draws γ} {d : Dataset Float}
  {t : Tree Float} {rows : List Nat} {cancelled : Bool}

theorem score_eq : c.score d t rows = .ok (c.scoreOf d t rows) := by
  unfold score scoreOf
  cases h : t.quality d c.target rows c.limits with
  | ok q => rfl
  | error e =>
    have hr := t.quality_recoverable d c.target rows c.limits e h
    cases e <;> first | rfl | cases hr

theorem attempt_of_tuned {r : TunedTree Float}
    (h : t.tune solver d c.target rows c.tuningSettings cancelled = .ok r) :
    c.attempt solver d t rows cancelled = .ok
      (if acceptedLoss < c.scoreOf d t rows - c.scoreOf d r.tree rows then
        ⟨t, c.scoreOf d t rows, false, r.passes, none⟩
      else ⟨if c.keepTuned then r.tree else t, c.scoreOf d r.tree rows, true, r.passes,
        r.rescaling⟩) := by
  unfold attempt
  rw [score_eq, h]
  dsimp only [bind, Except.bind]
  rw [score_eq]
  dsimp only
  split_ifs <;> rfl

theorem attempt_of_cancelled
    (h : t.tune solver d c.target rows c.tuningSettings cancelled = .error .cancelled) :
    c.attempt solver d t rows cancelled = .error .cancelled := by
  unfold attempt
  rw [score_eq, h]
  rfl

theorem attempt_of_recoverable {e : Failure} (he : e.isRecoverable = true)
    (h : t.tune solver d c.target rows c.tuningSettings cancelled = .error e) :
    c.attempt solver d t rows cancelled = .ok ⟨t, c.scoreOf d t rows, false, {}, none⟩ := by
  unfold attempt
  rw [score_eq, h]
  cases e <;> first | rfl | cases he

variable (c solver draws d t cancelled) (g : γ)

theorem rescore_run (hc : c.training d ≠ []) (a : Assessment) :
    (assess.rescore c draws d (c.training d) a).run g =
      let (rows, g') := Sampling.selected draws.positions (c.training d) c.scoringFraction g
      (.ok { a with quality := c.scoreOf d a.tree rows }, g') := by
  unfold assess.rescore
  rw [Fitting.run_bind, Sampling.rowsBy_run hc]
  dsimp only
  rw [score_eq]
  rfl

variable {c d}

theorem assess_unusable (h : ¬c.Usable d) :
    ∃ e, (c.assess solver draws t d cancelled).run g = (.error e, g) ∧ e.isRecoverable = true := by
  unfold assess
  dsimp only
  rw [Fitting.run_bind, Fitting.run_except]
  cases hrows : checkRows (c.training d) d.rowCount with
  | error e => exact ⟨e, rfl, checkRows_recoverable _ _ e hrows⟩
  | ok u =>
    dsimp only
    rw [Fitting.run_bind, Fitting.run_except]
    cases htarget : checkTarget d c.target with
    | error e => exact ⟨e, rfl, checkTarget_recoverable _ _ e htarget⟩
    | ok u =>
      obtain ⟨hne, hin⟩ := checkRows_ok_iff.1 hrows
      exact absurd ⟨hne, hin, checkTarget_ok_iff.1 htarget⟩ h

/-- The outcome on usable data, and the generator afterwards. -/
theorem assess_run (h : c.Usable d) :
    (c.assess solver draws t d cancelled).run g =
      if c.attempts draws g then
        match c.attempt solver d t (c.attemptRows draws d g).1 cancelled with
        | .ok a =>
          if c.tuningFraction != c.scoringFraction then
            (.ok { a with quality := c.scoreOf d a.tree (c.reportRows draws d g) },
              c.reportState draws d g)
          else (.ok a, (c.attemptRows draws d g).2)
        | .error e => (.error e, (c.attemptRows draws d g).2)
      else (.ok ⟨t, c.scoreOf d t (c.reportRows draws d g), false, {}, none⟩,
        c.reportState draws d g) := by
  obtain ⟨hne, hin, htarget⟩ := h
  unfold assess
  dsimp only
  rw [checkRows_ok_iff.2 ⟨hne, hin⟩, checkTarget_ok_iff.2 htarget]
  iterate 2 rw [Fitting.run_bind, Fitting.run_except]; dsimp only
  rw [Fitting.run_bind, Fitting.run_state]
  dsimp only
  unfold reportRows reportState attempts
  simp only [decide_eq_true_eq]
  by_cases hd : (draws.uniform g).1 < c.probability
  · rw [if_pos hd, if_pos hd, if_pos hd, Fitting.run_bind, Sampling.rowsBy_run hne]
    dsimp only
    rw [Fitting.run_bind, Fitting.run_except]
    unfold attemptRows
    cases c.attempt solver d t _ cancelled with
    | error e => rfl
    | ok a =>
      by_cases hf : (c.tuningFraction != c.scoringFraction) = true
      · simp only [hf, if_true]
        rw [rescore_run c draws d _ hne]
      · simp only [hf]
        rfl
  · rw [if_neg hd, if_neg hd, if_neg hd, rescore_run c draws d _ hne]

/-- The outcome on usable data. -/
theorem assess_usable (h : c.Usable d) :
    ((c.assess solver draws t d cancelled).run g).1 =
      if c.attempts draws g then
        (c.attempt solver d t (c.attemptRows draws d g).1 cancelled).map fun a =>
          if c.tuningFraction != c.scoringFraction then
            { a with quality := c.scoreOf d a.tree (c.reportRows draws d g) }
          else a
      else .ok ⟨t, c.scoreOf d t (c.reportRows draws d g), false, {}, none⟩ := by
  rw [assess_run solver draws t cancelled g h]
  split_ifs
  · cases c.attempt solver d t (c.attemptRows draws d g).1 cancelled <;> rfl
  · cases c.attempt solver d t (c.attemptRows draws d g).1 cancelled <;> rfl
  · rfl

end ScoringPolicy

theorem Evaluator.assess_fst (e : Evaluator) (solver : LinearSolver Float) (draws : Draws γ)
    (t : Tree Float) (d : Dataset Float) (cancelled : Bool) (g : γ) :
    (e.assess solver draws t d cancelled g).1 =
      ((e.policy.assess solver draws t d cancelled).run g).1 := by
  unfold assess
  rcases (e.policy.assess solver draws t d cancelled).run g with ⟨err | a, g'⟩
  · rfl
  · rfl

section Line

variable (x₀ x₁ y₀ y₁ : Float)

/-- Every tree is tuned on all rows, in one iteration. -/
def eagerPolicy : ScoringPolicy where
  probability := 1
  budget := 1
  tuningFraction := 1
  scoringFraction := 1
  tuneWeights := true
  rescale := true
  keepTuned := true
  limits := .finite
  verify := false
  countPasses := true
  trainingRows := none
  target := "y"
  excluded := []

theorem eagerPolicy_usable : eagerPolicy.Usable (lineData x₀ x₁ y₀ y₁) where
  nonempty := nofun
  inside := by
    change ∀ row ∈ [0, 1], row < 2
    decide
  target := rfl

theorem eagerPolicy_attempts : eagerPolicy.attempts .ofWords (⟨0⟩ : SplitMix) = true := by decide

theorem eagerPolicy_attemptRows (draws : Draws γ) (g : γ) :
    (eagerPolicy.attemptRows draws (lineData x₀ x₁ y₀ y₁) g).1 = [0, 1] := by
  have hsize : [0, 1].length ≤ Sampling.size 1 [0, 1].length := by decide
  have hsort : [0, 1].mergeSort = [0, 1] := by cbv
  change (Sampling.selected draws.positions [0, 1] 1 (draws.uniform g).2).1 = [0, 1]
  rw [Sampling.selected_of_size_ge (List.cons_ne_nil 0 [1]) hsize, hsort]

end Line

end SymbolicFit
