import Mathlib
import SymbolicFit.Proofs.Assessments

/-!
Runs of an evaluator, call after call. An assessment fails on unusable data or when a fit is
cancelled, and leaves the tree as it is after any other failure; the totals add up the passes of the
assessments that succeeded since the last reset.
-/

namespace SymbolicFit

namespace PassCounts

theorem zero_add (a : PassCounts) : 0 + a = a := by
  cases a
  exact congrArg₂ mk (Nat.zero_add _) (Nat.zero_add _)

theorem add_comm (a b : PassCounts) : a + b = b + a :=
  congrArg₂ mk (Nat.add_comm _ _) (Nat.add_comm _ _)

end PassCounts

theorem Failure.isRecoverable_iff {e : Failure} : e.isRecoverable = true ↔ e ≠ .cancelled := by
  cases e <;> simp [isRecoverable]

namespace ScoringPolicy

variable {γ : Type} {c : ScoringPolicy} {solver : LinearSolver Float} {draws : Draws γ}
  {d : Dataset Float} {t : Tree Float} {cancelled : Bool} {g : γ}

theorem not_usable_iff : ¬c.Usable d ↔
    (c.training d = [] ∨ ∃ row ∈ c.training d, d.rowCount ≤ row) ∨
      d.typeOf? c.target ≠ some .number := by
  constructor
  · intro h
    by_contra hn
    simp only [not_or, not_exists, not_and, not_le, not_not] at hn
    exact h ⟨hn.1.1, hn.1.2, hn.2⟩
  · rintro ((h | ⟨row, hrow, h⟩) | h) hu
    · exact hu.nonempty h
    · exact absurd (hu.inside row hrow) (Nat.not_lt.2 h)
    · exact h hu.target

/-- The fit of an attempt. -/
def fitted (c : ScoringPolicy) (solver : LinearSolver Float) (draws : Draws γ)
    (d : Dataset Float) (t : Tree Float) (cancelled : Bool) (g : γ) :
    Except Failure (TunedTree Float) :=
  t.tune solver d c.target (c.attemptRows draws d g).1 c.tuningSettings cancelled

/-- An attempt is made and reaches the fit while the token is raised. -/
def IsCancelled (c : ScoringPolicy) (draws : Draws γ) (d : Dataset Float) (t : Tree Float)
    (cancelled : Bool) (g : γ) : Prop :=
  c.attempts draws g = true ∧ cancelled = true ∧
    t.ReachesFit d c.target (c.attemptRows draws d g).1 c.tuningSettings

theorem assess_cancelled (hu : c.Usable d) (h : c.IsCancelled draws d t cancelled g) :
    ((c.assess solver draws t d cancelled).run g).1 = .error .cancelled := by
  obtain ⟨ha, hc, hr⟩ := h
  rw [assess_usable solver draws t cancelled g hu, if_pos ha,
    attempt_of_cancelled (Tree.tune_cancelled_iff.2 ⟨hc, hr⟩)]
  rfl

theorem assess_ok (hu : c.Usable d) (h : ¬c.IsCancelled draws d t cancelled g) :
    ∃ a, ((c.assess solver draws t d cancelled).run g).1 = .ok a := by
  rw [assess_usable solver draws t cancelled g hu]
  by_cases ha : c.attempts draws g = true
  · have hn : c.fitted solver draws d t cancelled g ≠ .error .cancelled :=
      fun hf => h ⟨ha, Tree.tune_cancelled_iff.1 hf⟩
    rw [if_pos ha]
    cases hf : c.fitted solver draws d t cancelled g with
    | ok r =>
      rw [attempt_of_tuned hf]
      exact ⟨_, rfl⟩
    | error e =>
      have he : e ≠ .cancelled := fun he => hn (hf.trans (by rw [he]))
      rw [attempt_of_recoverable (Failure.isRecoverable_iff.2 he) hf]
      exact ⟨_, rfl⟩
  · rw [if_neg ha]
    exact ⟨_, rfl⟩

/-- Only a cancelled fit is reported as cancelled. -/
theorem assess_cancelled_iff : ((c.assess solver draws t d cancelled).run g).1 = .error .cancelled ↔
    c.Usable d ∧ c.IsCancelled draws d t cancelled g := by
  constructor
  · intro h
    by_cases hu : c.Usable d
    · refine ⟨hu, ?_⟩
      by_contra hn
      obtain ⟨a, ha⟩ := assess_ok hu hn
      rw [ha] at h
      cases h
    · obtain ⟨e, he, hrec⟩ := assess_unusable solver draws t cancelled g hu
      rw [he] at h
      cases h
      cases hrec
  · rintro ⟨hu, h⟩
    exact assess_cancelled hu h

theorem assess_error_iff : (∃ e, ((c.assess solver draws t d cancelled).run g).1 = .error e) ↔
    ¬c.Usable d ∨ c.IsCancelled draws d t cancelled g := by
  constructor
  · rintro ⟨e, he⟩
    by_contra hn
    rw [not_or, not_not] at hn
    obtain ⟨a, ha⟩ := assess_ok hn.1 hn.2
    rw [ha] at he
    cases he
  · intro h
    by_cases hu : c.Usable d
    · exact ⟨.cancelled, assess_cancelled hu (h.resolve_left (not_not.2 hu))⟩
    · obtain ⟨e, he, -⟩ := assess_unusable solver draws t cancelled g hu
      exact ⟨e, congrArg Prod.fst he⟩

/-- After a failed fit the tree is kept. -/
theorem assess_of_recoverable (hu : c.Usable d) (ha : c.attempts draws g = true) {e : Failure}
    (hf : c.fitted solver draws d t cancelled g = .error e) (he : e ≠ .cancelled) :
    ∃ q, ((c.assess solver draws t d cancelled).run g).1 = .ok ⟨t, q, false, {}, none⟩ := by
  rw [assess_usable solver draws t cancelled g hu, if_pos ha,
    attempt_of_recoverable (Failure.isRecoverable_iff.2 he) hf]
  by_cases hr : (c.tuningFraction != c.scoringFraction) = true
  · exact ⟨c.scoreOf d t (c.reportRows draws d g), by simp [Except.map, hr]⟩
  · exact ⟨c.scoreOf d t (c.attemptRows draws d g).1, by simp [Except.map, hr]⟩

end ScoringPolicy

namespace Evaluator

/-- A use of an evaluator, with a generator of any kind. -/
inductive Call where
  | assess (γ : Type) (solver : LinearSolver Float) (draws : Draws γ) (t : Tree Float)
    (d : Dataset Float) (cancelled : Bool) (g : γ)
  | reset

inductive Answer where
  | assessed (result : Except Failure Assessment)
  | totals (passes : Option PassCounts)

namespace Answer

def isReset : Answer → Bool
  | assessed _ => false
  | totals _ => true

/-- The passes of a successful assessment. -/
def passes : Answer → PassCounts
  | assessed (.ok a) => a.passes
  | _ => 0

end Answer

def answer (e : Evaluator) : Call → Answer × Evaluator
  | .assess _ solver draws t d cancelled g =>
    let (r, e', _) := e.assess solver draws t d cancelled g
    (.assessed r, e')
  | .reset =>
    let (passes, e') := e.reset
    (.totals passes, e')

/-- Calls one after the other. -/
def run (e : Evaluator) : List Call → List Answer × Evaluator
  | [] => ([], e)
  | call :: calls =>
    let (a, e') := e.answer call
    let (as, e'') := e'.run calls
    (a :: as, e'')

/-- The sum of the passes of all assessments that succeeded after the last reset. -/
def passesSinceReset (answers : List Answer) : PassCounts :=
  ((answers.reverse.takeWhile fun a => !a.isReset).map Answer.passes).sum

theorem run_append_singleton (e : Evaluator) (calls : List Call) (call : Call) :
    e.run (calls ++ [call]) =
      let (as, e') := e.run calls
      let (a, e'') := e'.answer call
      (as ++ [a], e'') := by
  induction calls generalizing e with
  | nil => rfl
  | cons call' calls ih =>
    rw [List.cons_append, run, run]
    dsimp only
    rw [ih]
    rfl

theorem passesSinceReset_append_singleton (answers : List Answer) (a : Answer) :
    passesSinceReset (answers ++ [a]) =
      if a.isReset then 0 else a.passes + passesSinceReset answers := by
  unfold passesSinceReset
  rw [List.reverse_append, List.reverse_singleton, List.singleton_append, List.takeWhile_cons]
  cases a.isReset <;> rfl

/-- What one call does to the totals. -/
theorem passes_answer (e : Evaluator) (call : Call) :
    (e.answer call).2.passes = e.passes.map fun total =>
      if (e.answer call).1.isReset then 0 else (e.answer call).1.passes + total := by
  cases call with
  | reset =>
    rcases e with ⟨c, _ | total⟩
    · rfl
    · rfl
  | assess γ solver draws t d cancelled g =>
    rcases e with ⟨c, total⟩
    rcases h : (c.assess solver draws t d cancelled).run g with ⟨err | a, g'⟩
    · cases total <;> simp [answer, assess, h, passes, Answer.isReset, Answer.passes,
        PassCounts.zero_add]
    · cases total <;> simp [answer, assess, h, passes, Answer.isReset, Answer.passes,
        PassTotals.record, PassCounts.add_comm]

theorem passes_run (c : ScoringPolicy) (calls : List Call) :
    ((ofPolicy c).run calls).2.passes =
      if c.countPasses then some (passesSinceReset ((ofPolicy c).run calls).1) else none := by
  induction calls using List.reverseRecOn with
  | nil =>
    rw [run, passes, ofPolicy]
    split_ifs <;> rfl
  | append_singleton calls call ih =>
    rw [run_append_singleton]
    dsimp only
    rw [passes_answer, ih, passesSinceReset_append_singleton]
    split_ifs <;> rfl

/-- An assessment fails on unusable data, and when the token is raised as the fit is reached. All
other failures of a fit, the recoverable ones, leave the tree as it is. The totals of a run are
those of the assessments that succeeded since the last reset. -/
theorem assess_absorbs_failures (c : ScoringPolicy) :
    (∀ {γ : Type} (solver : LinearSolver Float) (draws : Draws γ) (totals : Option PassTotals)
      (t : Tree Float) (d : Dataset Float) (cancelled : Bool) (g : γ),
      let result := ((⟨c, totals⟩ : Evaluator).assess solver draws t d cancelled g).1
      ((∃ e, result = .error e) ↔
        (c.training d = [] ∨ ∃ row ∈ c.training d, d.rowCount ≤ row) ∨
        d.typeOf? c.target ≠ some .number ∨ c.IsCancelled draws d t cancelled g) ∧
      (result = .error .cancelled ↔ c.Usable d ∧ c.IsCancelled draws d t cancelled g) ∧
      ∀ e, c.Usable d → c.attempts draws g = true →
        c.fitted solver draws d t cancelled g = .error e →
        (e.isRecoverable = true ↔ e ≠ .cancelled) ∧
        (e.isRecoverable = true → ∃ q, result = .ok ⟨t, q, false, {}, none⟩)) ∧
    ∀ calls : List Call, ((ofPolicy c).run calls).2.passes =
      if c.countPasses then some (passesSinceReset ((ofPolicy c).run calls).1) else none := by
  refine ⟨fun {γ} solver draws totals t d cancelled g => ?_, passes_run c⟩
  intro result
  have hresult : result = ((c.assess solver draws t d cancelled).run g).1 :=
    assess_fst ⟨c, totals⟩ solver draws t d cancelled g
  rw [hresult, ← or_assoc, ← ScoringPolicy.not_usable_iff]
  exact ⟨ScoringPolicy.assess_error_iff, ScoringPolicy.assess_cancelled_iff,
    fun e hu ha hf => ⟨Failure.isRecoverable_iff,
      fun he => ScoringPolicy.assess_of_recoverable hu ha hf (Failure.isRecoverable_iff.1 he)⟩⟩

theorem assess_absorbs_failures_line :
    ((ofPolicy eagerPolicy).assess .orthogonal .ofWords (lineTree 1 1) (lineData 1 2 3 5) true
      (⟨0⟩ : SplitMix)).1 = .error .cancelled ∧
    (∃ q, ((ofPolicy eagerPolicy).assess .orthogonal .ofWords (.node (.unknown "f") [])
      (lineData 1 2 3 5) false (⟨0⟩ : SplitMix)).1 =
        .ok ⟨.node (.unknown "f") [], q, false, {}, none⟩) ∧
    ((ofPolicy eagerPolicy).run [.assess SplitMix .orthogonal .ofWords (lineTree 1 1)
      (lineData 1 2 3 5) true ⟨0⟩]).2.passes = some 0 := by
  have hu := eagerPolicy_usable 1 2 3 5
  have hrows := eagerPolicy_attemptRows 1 2 3 5 .ofWords (⟨0⟩ : SplitMix)
  obtain ⟨hassess, hrun⟩ := assess_absorbs_failures eagerPolicy
  have hcancelled : ((ofPolicy eagerPolicy).assess .orthogonal .ofWords (lineTree 1 1)
      (lineData 1 2 3 5) true (⟨0⟩ : SplitMix)).1 = .error .cancelled := by
    refine (hassess .orthogonal .ofWords (some {}) _ _ _ _).2.1.2
      ⟨hu, eagerPolicy_attempts, rfl, ?_⟩
    rw [hrows]
    exact lineTree_reachesFit 1 1 1 2 3 5 rfl
  refine ⟨hcancelled, ?_, ?_⟩
  · have hf : eagerPolicy.fitted .orthogonal .ofWords (lineData 1 2 3 5) (.node (.unknown "f") [])
        false (⟨0⟩ : SplitMix) = .error (.unsupportedSymbol 0 "f") := by
      have ht : (Tree.node (.unknown "f") [] : Tree Float).neededTrace (lineData 1 2 3 5) [0, 1] =
          .ok none := by cbv
      rw [ScoringPolicy.fitted, hrows, Tree.tune]
      change (Tree.neededTrace _ _ _ >>= _) = _
      rw [ht]
      rfl
    exact ((hassess .orthogonal .ofWords (some {}) _ _ _ _).2.2 _ hu eagerPolicy_attempts hf).2 rfl
  · have ha : ((ofPolicy eagerPolicy).run [.assess SplitMix .orthogonal .ofWords (lineTree 1 1)
        (lineData 1 2 3 5) true ⟨0⟩]).1 = [.assessed (.error .cancelled)] := by
      rw [← hcancelled]
      rfl
    rw [hrun, ha]
    rfl

end Evaluator

end SymbolicFit
