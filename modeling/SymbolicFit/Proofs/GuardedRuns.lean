import Mathlib
import SymbolicFit.Proofs.CoherentRun
import SymbolicFit.Proofs.RelatedRuns

/-!
Runs that compare the first Jacobian with differences. The comparison either ends a run where it
starts or leaves no trace in it but the calls it made.
-/

namespace SymbolicFit

open Fitting (Gives)

namespace LeastSquares

variable {σ α : Type}

/-- The same place in a run after more calls. -/
def Progress.counted (s : Progress α) (residualCalls jacobianCalls : Nat) : Progress α :=
  { s with
    residualCalls := s.residualCalls + residualCalls
    jacobianCalls := s.jacobianCalls + jacobianCalls }

/-- The same report of a run that made more calls. -/
def Report.counted (report : Report α) (residualCalls jacobianCalls : Nat) : Report α :=
  { report with
    residualCalls := report.residualCalls + residualCalls
    jacobianCalls := report.jacobianCalls + jacobianCalls }

variable [Scalar α]

section Counts

variable (p : LeastSquares σ α) (solver : LinearSolver α)

end Counts

/-- The derivatives of `J` with respect to parameter `j` differ from the differences of `r`. -/
def differs (r : List α → List α) (J : List α → List (List α)) (params : List α) (j : Nat) : Bool :=
  let c := params.getD j 0
  let h := 1e-6 * Scalar.greater (Scalar.abs c) 1
  columnIsWrong (J params) (r (params.set j (c + h))) (r (params.set j (c - h))) h j

/-- Where the residuals are evaluated for the differences of column `j`. -/
def probes (params : List α) (j : Nat) : List (List α) :=
  let c := params.getD j 0
  let h := 1e-6 * Scalar.greater (Scalar.abs c) 1
  [params.set j (c + h), params.set j (c - h)]

/-- A relation between a computation, what it returns and where it evaluates the residuals that is
kept by sequencing. -/
structure Evaluating (R : ∀ {β : Type}, Fitting σ β → β → List (List α) → Prop) : Prop where
  pure : ∀ {β : Type} (b : β), R (Pure.pure b) b []
  bind : ∀ {β γ : Type} {x : Fitting σ β} {f : β → Fitting σ γ} {b : β} {c : γ}
    {u v : List (List α)}, R x b u → R (f b) c v → R (x >>= f) c (u ++ v)

/-- The comparison reports the first column that differs, after two residuals for each column up to
that one. -/
theorem Evaluating.wrongAmong {R : ∀ {β : Type}, Fitting σ β → β → List (List α) → Prop}
    (hR : Evaluating R) {p : LeastSquares σ α} {r : List α → List α} {J : List α → List (List α)}
    (hr : ∀ params, R (p.residuals params) (r params) [params]) (params : List α) (js : List Nat) :
    R (p.wrongAmong params (J params) js)
      (js.find? (differs r J params),
        2 * min (js.findIdx (differs r J params) + 1) js.length)
      ((js.take (js.findIdx (differs r J params) + 1)).flatMap (probes params)) := by
  induction js with
  | nil => exact hR.pure _
  | cons j js ih =>
    rw [List.take_succ_cons, List.flatMap_cons]
    refine hR.bind (u := [_]) (hr _) (hR.bind (u := [_]) (hr _) ?_)
    change R (if differs r J params j = true then _ else _) _ _
    cases hd : differs r J params j with
    | true =>
      rw [if_pos rfl, List.find?_cons_of_pos hd, List.findIdx_cons, hd, List.length_cons]
      have hmin : min (0 + 1) (js.length + 1) = 1 := by omega
      simp only [cond_true, hmin, List.take_zero, List.flatMap_nil]
      exact hR.pure _
    | false =>
      rw [if_neg (by decide), List.find?_cons_of_neg (by rw [hd]; decide), List.findIdx_cons, hd,
        List.length_cons]
      have hmin : 2 * min (js.findIdx (differs r J params) + 1 + 1) (js.length + 1) =
          2 * min (js.findIdx (differs r J params) + 1) js.length + 2 := by omega
      simp only [cond_false, hmin]
      have hlast := hR.bind (f := fun b => Pure.pure (b.1, b.2 + 2)) ih (hR.pure _)
      rwa [List.append_nil] at hlast

namespace Answers

variable {p : LeastSquares σ α} {r : List α → List α} {J : List α → List (List α)}

variable (solver : LinearSolver α) (settings : Settings α) {s : Progress α}

theorem gives_solve (hp : p.Answers r J) {initial : List α}
    (hl : initial.length = p.parameterCount) (hb : settings.budget ≠ 0)
    (hn : p.parameterCount ≠ 0) (hf : allFinite (r initial) = true) {b : Progress α × Ending}
    (h : Gives (p.run solver settings (.start initial (r initial) settings.damping)) b) :
    Gives (p.solve solver settings initial) (b.1.report b.2) :=
  LeastSquares.gives_solve solver hl hb hn (hp.residuals _) hf h

end Answers

end LeastSquares

end SymbolicFit
