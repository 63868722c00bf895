import Mathlib.Tactic.Common
import SymbolicFit.Proofs.FittingLogic
import SymbolicFit.SharedBuffers

/-!
A trial overwrites the buffers before they are read, so nothing that an earlier trial left there
reaches the run: in memory it goes as it does on fresh values.
-/

namespace SymbolicFit.LeastSquares

variable {σ α β γ : Type}

namespace Memory

/-- What a computation in memory returns, without the buffers. -/
def visible (b : Memory α × β) : Progress α × β := (b.1.toProgress, b.2)

/-- Without the buffers, a computation in memory is one on fresh values. -/
def Shows (x : Fitting σ (Memory α × β)) (y : Fitting σ (Progress α × β)) : Prop :=
  visible <$> x = y

namespace Shows

theorem pure (m : Memory α) (b : β) :
    Shows (Pure.pure (m, b) : Fitting σ (Memory α × β)) (Pure.pure (m.toProgress, b)) :=
  map_pure _ _

theorem bind {x : Fitting σ (Memory α × β)} {y : Fitting σ (Progress α × β)}
    {f : Memory α × β → Fitting σ (Memory α × γ)} {g : Progress α × β → Fitting σ (Progress α × γ)}
    (hx : Shows x y) (hf : ∀ m b, Shows (f (m, b)) (g (m.toProgress, b))) :
    Shows (x >>= f) (y >>= g) := by
  obtain rfl : visible <$> x = y := hx
  rw [Shows, map_bind, bind_map_left]
  exact bind_congr fun ⟨m, b⟩ => hf m b

/-- A computation that shows the progress `s` it started from. -/
theorem bind_beside {x : Fitting σ (Memory α × β)} {y : Fitting σ β} {s : Progress α}
    {f : Memory α × β → Fitting σ (Memory α × γ)} (g : Progress α → β → Fitting σ (Progress α × γ))
    (hx : Shows x ((fun b => (s, b)) <$> y)) (hf : ∀ m b, Shows (f (m, b)) (g m.toProgress b)) :
    Shows (x >>= f) (y >>= g s) := by
  have h := hx.bind (g := fun b => g b.1 b.2) hf
  rwa [bind_map_left] at h

/-- A callback answers beside the memory. -/
theorem callback {x : Fitting σ β} {f : β → Fitting σ (Memory α × γ)}
    {g : β → Fitting σ (Progress α × γ)} (h : ∀ b, Shows (f b) (g b)) :
    Shows (x >>= f) (x >>= g) := by
  rw [Shows, map_bind]
  exact bind_congr h

end Shows

/-- After an attempt the buffers hold what was attempted, whatever they held before. -/
theorem attempt_bind (p : LeastSquares σ α) (params : List α) (m : Memory α)
    (f : Memory α → Fitting σ γ) :
    m.attempt p params >>= f = p.residuals params >>= fun residuals =>
      f { m with trialParams := params, trialResiduals := residuals } := by
  rw [attempt, bind_assoc]
  rfl

variable [Scalar α]

theorem shows_wrongAmong (p : LeastSquares σ α) (jacobian : List (List α)) (js : List Nat)
    (m : Memory α) :
    Shows (wrongAmong p jacobian js m)
      ((fun wrong => (m.toProgress, wrong)) <$> p.wrongAmong m.params jacobian js) := by
  induction js generalizing m with
  | nil => exact .pure m _
  | cons j js ih =>
    rw [wrongAmong, LeastSquares.wrongAmong, map_bind]
    refine .callback fun up => ?_
    -- both sides of the difference are written into one buffer
    rw [attempt_bind, List.set_set, map_bind]
    refine .callback fun down => ?_
    dsimp only
    split_ifs
    · rw [map_pure]
      exact .pure _ _
    · rw [map_bind]
      refine .bind_beside (fun s wrong => Pure.pure (s, wrong.1, wrong.2 + 2))
        (ih { m with trialParams := _, trialResiduals := down }) fun m wrong => ?_
      exact .pure m (wrong.1, wrong.2 + 2)

theorem shows_tryStep (p : LeastSquares σ α) (solver : LinearSolver α) (system : NormalSystem α)
    (n : Nat) (m : Memory α) :
    Shows (tryStep p solver system n m) (p.tryStep solver system n m.toProgress) := by
  induction n generalizing m with
  | zero => exact .pure m none
  | succ n ih =>
    rw [tryStep, LeastSquares.tryStep]
    cases solver.step system m.damping with
    | none => exact ih _
    | some step =>
      dsimp only
      rw [attempt_bind]
      refine .callback fun residuals => ?_
      dsimp only
      split_ifs
      · exact .pure _ _
      · exact ih _

theorem shows_iterate (p : LeastSquares σ α) (solver : LinearSolver α) (tolerance : α)
    (budget : Nat) (m : Memory α) :
    Shows (iterate p solver tolerance budget m)
      (p.iterate solver tolerance budget m.toProgress) := by
  induction budget generalizing m with
  | zero => exact .pure m _
  | succ budget ih =>
    rw [iterate, LeastSquares.iterate]
    refine .callback fun jacobian => ?_
    dsimp only
    split_ifs
    · exact .pure _ _
    · exact .pure _ _
    · refine (shows_tryStep p solver _ maxTrials _).bind fun m accepted => ?_
      cases accepted with
      | none => exact .pure _ _
      | some reduction =>
        dsimp only
        split_ifs
        · exact .pure _ _
        · exact ih _

/-- A run in memory is the run on fresh values, whatever the buffers hold at its start. -/
theorem shows_run (p : LeastSquares σ α) (solver : LinearSolver α) (settings : Settings α)
    (m : Memory α) : Shows (run p solver settings m) (p.run solver settings m.toProgress) := by
  unfold run LeastSquares.run
  split_ifs
  · refine .callback fun jacobian => ?_
    dsimp only
    split_ifs
    · exact .pure _ _
    · refine .bind_beside
        (fun s wrong =>
          let s := { s with residualCalls := s.residualCalls + wrong.2 }
          if wrong.1.isSome then Pure.pure (s, .wrongJacobian)
          else p.iterate solver settings.tolerance settings.budget s)
        (shows_wrongAmong p jacobian (List.range m.params.length)
          { m with jacobianCalls := m.jacobianCalls + 1 }) fun m wrong => ?_
      dsimp only
      split_ifs
      · exact .pure _ _
      · exact shows_iterate p solver _ _ _
  · exact shows_iterate p solver _ _ _

end Memory

variable [Scalar α]

/-- What the buffers held is never read. -/
theorem solve_eq_fresh (p : LeastSquares σ α) (solver : LinearSolver α) (settings : Settings α)
    (initial : List α) :
    p.solve solver settings initial = p.solveFresh solver settings initial := by
  unfold solve solveFresh
  split_ifs
  · rfl
  · rfl
  · refine bind_congr fun residuals => ?_
    split_ifs
    · rfl
    · have h := Memory.shows_run p solver settings
        { params := initial, residuals, cost := costOf residuals, damping := settings.damping
          iterations := 0, residualCalls := 1, jacobianCalls := 0
          trialParams := [], trialResiduals := residuals.map fun _ => 0 }
      rw [← (show _ = _ from h), bind_map_left]
      rfl

end SymbolicFit.LeastSquares
