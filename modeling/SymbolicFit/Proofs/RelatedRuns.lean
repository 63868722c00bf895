import SymbolicFit.Proofs.ReusedBuffers

/-!
Runs as one iteration after another, and runs of two problems side by side. A relation between
computations that is kept by sequencing, and that holds between the callbacks of two problems, holds
between their runs. Where the callbacks always answer with functions of the parameters, iterations
return the same from every state.
-/

namespace SymbolicFit

variable {σ τ α β γ : Type}

namespace Fitting

/-- A relation between computations that is kept by sequencing. -/
structure Congruence (R : ∀ {β : Type}, Fitting σ β → Fitting τ β → Prop) : Prop where
  pure : ∀ {β : Type} (b : β), R (Pure.pure b) (Pure.pure b)
  bind : ∀ {β γ : Type} {x : Fitting σ β} {y : Fitting τ β} {f : β → Fitting σ γ}
    {g : β → Fitting τ γ}, R x y → (∀ b, R (f b) (g b)) → R (x >>= f) (y >>= g)

theorem Congruence.mapM {R : ∀ {β : Type}, Fitting σ β → Fitting τ β → Prop} (hR : Congruence R)
    {f : β → Fitting σ γ} {g : β → Fitting τ γ} (h : ∀ b, R (f b) (g b)) (bs : List β) :
    R (bs.mapM f) (bs.mapM g) := by
  induction bs with
  | nil => exact hR.pure []
  | cons b bs ih =>
    rw [List.mapM_cons, List.mapM_cons]
    exact hR.bind (h b) fun _ => hR.bind ih fun _ => hR.pure _

/-- From every state the computation returns this value. -/
def Gives (x : Fitting σ β) (b : β) : Prop := ∀ s, (x s).1 = .ok b

namespace Gives

theorem pure (b : β) : Gives (Pure.pure b : Fitting σ β) b := fun _ => rfl

theorem bind {x : Fitting σ β} {f : β → Fitting σ γ} {b : β} {c : γ} (hx : Gives x b)
    (hf : Gives (f b) c) : Gives (x >>= f) c := by
  intro s
  have hb := hx s
  rw [bind_apply]
  rcases hs : x s with ⟨r, s'⟩
  rw [hs] at hb
  obtain rfl : r = .ok b := hb
  exact hf s'

theorem map {x : Fitting σ β} {b : β} (f : β → γ) (hx : Gives x b) : Gives (f <$> x) (f b) := by
  rw [map_eq_pure_bind]
  exact hx.bind (pure _)

theorem mapM {f : β → Fitting σ γ} {g : β → γ} (h : ∀ b, Gives (f b) (g b)) (bs : List β) :
    Gives (bs.mapM f) (bs.map g) := by
  induction bs with
  | nil => exact pure []
  | cons b bs ih =>
    rw [List.mapM_cons, List.map_cons]
    exact (h b).bind (ih.bind (pure _))

end Gives

/-- Both computations return, and the same value. -/
def Agree (x : Fitting σ β) (y : Fitting τ β) : Prop := ∃ b, Gives x b ∧ Gives y b

end Fitting

namespace LeastSquares

section Iteration

variable [Scalar α]

/-- Where a run starts that knows the residuals at its initial parameters. -/
def Progress.start (initial residuals : List α) (damping : α) : Progress α :=
  ⟨initial, residuals, costOf residuals, damping, 0, 1, 0⟩

variable (p : LeastSquares σ α) (solver : LinearSolver α) (tolerance : α)

/-- One iteration of a run, with its ending unless the run goes on. -/
def iteration (s : Progress α) : Fitting σ (Progress α × Option Ending) := do
  let jacobian ← p.jacobian s.params
  let s := { s with jacobianCalls := s.jacobianCalls + 1 }
  if !jacobian.all allFinite then return (s, some .nonFinite)
  else
    let system := solver.products p.parameterCount jacobian s.residuals
    if 0 < tolerance ∧ system.steepness ≤ tolerance then return (s, some .converged)
    else
      let (s, accepted) ← p.tryStep solver system maxTrials s
      let s := { s with iterations := s.iterations + 1 }
      match accepted with
      | none => return (s, some .stalled)
      | some reduction =>
        if 0 < tolerance ∧ reduction ≤ tolerance then return (s, some .converged)
        else return (s, none)

/-- What follows an iteration. -/
def goOn (budget : Nat) : Progress α × Option Ending → Fitting σ (Progress α × Ending)
  | (s, none) => p.iterate solver tolerance budget s
  | (s, some ending) => pure (s, ending)

theorem iterate_succ (budget : Nat) (s : Progress α) :
    p.iterate solver tolerance (budget + 1) s =
      p.iteration solver tolerance s >>= p.goOn solver tolerance budget := by
  rw [iterate, iteration, bind_assoc]
  refine bind_congr fun jacobian => ?_
  dsimp only
  split_ifs
  · rw [pure_bind, goOn]
  · rw [pure_bind, goOn]
  · rw [bind_assoc]
    refine bind_congr fun tried => ?_
    obtain ⟨s, accepted⟩ := tried
    cases accepted with
    | none =>
      dsimp only
      rw [pure_bind, goOn]
    | some reduction =>
      dsimp only
      split_ifs
      · rw [pure_bind, goOn]
      · rw [pure_bind, goOn]

variable {p} in
/-- A run that asks for the initial residuals starts from them. -/
theorem solve_started {settings : Settings α} {initial : List α}
    (hl : initial.length = p.parameterCount) (hb : settings.budget ≠ 0)
    (hn : p.parameterCount ≠ 0) :
    p.solve solver settings initial = p.residuals initial >>= fun residuals =>
      if !allFinite residuals then pure ⟨initial, .nonFinite, 0, Scalar.undefined, 1, 0⟩
      else (fun b => b.1.report b.2) <$>
        p.run solver settings (.start initial residuals settings.damping) := by
  rw [solve_eq_fresh, solveFresh, if_neg (not_not.2 hl), if_neg (not_or.2 ⟨hb, hn⟩)]
  refine bind_congr fun residuals => ?_
  rw [map_eq_pure_bind]
  rfl

variable {p} in
/-- What a run returns from finite initial residuals is reported. -/
theorem gives_solve {settings : Settings α} {initial residuals : List α}
    (hl : initial.length = p.parameterCount) (hb : settings.budget ≠ 0)
    (hn : p.parameterCount ≠ 0) (hr : Fitting.Gives (p.residuals initial) residuals)
    (hf : allFinite residuals = true) {b : Progress α × Ending}
    (h : Fitting.Gives (p.run solver settings (.start initial residuals settings.damping)) b) :
    Fitting.Gives (p.solve solver settings initial) (b.1.report b.2) := by
  rw [solve_started solver hl hb hn]
  refine hr.bind ?_
  rw [if_neg (by rw [hf]; decide)]
  exact h.map _

end Iteration

/-- Two problems of one size whose callbacks are related. -/
structure Related (R : ∀ {β : Type}, Fitting σ β → Fitting τ β → Prop) (p : LeastSquares σ α)
    (q : LeastSquares τ α) : Prop where
  parameterCount : p.parameterCount = q.parameterCount
  residuals : ∀ params, R (p.residuals params) (q.residuals params)
  jacobian : ∀ params, R (p.jacobian params) (q.jacobian params)

namespace Related

variable [Scalar α] {R : ∀ {β : Type}, Fitting σ β → Fitting τ β → Prop} {p : LeastSquares σ α}
  {q : LeastSquares τ α}

theorem wrongAmong (h : Related R p q) (hR : Fitting.Congruence R) (params : List α)
    (jacobian : List (List α)) (js : List Nat) :
    R (p.wrongAmong params jacobian js) (q.wrongAmong params jacobian js) := by
  induction js with
  | nil => exact hR.pure _
  | cons j js ih =>
    refine hR.bind (h.residuals _) fun up => hR.bind (h.residuals _) fun down => ?_
    split_ifs
    · exact hR.pure _
    · exact hR.bind ih fun _ => hR.pure _

theorem tryStep (h : Related R p q) (hR : Fitting.Congruence R) (solver : LinearSolver α)
    (system : NormalSystem α) (n : Nat) (s : Progress α) :
    R (p.tryStep solver system n s) (q.tryStep solver system n s) := by
  induction n generalizing s with
  | zero => exact hR.pure _
  | succ n ih =>
    rw [LeastSquares.tryStep, LeastSquares.tryStep]
    cases solver.step system s.damping with
    | none => exact ih _
    | some step =>
      refine hR.bind (h.residuals _) fun residuals => ?_
      dsimp only
      split_ifs
      · exact hR.pure _
      · exact ih _

theorem iteration (h : Related R p q) (hR : Fitting.Congruence R) (solver : LinearSolver α)
    (tolerance : α) (s : Progress α) :
    R (p.iteration solver tolerance s) (q.iteration solver tolerance s) := by
  rw [LeastSquares.iteration, LeastSquares.iteration, h.parameterCount]
  refine hR.bind (h.jacobian _) fun jacobian => ?_
  dsimp only
  split_ifs
  · exact hR.pure _
  · exact hR.pure _
  · refine hR.bind (h.tryStep hR solver _ _ _) fun ⟨s, accepted⟩ => ?_
    cases accepted with
    | none => exact hR.pure _
    | some reduction =>
      dsimp only
      split_ifs
      · exact hR.pure _
      · exact hR.pure _

theorem iterate (h : Related R p q) (hR : Fitting.Congruence R) (solver : LinearSolver α)
    (tolerance : α) (budget : Nat) (s : Progress α) :
    R (p.iterate solver tolerance budget s) (q.iterate solver tolerance budget s) := by
  induction budget generalizing s with
  | zero => exact hR.pure _
  | succ budget ih =>
    rw [iterate_succ, iterate_succ]
    refine hR.bind (h.iteration hR solver tolerance s) fun ⟨s, ending⟩ => ?_
    cases ending with
    | none => exact ih s
    | some ending => exact hR.pure _

theorem run (h : Related R p q) (hR : Fitting.Congruence R) (solver : LinearSolver α)
    (settings : Settings α) (s : Progress α) :
    R (p.run solver settings s) (q.run solver settings s) := by
  unfold LeastSquares.run
  split_ifs
  · refine hR.bind (h.jacobian _) fun jacobian => ?_
    dsimp only
    split_ifs
    · exact hR.pure _
    · refine hR.bind (h.wrongAmong hR _ _ _) fun ⟨wrong, n⟩ => ?_
      dsimp only
      split_ifs
      · exact hR.pure _
      · exact h.iterate hR solver _ _ _
  · exact h.iterate hR solver _ _ _

/-- Related problems have related runs. -/
theorem solve (h : Related R p q) (hR : Fitting.Congruence R) (solver : LinearSolver α)
    (settings : Settings α) (initial : List α)
    (ht : initial.length ≠ q.parameterCount →
      R (throw (.parameterCountMismatch q.parameterCount initial.length) : Fitting σ (Report α))
        (throw (.parameterCountMismatch q.parameterCount initial.length) : Fitting τ (Report α))) :
    R (p.solve solver settings initial) (q.solve solver settings initial) := by
  rw [solve_eq_fresh, solve_eq_fresh]
  unfold solveFresh
  rw [h.parameterCount]
  split_ifs with hl
  · exact ht hl
  · exact hR.pure _
  · refine hR.bind (h.residuals _) fun residuals => ?_
    split_ifs
    · exact hR.pure _
    · exact hR.bind (h.run hR solver settings _) fun _ => hR.pure _

end Related

/-- Callbacks that always answer, with functions of the parameters. -/
structure Answers (p : LeastSquares σ α) (r : List α → List α) (J : List α → List (List α)) :
    Prop where
  residuals : ∀ params, Fitting.Gives (p.residuals params) (r params)
  jacobian : ∀ params, Fitting.Gives (p.jacobian params) (J params)

namespace Answers

variable {p : LeastSquares σ α} {r : List α → List α} {J : List α → List (List α)}

theorem related (hp : p.Answers r J) : Related Fitting.Agree p p where
  parameterCount := rfl
  residuals params := ⟨r params, hp.residuals params, hp.residuals params⟩
  jacobian params := ⟨J params, hp.jacobian params, hp.jacobian params⟩

variable [Scalar α]

end Answers

end LeastSquares

end SymbolicFit
