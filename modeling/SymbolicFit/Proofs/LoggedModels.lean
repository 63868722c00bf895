import Mathlib
import SymbolicFit.Proofs.FittedRows
import SymbolicFit.Proofs.LongerRuns

/-!
Models with a list of their evaluations, each with the state of the token after it. A fit of such a
model is the fit of the model itself, and each of its passes evaluates every row once.
-/

namespace SymbolicFit

open Fitting

variable {σ τ α β γ : Type}

namespace Fitting

/-- `x` does what `y` does on the part of the state that `y` has. -/
def Projects (π : σ → τ) (x : Fitting σ β) (y : Fitting τ β) : Prop :=
  ∀ s, ((x s).1, π (x s).2) = y (π s)

theorem projects_congruence (π : σ → τ) : Congruence (Projects π) where
  pure b s := rfl
  bind := by
    intro β γ x y f g hx hf s
    have h := hx s
    rw [bind_apply, bind_apply, ← h]
    rcases x s with ⟨_ | b, s'⟩
    · rfl
    · exact hf b s'

end Fitting

namespace RowModel

section Passes

variable [Scalar α] (model : RowModel σ α) (x : DesignMatrix α) (y params : List α)

/-- The residuals on all rows. -/
def valuePass : Fitting (σ × Tally) (List α) := do
  let rs ← y.zipIdx.mapM fun (yi, i) => do
    let v ← onRow (model.value params (x.row i))
    return v - yi
  modify fun s => (s.1, { s.2 with values := s.2.values + y.length })
  return rs

/-- The derivatives on all rows. -/
def gradientPass : Fitting (σ × Tally) (List (List α)) := do
  let rows ← (List.range y.length).mapM fun i => do
    let r ← onRow (model.differentiate params (x.row i))
    return r.2
  modify fun s => (s.1, { s.2 with gradients := s.2.gradients + y.length })
  return rows

omit [Scalar α] in
theorem stopIfCancelled_bind (cancelled : σ → Bool) (f : Fitting (σ × Tally) β)
    (s : σ × Tally) :
    (do stopIfCancelled cancelled; f) s =
      if cancelled s.1 then (.error .cancelled, s) else f s := by
  have hstop : stopIfCancelled cancelled s =
      if cancelled s.1 then (.error .cancelled, s) else (.ok (), s) := by
    change (if cancelled s.1 then throw .cancelled else pure () : Fitting (σ × Tally) Unit) s = _
    split_ifs
    · rfl
    · rfl
  rw [bind_apply, hstop]
  split_ifs
  · rfl
  · rfl

theorem residuals_apply (cancelled : σ → Bool) (s : σ × Tally) :
    (model.problem x y cancelled).residuals params s =
      if cancelled s.1 then (.error .cancelled, s) else model.valuePass x y params s :=
  stopIfCancelled_bind cancelled (model.valuePass x y params) s

theorem jacobian_apply (cancelled : σ → Bool) (s : σ × Tally) :
    (model.problem x y cancelled).jacobian params s =
      if cancelled s.1 then (.error .cancelled, s) else model.gradientPass x y params s :=
  stopIfCancelled_bind cancelled (model.gradientPass x y params) s

end Passes

/-- What a model is asked for. -/
inductive Request (α : Type) where
  | value (params inputs : List α)
  | differentiate (params inputs : List α)

/-- One evaluation of a model, and whether the token was raised when it was done. -/
structure Evaluation (α : Type) where
  request : Request α
  raised : Bool

/-- The state of a fit of a model with a list of its evaluations. -/
abbrev FitState (σ α : Type) := (σ × List (Evaluation α)) × Tally

/-- Adds an evaluation to the list when it is done. -/
def noting (cancelled : σ → Bool) (request : Request α) (x : StateM σ β) :
    StateM (σ × List (Evaluation α)) β := fun s =>
  ((x s.1).1, ((x s.1).2, s.2 ++ [⟨request, cancelled (x s.1).2⟩]))

/-- The model with a list of its evaluations. -/
def logged (model : RowModel σ α) (cancelled : σ → Bool) :
    RowModel (σ × List (Evaluation α)) α where
  parameterCount := model.parameterCount
  value params inputs :=
    noting cancelled (.value params inputs) (model.value params inputs)
  differentiate params inputs :=
    noting cancelled (.differentiate params inputs) (model.differentiate params inputs)

/-- No evaluation lowers a raised token, as tokens offer no way to. -/
structure KeepsRaised (model : RowModel σ α) (cancelled : σ → Bool) : Prop where
  value : ∀ params inputs s, cancelled s = true →
    cancelled (model.value params inputs s).2 = true
  differentiate : ∀ params inputs s, cancelled s = true →
    cancelled (model.differentiate params inputs s).2 = true

end RowModel

/-- The evaluations that answer a call, one on each row. -/
def LeastSquares.Call.requests (x : DesignMatrix α) (rows : Nat) :
    Call α → List (RowModel.Request α)
  | residuals params => (List.range rows).map fun i => .value params (x.row i)
  | jacobian params => (List.range rows).map fun i => .differentiate params (x.row i)

open LeastSquares (Call Related)

theorem LeastSquares.Call.length_requests (x : DesignMatrix α) (rows : Nat) (call : Call α) :
    (call.requests x rows).length = rows := by
  cases call with
  | residuals params => rw [requests, List.length_map, List.length_range]
  | jacobian params => rw [requests, List.length_map, List.length_range]

namespace RowModel

section Evaluations

variable (cancelled : σ → Bool)

/-- On the way between two states the model was evaluated as requested, and the token is raised
after an evaluation that raised it. -/
def Evaluates (requests : List (Request α)) (z z' : FitState σ α) : Prop :=
  ∃ added, z'.1.2 = z.1.2 ++ added ∧ added.map Evaluation.request = requests ∧
    cancelled z'.1.1 = (cancelled z.1.1 || added.any Evaluation.raised)

/-- From every state the computation returns and makes these evaluations. -/
def Makes (requests : List (Request α)) (b : Fitting (FitState σ α) β) : Prop :=
  ∀ z, ∃ r z', b z = (.ok r, z') ∧ Evaluates cancelled requests z z'

variable {cancelled} {requests requests' : List (Request α)} {z z' z'' : FitState σ α}

namespace Evaluates

theorem refl (z : FitState σ α) : Evaluates cancelled [] z z :=
  ⟨[], (List.append_nil _).symm, rfl, (Bool.or_false _).symm⟩

theorem trans (h : Evaluates cancelled requests z z') (h' : Evaluates cancelled requests' z' z'') :
    Evaluates cancelled (requests ++ requests') z z'' := by
  obtain ⟨added, hlog, hrequests, hraised⟩ := h
  obtain ⟨added', hlog', hrequests', hraised'⟩ := h'
  refine ⟨added ++ added', ?_, ?_, ?_⟩
  · rw [hlog', hlog, List.append_assoc]
  · rw [List.map_append, hrequests, hrequests']
  · rw [hraised', hraised, List.any_append, Bool.or_assoc]

theorem log_prefix (h : Evaluates cancelled requests z z') : z.1.2 <+: z'.1.2 := by
  obtain ⟨added, hlog, -, -⟩ := h
  rw [hlog]
  exact List.prefix_append _ _

theorem length_log (h : Evaluates cancelled requests z z') :
    z'.1.2.length = z.1.2.length + requests.length := by
  obtain ⟨added, hlog, rfl, -⟩ := h
  rw [hlog, List.length_append, List.length_map]

end Evaluates

namespace Makes

theorem pure (b : β) : Makes cancelled [] (Pure.pure b : Fitting (FitState σ α) β) :=
  fun z => ⟨b, z, rfl, .refl z⟩

theorem bind {a : Fitting (FitState σ α) β} {f : β → Fitting (FitState σ α) γ}
    (ha : Makes cancelled requests a) (hf : ∀ b, Makes cancelled requests' (f b)) :
    Makes cancelled (requests ++ requests') (a >>= f) := by
  intro z
  obtain ⟨b, z', hb, hz⟩ := ha z
  obtain ⟨c, z'', hc, hz'⟩ := hf b z'
  refine ⟨c, z'', ?_, hz.trans hz'⟩
  rw [bind_apply, hb]
  exact hc

theorem seq {a : Fitting (FitState σ α) β} {f : β → Fitting (FitState σ α) γ}
    (ha : Makes cancelled requests a) (hf : ∀ b, Makes cancelled [] (f b)) :
    Makes cancelled requests (a >>= f) := by
  have h := ha.bind hf
  rwa [List.append_nil] at h

theorem mapM {f : β → Fitting (FitState σ α) γ} {request : β → Request α}
    (h : ∀ b, Makes cancelled [request b] (f b)) (bs : List β) :
    Makes cancelled (bs.map request) (bs.mapM f) := by
  induction bs with
  | nil => exact pure []
  | cons b bs ih =>
    rw [List.mapM_cons, List.map_cons]
    exact (h b).bind fun _ => ih.seq fun _ => pure _

end Makes

variable {model : RowModel σ α}

theorem noting_makes (request : Request α) {x : StateM σ β}
    (hx : ∀ s, cancelled s = true → cancelled (x s).2 = true) :
    Makes cancelled [request] (onRow (noting cancelled request x)) := by
  intro z
  refine ⟨(x z.1.1).1, _, rfl, [⟨request, cancelled (x z.1.1).2⟩], rfl, rfl, ?_⟩
  change cancelled (x z.1.1).2 = (cancelled z.1.1 || (cancelled (x z.1.1).2 || false))
  rw [Bool.or_false]
  cases hz : cancelled z.1.1 with
  | true => rw [hx z.1.1 hz, Bool.or_true]
  | false => rw [Bool.false_or]

theorem modify_makes {f : FitState σ α → FitState σ α} (hf : ∀ z, (f z).1 = z.1) :
    Makes cancelled ([] : List (Request α)) (modify f) := by
  refine fun z => ⟨(), f z, rfl, [], ?_, rfl, ?_⟩
  · rw [hf, List.append_nil]
  · rw [hf, List.any_nil, Bool.or_false]

theorem value_makes (hk : model.KeepsRaised cancelled) (params inputs : List α) :
    Makes cancelled [.value params inputs]
      (onRow ((model.logged cancelled).value params inputs)) :=
  noting_makes _ (hk.value params inputs)

theorem differentiate_makes (hk : model.KeepsRaised cancelled) (params inputs : List α) :
    Makes cancelled [.differentiate params inputs]
      (onRow ((model.logged cancelled).differentiate params inputs)) :=
  noting_makes _ (hk.differentiate params inputs)

variable [Scalar α]

theorem valuePass_makes (hk : model.KeepsRaised cancelled) (x : DesignMatrix α)
    (y params : List α) :
    Makes cancelled (Call.requests x y.length (.residuals params))
      ((model.logged cancelled).valuePass x y params) := by
  have hrows : Makes cancelled (y.zipIdx.map fun p => Request.value params (x.row p.2))
      (y.zipIdx.mapM fun (yi, i) => do
        let v ← onRow ((model.logged cancelled).value params (x.row i))
        return v - yi) := by
    refine .mapM (fun p => ?_) _
    exact (value_makes hk params (x.row p.2)).seq fun _ => .pure _
  have hrequests : (y.zipIdx.map fun p => Request.value params (x.row p.2)) =
      Call.requests x y.length (.residuals params) := by
    rw [Call.requests, List.range_eq_range', ← List.zipIdx_map_snd 0 y, List.map_map]
    rfl
  rw [hrequests] at hrows
  refine hrows.seq fun rs => .seq (modify_makes ?_) fun _ => .pure rs
  exact fun _ => rfl

omit [Scalar α] in
theorem gradientPass_makes (hk : model.KeepsRaised cancelled) (x : DesignMatrix α)
    (y params : List α) :
    Makes cancelled (Call.requests x y.length (.jacobian params))
      ((model.logged cancelled).gradientPass x y params) := by
  have hrows : Makes cancelled (Call.requests x y.length (.jacobian params))
      ((List.range y.length).mapM fun i => do
        let r ← onRow ((model.logged cancelled).differentiate params (x.row i))
        return r.2) := by
    refine .mapM (fun i => ?_) _
    exact (differentiate_makes hk params (x.row i)).seq fun _ => .pure _
  refine hrows.seq fun rows => .seq (modify_makes ?_) fun _ => .pure rows
  exact fun _ => rfl

end Evaluations

section Logging

variable [Scalar α] {model : RowModel σ α} {cancelled : σ → Bool} (x : DesignMatrix α)
  (y : List α)

/-- The state of a fit without the list. -/
def FitState.plain (z : FitState σ α) : σ × Tally := (z.1.1, z.2)

theorem valuePass_projects (params : List α) :
    Projects FitState.plain ((model.logged cancelled).valuePass x y params)
      (model.valuePass x y params) := by
  have hR := projects_congruence (FitState.plain (σ := σ) (α := α))
  refine hR.bind (hR.mapM (fun p => ?_) _) fun rs => hR.bind (fun z => rfl) fun _ => hR.pure rs
  exact hR.bind (fun z => rfl) fun v => hR.pure (v - p.1)

omit [Scalar α] in
theorem gradientPass_projects (params : List α) :
    Projects FitState.plain ((model.logged cancelled).gradientPass x y params)
      (model.gradientPass x y params) := by
  have hR := projects_congruence (FitState.plain (σ := σ) (α := α))
  refine hR.bind (hR.mapM (fun i => ?_) _) fun rows => hR.bind (fun z => rfl) fun _ => hR.pure rows
  exact hR.bind (fun z => rfl) fun r => hR.pure r.2

/-- Logging leaves a problem as it is. -/
theorem problem_projects :
    Related (Projects FitState.plain)
      ((model.logged cancelled).problem x y fun s => cancelled s.1)
      (model.problem x y cancelled) where
  parameterCount := rfl
  residuals params z := by
    rw [residuals_apply, residuals_apply]
    change _ = if cancelled z.1.1 then _ else _
    split_ifs
    · rfl
    · exact valuePass_projects x y params z
  jacobian params z := by
    rw [jacobian_apply, jacobian_apply]
    change _ = if cancelled z.1.1 then _ else _
    split_ifs
    · rfl
    · exact gradientPass_projects x y params z

variable {x y} {solver : LinearSolver α} {initial : List α} {budget : Nat} {verify : Bool} {s : σ}

/-- A logged fit is the fit with a list. -/
theorem fit_logged (hc : model.check x y initial = .ok ()) (hs : cancelled s = false) :
    model.fit solver x y initial budget verify cancelled s =
      (((model.logged cancelled).fit solver x y initial budget verify (fun s => cancelled s.1)
          (s, [])).1,
        ((model.logged cancelled).fit solver x y initial budget verify (fun s => cancelled s.1)
          (s, [])).2.1) := by
  have hrelated : Related (Projects FitState.plain)
      ((model.logged cancelled).problem x y fun s => cancelled s.1)
      (model.problem x y cancelled) := problem_projects x y
  have hprojects := hrelated.solve (projects_congruence _) solver { budget, verify } initial
    (fun _ _ => rfl) ((s, []), {})
  rcases hrun : ((model.logged cancelled).problem x y fun s => cancelled s.1).solve solver
    { budget, verify } initial ((s, []), {}) with ⟨result, ⟨s', log⟩, tally⟩
  rw [hrun] at hprojects
  have hlogged : (model.logged cancelled).check x y initial = .ok () := hc
  rw [fit_started hc hs hprojects.symm, fit_started hlogged hs hrun]

end Logging

end RowModel

end SymbolicFit
