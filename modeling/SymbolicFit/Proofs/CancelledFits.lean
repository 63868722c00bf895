import Mathlib
import SymbolicFit.Cancellation
import SymbolicFit.Proofs.LoggedModels

/-!
Fits whose token may be raised by any evaluation of their model. A fit is compared with the same fit
that never looks at its token: it makes the same evaluations up to the end of the pass in which the
token was raised, and returns nothing but the cancellation unless that pass was the last one.
-/

namespace SymbolicFit

open Fitting

open LeastSquares (Call Related)

variable {σ α β : Type}

namespace RowModel

section Interruptions

variable (cancelled : σ → Bool) (x : DesignMatrix α) (rows : Nat)

/-- A state between two passes: the list is made of whole passes, it tells whether the token is
raised, and only the last pass can have raised it. -/
structure Paused (z : FitState σ α) : Prop where
  whole : rows ∣ z.1.2.length
  seen : cancelled z.1.1 = z.1.2.any Evaluation.raised
  quiet : ∀ e ∈ z.1.2.take (z.1.2.length - rows), e.raised = false

/-- `b` answers calls from every state. From a state between two passes `a` either does the same or
is cancelled at a later one, where the token is raised and less is evaluated than by `b`. -/
structure Interrupts (a b : Fitting (FitState σ α) β) : Prop where
  calls : ∀ z, ∃ r z' calls, b z = (.ok r, z') ∧
    Evaluates cancelled (List.flatMap (Call.requests x rows) calls) z z'
  stops : ∀ z, Paused cancelled rows z →
    a z = b z ∧ Paused cancelled rows (b z).2 ∨
    ∃ z', a z = (.error .cancelled, z') ∧ Paused cancelled rows z' ∧ cancelled z'.1.1 = true ∧
      z'.1.2 <+: (b z).2.1.2 ∧ z'.1.2.length < (b z).2.1.2.length

variable {cancelled x rows}

theorem interrupts_congruence :
    Congruence (fun a b => Interrupts (α := α) cancelled x rows a b) where
  pure b := ⟨fun z => ⟨b, z, [], rfl, .refl z⟩, fun z hz => .inl ⟨rfl, hz⟩⟩
  bind := by
    intro β γ a b f g hab hfg
    constructor
    · intro z
      obtain ⟨r, z', calls, hb, hz⟩ := hab.calls z
      obtain ⟨r', z'', calls', hg, hz'⟩ := (hfg r).calls z'
      refine ⟨r', z'', calls ++ calls', ?_, ?_⟩
      · rw [bind_apply, hb]
        exact hg
      · rw [List.flatMap_append]
        exact hz.trans hz'
    · intro z hz
      obtain ⟨r, z', calls, hb, -⟩ := hab.calls z
      have hg : (b >>= g) z = g r z' := by rw [bind_apply, hb]
      rw [hg]
      rcases hab.stops z hz with ⟨ha, hz'⟩ | ⟨z₁, ha, hz₁, hc, hprefix, hlt⟩
      · have hf : (a >>= f) z = f r z' := by rw [bind_apply, ha, hb]
        rw [hf]
        rw [hb] at hz'
        exact (hfg r).stops z' hz'
      · -- the other run goes on, and its list only grows
        obtain ⟨r', z'', calls', hr', hz''⟩ := (hfg r).calls z'
        rw [hb] at hprefix hlt
        have hgrows := hz''.log_prefix
        refine .inr ⟨z₁, by rw [bind_apply, ha], hz₁, hc, ?_, ?_⟩
        · rw [hr']
          exact hprefix.trans hgrows
        · rw [hr']
          exact hlt.trans_le hgrows.length_le

/-- After a pass that started without a raised token only that pass can have raised it. -/
theorem Paused.pass {z z' : FitState σ α} {call : Call α} (hz : Paused cancelled rows z)
    (hc : cancelled z.1.1 = false) (h : Evaluates cancelled (call.requests x rows) z z') :
    Paused cancelled rows z' := by
  have hlength := h.length_log
  rw [call.length_requests] at hlength
  obtain ⟨added, hlog, -, hraised⟩ := h
  have hquiet : z.1.2.any Evaluation.raised = false := hz.seen.symm.trans hc
  refine ⟨?_, ?_, ?_⟩
  · rw [hlength]
    exact (Nat.dvd_add_right hz.whole).2 (Nat.dvd_refl rows)
  · rw [hraised, hlog, List.any_append, hz.seen]
  · rw [hlength, Nat.add_sub_cancel, hlog, List.take_left]
    simpa using hquiet

/-- A pass that looks for the token first is interrupted or made in full. -/
theorem interrupts_pass (hr : rows ≠ 0) {call : Call α} {a b : Fitting (FitState σ α) β}
    (hb : Makes cancelled (call.requests x rows) b)
    (ha : ∀ z, a z = if cancelled z.1.1 then (.error .cancelled, z) else b z) :
    Interrupts cancelled x rows a b := by
  constructor
  · intro z
    obtain ⟨r, z', hbz, hz⟩ := hb z
    refine ⟨r, z', [call], hbz, ?_⟩
    rwa [List.flatMap_singleton]
  · intro z hz
    obtain ⟨r, z', hbz, hpass⟩ := hb z
    rw [ha, hbz]
    cases hc : cancelled z.1.1 with
    | false => exact .inl ⟨if_neg Bool.false_ne_true, hz.pass hc hpass⟩
    | true =>
      have hlength := hpass.length_log
      rw [call.length_requests] at hlength
      refine .inr ⟨z, if_pos rfl, hz, hc, hpass.log_prefix, ?_⟩
      dsimp only
      omega

/-- The pass that raised the token is the last one. -/
theorem Paused.of_raised {z : FitState σ α} (hz : Paused cancelled rows z) {w k : Nat}
    {e : Evaluation α} (hk : k < rows) (he : z.1.2[w * rows + k]? = some e)
    (hraised : e.raised = true) : z.1.2.length = (w + 1) * rows := by
  obtain ⟨n, hn⟩ := hz.whole
  rw [Nat.mul_comm] at hn
  have hlt : w * rows + k < n * rows := hn ▸ (List.getElem?_eq_some_iff.1 he).1
  have hlast : n * rows - rows ≤ w * rows + k := by
    by_contra hlt'
    have hmem : e ∈ z.1.2.take (z.1.2.length - rows) := by
      refine List.mem_of_getElem? (i := w * rows + k) ?_
      rw [List.getElem?_take_of_lt (by omega), he]
    rw [hz.quiet e hmem] at hraised
    cases hraised
  have hlower : w < n := by
    have hmul : w * rows < n * rows := by omega
    exact Nat.lt_of_mul_lt_mul_right hmul
  have hupper : n < w + 2 := by
    have hmul : n * rows < (w + 2) * rows := by
      rw [Nat.add_mul]
      omega
    exact Nat.lt_of_mul_lt_mul_right hmul
  have hw : n = w + 1 := by omega
  rw [hn, hw]

theorem length_requests (x : DesignMatrix α) (rows : Nat) (calls : List (Call α)) :
    (List.flatMap (Call.requests x rows) calls).length = calls.length * rows := by
  induction calls with
  | nil => rw [List.flatMap_nil, List.length_nil, List.length_nil, Nat.zero_mul]
  | cons call calls ih =>
    rw [List.flatMap_cons, List.length_append, ih, call.length_requests, List.length_cons,
      Nat.succ_mul, Nat.add_comm]

/-- Without a raised token both runs are the same. With one, the pass that raised it is finished and
the run is cancelled unless no pass would follow. -/
theorem Interrupts.from_start {a b : Fitting (FitState σ α) β} (h : Interrupts cancelled x rows a b)
    (hr : rows ≠ 0) {z : FitState σ α} (hz : Paused cancelled rows z) (hlog : z.1.2 = []) :
    ∃ r z' calls result z'', b z = (.ok r, z') ∧ a z = (result, z'') ∧
      z'.1.2.map Evaluation.request = List.flatMap (Call.requests x rows) calls ∧
      z''.1.2 <+: z'.1.2 ∧
      ((∀ e ∈ z''.1.2, e.raised = false) → (result, z'') = (.ok r, z')) ∧
      ∀ w k e, k < rows → z''.1.2[w * rows + k]? = some e → e.raised = true →
        z''.1.2.length = (w + 1) * rows ∧
        if w + 1 = calls.length then (result, z'') = (.ok r, z')
        else result = .error .cancelled := by
  obtain ⟨r, z', calls, hb, hcalls⟩ := h.calls z
  have hfull := hcalls.length_log
  rw [hlog, List.length_nil, Nat.zero_add, length_requests] at hfull
  obtain ⟨added, hadded, hrequests, -⟩ := hcalls
  rw [hlog, List.nil_append] at hadded
  rcases h.stops z hz with ⟨ha, hz'⟩ | ⟨z'', ha, hz'', hc, hprefix, hlt⟩
  · rw [hb] at ha hz'
    refine ⟨r, z', calls, .ok r, z', hb, ha, hadded ▸ hrequests, List.prefix_rfl, fun _ => rfl, ?_⟩
    intro w k e hk he hraised
    have hlength := hz'.of_raised hk he hraised
    have hw : w + 1 = calls.length := by
      refine Nat.eq_of_mul_eq_mul_right (Nat.pos_of_ne_zero hr) ?_
      rw [← hlength, hfull]
    exact ⟨hlength, by rw [if_pos hw]⟩
  · rw [hb] at hprefix hlt
    refine ⟨r, z', calls, _, z'', hb, ha, hadded ▸ hrequests, hprefix, fun hquiet => ?_, ?_⟩
    · rw [hz''.seen, List.any_eq_true] at hc
      obtain ⟨e, he, hraised⟩ := hc
      rw [hquiet e he] at hraised
      cases hraised
    · intro w k e hk he hraised
      have hlength := hz''.of_raised hk he hraised
      have hw : w + 1 ≠ calls.length := by
        intro hw
        rw [hlength, hw] at hlt
        exact absurd hlt (by rw [hfull]; exact Nat.lt_irrefl _)
      exact ⟨hlength, by rw [if_neg hw]⟩

end Interruptions

section Fits

variable [Scalar α] {model : RowModel σ α} {cancelled : σ → Bool} (x : DesignMatrix α)
  (y : List α)

theorem problem_interrupts (hk : model.KeepsRaised cancelled) (hr : y.length ≠ 0) :
    Related (fun a b => Interrupts cancelled x y.length a b)
      ((model.logged cancelled).problem x y fun s => cancelled s.1)
      ((model.logged cancelled).problem x y fun _ => false) where
  parameterCount := rfl
  residuals params := by
    have hfree : ((model.logged cancelled).problem x y fun _ => false).residuals params =
        (model.logged cancelled).valuePass x y params := rfl
    rw [hfree]
    exact interrupts_pass hr (valuePass_makes hk x y params)
      (residuals_apply (model.logged cancelled) x y params _)
  jacobian params := by
    have hfree : ((model.logged cancelled).problem x y fun _ => false).jacobian params =
        (model.logged cancelled).gradientPass x y params := rfl
    rw [hfree]
    exact interrupts_pass hr (gradientPass_makes hk x y params)
      (jacobian_apply (model.logged cancelled) x y params _)

variable {x y} {initial : List α} {budget : Nat} {verify : Bool} {s : σ}

omit [Scalar α] in
/-- The first state of a fit whose token is not raised. -/
theorem paused_start (hs : cancelled s = false) (rows : Nat) :
    Paused (α := α) cancelled rows ((s, []), {}) :=
  ⟨Nat.dvd_zero _, hs, by simp⟩

/-- A fit whose token is raised evaluates nothing. Otherwise it makes the evaluations of the same
fit without a token, in the same order: all of them if none raises the token, and if one does, all
up to the end of its pass. It is cancelled then unless that pass is the last one. -/
theorem fit_stops (hk : model.KeepsRaised cancelled) (hc : model.check x y initial = .ok ())
    (solver : LinearSolver α) (budget : Nat) (verify : Bool) (s : σ) :
    (cancelled s = true →
      model.fit solver x y initial budget verify cancelled s = (.error .cancelled, s) ∧
      (model.logged cancelled).fit solver x y initial budget verify (fun s => cancelled s.1)
        (s, []) = (.error .cancelled, s, [])) ∧
    (cancelled s = false → ∃ outcome t full calls result s' log,
      (model.logged cancelled).fit solver x y initial budget verify (fun _ => false) (s, []) =
        (.ok outcome, t, full) ∧
      full.map Evaluation.request = List.flatMap (Call.requests x y.length) calls ∧
      (model.logged cancelled).fit solver x y initial budget verify (fun s => cancelled s.1)
        (s, []) = (result, s', log) ∧
      model.fit solver x y initial budget verify cancelled s = (result, s') ∧
      log <+: full ∧
      ((∀ e ∈ log, e.raised = false) → log = full ∧ result = .ok outcome) ∧
      ∀ w k e, k < y.length → log[w * y.length + k]? = some e → e.raised = true →
        log.length = (w + 1) * y.length ∧
        result = if w + 1 = calls.length then .ok outcome else .error .cancelled) := by
  have hlogged : (model.logged cancelled).check x y initial = .ok () := hc
  refine ⟨fun hs => ⟨fit_cancelled hc hs, fit_cancelled hlogged hs⟩, fun hs => ?_⟩
  have hr := rows_of_check hc
  have hinterrupts := (problem_interrupts x y hk hr).solve interrupts_congruence solver
    { budget, verify } initial fun hne => absurd (check_ok hc).2 hne
  obtain ⟨report, ⟨⟨t, full⟩, tally⟩, calls, result, ⟨⟨s', log⟩, tally'⟩, hfree, hpolling,
    hrequests, hprefix, hquiet, hraised⟩ := hinterrupts.from_start hr (paused_start hs y.length) rfl
  have hfree' := fit_started hlogged rfl hfree
  have hpolling' := fit_started hlogged hs hpolling
  have hplain : model.fit solver x y initial budget verify cancelled s = _ := fit_logged hc hs
  rw [hpolling'] at hplain
  refine ⟨_, t, full, calls, _, s', log, hfree', hrequests, hpolling', hplain, hprefix,
    fun hq => ?_, fun w k e hk he hre => ?_⟩
  · cases hquiet hq
    exact ⟨rfl, rfl⟩
  · obtain ⟨hlength, hresult⟩ := hraised w k e hk he hre
    refine ⟨hlength, ?_⟩
    by_cases hw : w + 1 = calls.length
    · rw [if_pos hw] at hresult ⊢
      cases hresult
      rfl
    · rw [if_neg hw] at hresult ⊢
      rw [hresult]
      rfl

end Fits

end RowModel

namespace Cancellation.Board

theorem isCancelled_cancel (b : Board) {t : Token} (t' : Token) (h : b.isCancelled t = true) :
    (b.cancel t').isCancelled t = true := by
  unfold isCancelled cancel at *
  rw [Array.getD_eq_getD_getElem?] at *
  rw [Array.getElem?_setIfInBounds]
  split_ifs with hf hb
  · rfl
  · rw [← hf, Array.getElem?_eq_none (Nat.le_of_not_lt hb)] at h
    cases h
  · exact h

end Cancellation.Board

namespace RowModel

section Tripping

open Cancellation

/-- The line `w x`; evaluation number `n` raises the first token of a board. -/
def trippingLine (n : Nat) : RowModel (Nat × Board) Float where
  parameterCount := 1
  value params inputs := fun s =>
    (params.getD 0 0 * inputs.getD 0 0, (s.1 + 1, if s.1 = n then s.2.cancel ⟨0⟩ else s.2))
  differentiate params inputs := fun s =>
    ((params.getD 0 0 * inputs.getD 0 0, inputs),
      (s.1 + 1, if s.1 = n then s.2.cancel ⟨0⟩ else s.2))

/-- Whether the first token of the board is raised. -/
def tripped (s : Nat × Board) : Bool := s.2.isCancelled ⟨0⟩

theorem trippingLine_keepsRaised (n : Nat) : (trippingLine n).KeepsRaised tripped := by
  have hstep : ∀ s : Nat × Board, s.2.isCancelled ⟨0⟩ = true →
      (if s.1 = n then s.2.cancel ⟨0⟩ else s.2).isCancelled ⟨0⟩ = true := by
    intro s hs
    split_ifs
    · exact s.2.isCancelled_cancel ⟨0⟩ hs
    · exact hs
  exact ⟨fun _ _ => hstep, fun _ _ => hstep⟩

theorem fit_stops_trippingLine :
    (trippingLine 1).fit .orthogonal ⟨#[1, 2], 2, 1⟩ [1, 3] [0] 3 true tripped (0, ⟨#[true]⟩) =
      (.error .cancelled, 0, ⟨#[true]⟩) ∧
    ∃ outcome t full calls result s' log,
      ((trippingLine 1).logged tripped).fit .orthogonal ⟨#[1, 2], 2, 1⟩ [1, 3] [0] 3 true
        (fun _ => false) ((0, ⟨#[false]⟩), []) = (.ok outcome, t, full) ∧
      full.map Evaluation.request =
        List.flatMap (Call.requests ⟨#[1, 2], 2, 1⟩ [(1 : Float), 3].length) calls ∧
      ((trippingLine 1).logged tripped).fit .orthogonal ⟨#[1, 2], 2, 1⟩ [1, 3] [0] 3 true
        (fun s => tripped s.1) ((0, ⟨#[false]⟩), []) = (result, s', log) ∧
      (trippingLine 1).fit .orthogonal ⟨#[1, 2], 2, 1⟩ [1, 3] [0] 3 true tripped (0, ⟨#[false]⟩) =
        (result, s') ∧
      log <+: full ∧
      ((∀ e ∈ log, e.raised = false) → log = full ∧ result = .ok outcome) ∧
      ∀ w k e, k < [(1 : Float), 3].length → log[w * [(1 : Float), 3].length + k]? = some e →
        e.raised = true →
        log.length = (w + 1) * [(1 : Float), 3].length ∧
        result = if w + 1 = calls.length then .ok outcome else .error .cancelled :=
  ⟨((fit_stops (trippingLine_keepsRaised 1) rfl .orthogonal 3 true (0, ⟨#[true]⟩)).1 rfl).1,
    (fit_stops (trippingLine_keepsRaised 1) rfl .orthogonal 3 true (0, ⟨#[false]⟩)).2 rfl⟩

end Tripping

end RowModel

end SymbolicFit
