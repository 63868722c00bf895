import Mathlib
import SymbolicFit.Tuning
import SymbolicFit.Proofs.FittedRows
import SymbolicFit.Proofs.RecoverableFailures
import SymbolicFit.Proofs.RelatedRuns
import SymbolicFit.Proofs.RowReads

/-!
The failures of a fit. Without a raised token a fit fails recoverably; with one it is cancelled as
soon as it starts, which it does when all that comes before succeeds and there is something to fit.
-/

namespace SymbolicFit

variable {α β γ σ : Type}

namespace Fitting

/-- From every state, the computation returns or fails recoverably. -/
def FailsRecoverably (x : Fitting σ β) : Prop := ∀ s, Recoverable (x s).1

namespace FailsRecoverably

theorem pure (b : β) : FailsRecoverably (Pure.pure b : Fitting σ β) := fun _ => .ok b

theorem throw {e : Failure} (h : e.isRecoverable = true) :
    FailsRecoverably (MonadExcept.throw e : Fitting σ β) := fun _ => .error h

theorem bind {x : Fitting σ β} {f : β → Fitting σ γ} (hx : FailsRecoverably x)
    (hf : ∀ b, FailsRecoverably (f b)) : FailsRecoverably (x >>= f) := by
  intro s
  have h := hx s
  rw [bind_apply]
  rcases hs : x s with ⟨e | b, s'⟩
  · exact .error (h e (by rw [hs]))
  · exact hf b s'

end FailsRecoverably

theorem recoverable_congruence :
    Congruence fun (x _ : Fitting σ _) => FailsRecoverably x := ⟨.pure, .bind⟩

theorem FailsRecoverably.mapM {f : β → Fitting σ γ} (h : ∀ b, FailsRecoverably (f b))
    (bs : List β) : FailsRecoverably (bs.mapM f) :=
  recoverable_congruence.mapM (g := f) h bs

end Fitting

open Fitting (FailsRecoverably)

namespace LeastSquares

variable [Scalar α] {p : LeastSquares σ α}

/-- The callbacks fail recoverably. -/
structure FailsRecoverably (p : LeastSquares σ α) : Prop where
  residuals : ∀ params, Fitting.FailsRecoverably (p.residuals params)
  jacobian : ∀ params, Fitting.FailsRecoverably (p.jacobian params)

omit [Scalar α] in
theorem FailsRecoverably.related (h : p.FailsRecoverably) :
    Related (fun x _ => Fitting.FailsRecoverably x) p p := ⟨rfl, h.residuals, h.jacobian⟩

theorem FailsRecoverably.solve (h : p.FailsRecoverably) (solver : LinearSolver α)
    (settings : Settings α) (initial : List α) :
    Fitting.FailsRecoverably (p.solve solver settings initial) :=
  h.related.solve Fitting.recoverable_congruence solver settings initial fun _ => .throw rfl

end LeastSquares

namespace RowModel

variable [Scalar α] (model : RowModel σ α) (x : DesignMatrix α) (y : List α)

omit [Scalar α] in
theorem onRow_recoverable (f : StateM σ β) : FailsRecoverably (onRow f) := fun _ => .ok _

omit [Scalar α] in
theorem stopIfCancelled_recoverable :
    FailsRecoverably (stopIfCancelled fun _ : σ => false) := fun _ => .ok _

theorem problem_recoverable : (model.problem x y fun _ => false).FailsRecoverably where
  residuals params := by
    refine .bind stopIfCancelled_recoverable fun _ => .bind (.mapM (fun p => ?_) _) fun rs => ?_
    · exact .bind (onRow_recoverable _) fun _ => .pure _
    · exact .bind (fun _ => .ok _) fun _ => .pure rs
  jacobian params := by
    refine .bind stopIfCancelled_recoverable fun _ => .bind (.mapM (fun i => ?_) _) fun rows => ?_
    · exact .bind (onRow_recoverable _) fun _ => .pure _
    · exact .bind (fun _ => .ok _) fun _ => .pure rows

variable (solver : LinearSolver α) (initial : List α) (budget : Nat) (verify : Bool)

omit [Scalar α] in
theorem check_recoverable : Recoverable (model.check x y initial) := by
  unfold check
  split_ifs
  · exact .error rfl
  · exact .error rfl
  · exact .error rfl
  · exact .error rfl
  · exact .ok _

theorem fit_recoverable :
    FailsRecoverably (model.fit solver x y initial budget verify fun _ => false) := by
  refine .bind (fun s => model.check_recoverable x y initial) fun _ => ?_
  refine .bind (fun s => .ok s) fun s => ?_
  refine .bind (fun s => ?_) fun ⟨report, tally⟩ => ?_
  · exact ((model.problem_recoverable x y).solve solver _ initial (s, {})).map _
  · dsimp only
    split_ifs
    · exact .pure _
    · exact .pure _

end RowModel

section Tuning

variable [Scalar α]

/-- A compiled tree with parameters can be fitted to whatever was tabulated for it. -/
theorem CompiledTree.check_of_tabulate {c : CompiledTree α} {d : Dataset α} {target : String}
    {rows : List Nat} {x : DesignMatrix α} {y : List α} (hc : c.isFixed = false)
    (h : d.tabulate c.inputs target rows = .ok (x, y)) :
    c.rowModel.check x y c.initial = .ok () := by
  have htable := Dataset.tabulates_of_ok h
  have hl := htable.length_eq
  have hp : c.parameterCount ≠ 0 := by
    simpa [isFixed, parameterCount] using hc
  have hi : c.initial.length = c.parameterCount := by simp [initial, parameterCount]
  have hn : y ≠ [] :=
    List.ne_nil_of_length_pos (hl ▸ List.length_pos_of_ne_nil htable.nonempty)
  simp [RowModel.check, rowModel, hp, hi, hn, htable.rows_eq, hl]

namespace Tree

variable (t : Tree α) (d : Dataset α) (target : String) (rows : List Nat) (s : TuningSettings)
  (cancelled : Bool)

/-- All that comes before a fit succeeds, and there is something to fit. -/
def ReachesFit : Prop :=
  ∃ trace c table, t.neededTrace d rows = .ok trace ∧ t.compile s.fitOptions trace = .ok c ∧
    c.isFixed = false ∧ d.tabulate c.inputs target rows = .ok table

variable {t d target rows s cancelled} {solver : LinearSolver α}

theorem tune_recoverable (h : cancelled = true → ¬t.ReachesFit d target rows s) :
    Recoverable (t.tune solver d target rows s cancelled) := by
  refine (t.neededTrace_recoverable d rows).bind_ok fun trace htrace => ?_
  refine (t.compile_recoverable s.fitOptions trace).bind_ok fun c hc => ?_
  by_cases hfixed : c.isFixed = true
  · rw [if_pos hfixed]
    exact .error (e := .nothingToFit) rfl
  rw [if_neg hfixed]
  refine (d.tabulate_recoverable c.inputs target rows).bind_ok fun table htable => ?_
  have hreach : t.ReachesFit d target rows s :=
    ⟨trace, c, table, htrace, hc, by simpa using hfixed, htable⟩
  obtain rfl : cancelled = false := by
    cases cancelled
    · rfl
    · exact absurd hreach (h rfl)
  refine (c.rowModel.fit_recoverable _ _ _ _ _ _ _).bind fun outcome => ?_
  cases outcome with
  | failed reason => exact .error rfl
  | fitted params passes =>
    exact (t.withParameters_recoverable s.fitOptions params).bind fun _ => .ok _

theorem tune_cancelled_iff : t.tune solver d target rows s cancelled = .error .cancelled ↔
    cancelled = true ∧ t.ReachesFit d target rows s := by
  constructor
  · intro h
    by_contra hn
    exact absurd (tune_recoverable (fun hc hr => hn ⟨hc, hr⟩) _ h) nofun
  · rintro ⟨rfl, trace, c, ⟨x, y⟩, htrace, hc, hfixed, htable⟩
    have hcheck := CompiledTree.check_of_tabulate hfixed htable
    have hfit : c.rowModel.fit solver x y c.initial s.budget s.verify (fun _ => true) .empty =
        (.error .cancelled, .empty) := RowModel.fit_cancelled hcheck rfl
    unfold tune
    rw [htrace]
    dsimp only [bind, Except.bind]
    rw [hc]
    dsimp only
    rw [hfixed]
    simp only [Bool.false_eq_true, if_false]
    rw [htable]
    dsimp only
    rw [hfit]

end Tree

section Line

/-- The tree `w x + c`. -/
def lineTree (w c : α) : Tree α :=
  .node (.fold .add) [.node (.column "x" w 0 none) [], .node (.constant c) []]

def lineData (x₀ x₁ y₀ y₁ : α) : Dataset α where
  rows := some 2
  columns := [("x", .numbers #[x₀, x₁]), ("y", .numbers #[y₀, y₁])]

def lineCompiled (w c : α) : CompiledTree α where
  tape := {
    entries := #[.param 0, .param 1, .param 2, .input 0, .binary .mul 3 2, .param 3,
      .binary .add 4 5, .binary .mul 1 6, .binary .add 7 0]
    output := some 8 }
  parameters := [⟨0, .offset, 0⟩, ⟨0, .factor, 1⟩, ⟨1, .columnWeight, w⟩, ⟨2, .constant, c⟩]
  inputs := [⟨"x", none, 0, none⟩]
  rescaled := true

theorem lineTree_reachesFit (w c x₀ x₁ y₀ y₁ : α) {s : TuningSettings}
    (hs : s.fitOptions = { rescale := true }) :
    (lineTree w c).ReachesFit (lineData x₀ x₁ y₀ y₁) "y" [0, 1] s := by
  have ht : (lineTree w c).neededTrace (lineData x₀ x₁ y₀ y₁) [0, 1] = .ok none := by cbv
  have hc : (lineTree w c).compile { rescale := true } none = .ok (lineCompiled w c) := by cbv
  have hx : (lineData x₀ x₁ y₀ y₁).tabulate (lineCompiled w c).inputs "y" [0, 1] =
      .ok (⟨#[x₀, x₁], 2, 1⟩, [y₀, y₁]) := by cbv
  exact ⟨none, lineCompiled w c, _, ht, hs ▸ hc, rfl, hx⟩

end Line

end Tuning

end SymbolicFit
