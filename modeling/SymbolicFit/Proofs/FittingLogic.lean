import Mathlib.Tactic.Common
import SymbolicFit.LeastSquares

/-!
Reasoning about computations with a state that survives a failure: what holds after them, and when
one does the same as another with part of the state left out.
-/

namespace SymbolicFit

theorem exists_ok_of_any {ε β : Type} {x : Except ε β} {p : β → Bool}
    (h : x.toOption.any p = true) : ∃ b, x = .ok b ∧ p b = true := by
  cases x with
  | error e => cases h
  | ok b => exact ⟨b, rfl, h⟩

end SymbolicFit

namespace SymbolicFit.Fitting

variable {σ τ β γ : Type}

theorem bind_apply (x : Fitting σ β) (f : β → Fitting σ γ) (s : σ) :
    (x >>= f) s = match x s with
      | (.ok b, s') => f b s'
      | (.error e, s') => (.error e, s') := by
  rcases h : x s with ⟨e | b, s'⟩
  · simp [Bind.bind, ExceptT.bind, ExceptT.mk, ExceptT.bindCont, StateT.bind, h]
    rfl
  · simp [Bind.bind, ExceptT.bind, ExceptT.mk, ExceptT.bindCont, StateT.bind, h]

/-- From a state with `P`, the computation either returns with `Q` or fails with `E`. -/
def Triple (P : σ → Prop) (x : Fitting σ β) (Q : β → σ → Prop) (E : σ → Prop) : Prop :=
  ∀ s, P s → match x s with
    | (.ok b, s') => Q b s'
    | (.error _, s') => E s'

namespace Triple

variable {P : σ → Prop} {Q : β → σ → Prop} {E : σ → Prop}

theorem pure {b : β} (h : ∀ s, P s → Q b s) : Triple P (Pure.pure b) Q E := h

theorem throw {e : Failure} (h : ∀ s, P s → E s) : Triple P (MonadExcept.throw e) Q E := h

theorem mono {P' : σ → Prop} {x : Fitting σ β} (h : Triple P' x Q E) (hP : ∀ s, P s → P' s) :
    Triple P x Q E := fun s hs => h s (hP s hs)

theorem of_and {a : Prop} {x : Fitting σ β} (h : a → Triple P x Q E) :
    Triple (fun s => a ∧ P s) x Q E := fun s hs => h hs.1 s hs.2

theorem bind {x : Fitting σ γ} {f : γ → Fitting σ β} {R : γ → σ → Prop}
    (hx : Triple P x R E) (hf : ∀ c, Triple (R c) (f c) Q E) : Triple P (x >>= f) Q E := by
  intro s hs
  have h := hx s hs
  rw [bind_apply]
  rcases hxs : x s with ⟨e | c, s'⟩
  · simpa [hxs] using h
  · exact hf c s' (by simpa [hxs] using h)

end Triple

/-- What the computation returns, if it returns, has the property. -/
def Ensures (x : Fitting σ β) (Q : β → Prop) : Prop := ∀ s b s', x s = (.ok b, s') → Q b

namespace Ensures

variable {x : Fitting σ β} {Q : β → Prop}

theorem trivial (x : Fitting σ β) : Ensures x fun _ => True := fun _ _ _ _ => True.intro

theorem pure {b : β} (h : Q b) : Ensures (Pure.pure b : Fitting σ β) Q := by
  intro s c s' hc
  cases hc
  exact h

theorem bind {f : β → Fitting σ γ} {R : γ → Prop} (hx : Ensures x Q)
    (hf : ∀ b, Q b → Ensures (f b) R) : Ensures (x >>= f) R := by
  intro s c s' hc
  rw [bind_apply] at hc
  rcases hs : x s with ⟨e | b, s''⟩
  · rw [hs] at hc
    cases hc
  · rw [hs] at hc
    exact hf b (hx s b s'' hs) s'' c s' hc

theorem imp {R : β → Prop} (hx : Ensures x Q) (h : ∀ b, Q b → R b) : Ensures x R :=
  fun s b s' hb => h b (hx s b s' hb)

/-- What follows a computation matters only for what it returns. -/
theorem bind_congr {f g : β → Fitting σ γ} (hx : Ensures x Q) (h : ∀ b, Q b → f b = g b) :
    x >>= f = x >>= g := by
  funext s
  rw [bind_apply, bind_apply]
  rcases hs : x s with ⟨e | b, s'⟩
  · rfl
  · dsimp only
    rw [h b (hx s b s' hs)]

end Ensures

/-- `x` does what `y` does and keeps a record beside its state. -/
def Forgets (x : Fitting (σ × τ) β) (y : Fitting σ β) : Prop :=
  ∀ s t, ((x (s, t)).1, (x (s, t)).2.1) = y s

namespace Forgets

theorem pure (b : β) : Forgets (Pure.pure b : Fitting (σ × τ) β) (Pure.pure b) := fun _ _ => rfl

theorem throw (e : Failure) :
    Forgets (MonadExcept.throw e : Fitting (σ × τ) β) (MonadExcept.throw e) := fun _ _ => rfl

theorem bind {x : Fitting (σ × τ) β} {y : Fitting σ β} {f : β → Fitting (σ × τ) γ}
    {g : β → Fitting σ γ} (hx : Forgets x y) (hf : ∀ b, Forgets (f b) (g b)) :
    Forgets (x >>= f) (y >>= g) := by
  intro s t
  have h := hx s t
  rw [bind_apply, bind_apply, ← h]
  rcases x (s, t) with ⟨e | b, s', t'⟩
  · rfl
  · exact hf b s' t'

end Forgets

end SymbolicFit.Fitting
