import Mathlib.Data.List.Forall2
import Mathlib.Tactic.Common
import SymbolicFit.Shaped

/-!
Related scalars and vectors. Combining two of them element by element keeps them related, whatever
the items are.
-/

namespace SymbolicFit.Shaped

variable {β γ β' γ' δ δ' : Type} {R : β → γ → Prop} {S : β' → γ' → Prop}

theorem forall₂_zip {xs : List β} {ys : List γ} {xs' : List β'} {ys' : List γ'}
    (h : List.Forall₂ R xs ys) (h' : List.Forall₂ S xs' ys') :
    List.Forall₂ (fun x y => R x.1 y.1 ∧ S x.2 y.2) (xs.zip xs') (ys.zip ys') := by
  induction h generalizing xs' ys' with
  | nil => exact .nil
  | cons hxy _ ih =>
    cases h' with
    | nil => exact .nil
    | cons hxy' hs => exact .cons ⟨hxy, hxy'⟩ (ih hs)

theorem broadcast_of_vector {a : Shaped β} {b : Shaped γ}
    (h : a.shape.isVector = true ∨ b.shape.isVector = true) (id : Nat) :
    a.broadcast id b = (commonLength id a.length b.length).map fun n =>
      vector ((a.stretch n).zip (b.stretch n)) := by
  cases a <;> cases b
  case scalar.scalar => exact absurd h (by simp [shape, Shape.isVector])
  all_goals
    unfold broadcast
    dsimp only
    cases commonLength id _ _ <;> rfl

/-- Two scalars or two vectors of one length, with related items at each place. -/
def Related (R : β → γ → Prop) : Shaped β → Shaped γ → Prop
  | scalar x, scalar y => R x y
  | vector xs, vector ys => List.Forall₂ R xs ys
  | _, _ => False

namespace Related

theorem imp {R' : β → γ → Prop} (h : ∀ x y, R x y → R' x y) {a : Shaped β} {b : Shaped γ}
    (hab : Related R a b) : Related R' a b := by
  cases a <;> cases b <;> first | exact hab.elim | exact h _ _ hab | exact List.Forall₂.imp h hab

theorem toList {a : Shaped β} {b : Shaped γ} (h : Related R a b) :
    List.Forall₂ R a.toList b.toList := by
  cases a <;> cases b <;> first | exact h.elim | exact .cons h .nil | exact h

theorem length_eq {a : Shaped β} {b : Shaped γ} (h : Related R a b) : a.length = b.length :=
  h.toList.length_eq

theorem isVector_eq {a : Shaped β} {b : Shaped γ} (h : Related R a b) :
    a.shape.isVector = b.shape.isVector := by
  cases a <;> cases b <;> first | exact h.elim | rfl

theorem map_right {T : β → γ' → Prop} {g : γ → γ'} (hg : ∀ x y, R x y → T x (g y))
    {a : Shaped β} {b : Shaped γ} (h : Related R a b) : Related T a (b.map g) := by
  cases a with
  | scalar x =>
    cases b with
    | scalar y => exact hg x y h
    | vector ys => exact h.elim
  | vector xs =>
    cases b with
    | scalar y => exact h.elim
    | vector ys => exact List.forall₂_map_right_iff.2 (List.Forall₂.imp hg h)

theorem stretch {a : Shaped β} {b : Shaped γ} (h : Related R a b) (n : Nat) :
    List.Forall₂ R (a.stretch n) (b.stretch n) := by
  have hrep : ∀ {x y}, R x y → List.Forall₂ R (List.replicate n x) (List.replicate n y) := by
    intro x y hxy
    induction n with
    | zero => exact .nil
    | succ n ih => exact .cons hxy ih
  cases a with
  | scalar x =>
    cases b with
    | scalar y => exact hrep h
    | vector ys => exact h.elim
  | vector xs =>
    cases b with
    | scalar y => exact h.elim
    | vector ys =>
      -- only a vector of one item is stretched
      rcases h with _ | ⟨hxy, _ | ⟨hxy', hs⟩⟩
      · exact .nil
      · exact hrep hxy
      · exact .cons hxy (.cons hxy' hs)

/-- Related operands can be combined together or not at all. -/
theorem broadcast {a : Shaped β} {b : Shaped γ} {a' : Shaped β'} {b' : Shaped γ'}
    (h : Related R a b) (h' : Related S a' b') {id : Nat} {p : Shaped (β × β')}
    (hp : a.broadcast id a' = .ok p) :
    ∃ q, b.broadcast id b' = .ok q ∧ Related (fun x y => R x.1 y.1 ∧ S x.2 y.2) p q := by
  have hzip : ∀ n, List.Forall₂ (fun x y => R x.1 y.1 ∧ S x.2 y.2)
      ((a.stretch n).zip (a'.stretch n)) ((b.stretch n).zip (b'.stretch n)) := fun n =>
    forall₂_zip (h.stretch n) (h'.stretch n)
  by_cases hv : a.shape.isVector = true ∨ a'.shape.isVector = true
  · rw [broadcast_of_vector hv, h.length_eq, h'.length_eq] at hp
    rw [h.isVector_eq, h'.isVector_eq] at hv
    rw [broadcast_of_vector hv]
    cases hn : commonLength id b.length b'.length with
    | error e => rw [hn] at hp; cases hp
    | ok n =>
      rw [hn] at hp
      cases hp
      exact ⟨_, rfl, hzip n⟩
  · cases a with
    | vector xs => exact absurd (Or.inl rfl) hv
    | scalar x =>
      cases a' with
      | vector xs => exact absurd (Or.inr rfl) hv
      | scalar x' =>
        cases b with
        | vector ys => exact h.elim
        | scalar y =>
          cases b' with
          | vector ys => exact h'.elim
          | scalar y' =>
            cases hp
            exact ⟨_, rfl, h, h'⟩

end Related

end SymbolicFit.Shaped
