import SymbolicFit.Correlation
import SymbolicFit.Evaluation

/-!
How well a tree predicts a target: the squared correlation of its clamped values with the observed
ones.
-/

namespace SymbolicFit

variable {α : Type} [Scalar α]

/-- The interval that predictions are clamped to. -/
structure Limits (α : Type) where
  lower : α
  upper : α

namespace Limits

/-- All finite numbers. -/
def finite : Limits Float := ⟨-1.7976931348623157e308, 1.7976931348623157e308⟩

def clamp (l : Limits α) (x : α) : α :=
  if x < l.lower then l.lower else if l.upper < x then l.upper else x

/-- The squared correlation of clamped estimates, zero where it is undefined. -/
def quality (l : Limits α) (estimated observed : List α) : α :=
  (squaredCorrelation? (estimated.map l.clamp) observed).getD 0

end Limits

def Tree.quality (t : Tree α) (d : Dataset α) (target : String) (rows : List Nat)
    (l : Limits α) : Except Failure α := do
  if rows.isEmpty then throw .emptyRows
  let estimated ← t.values d rows
  let observed ← d.numbers target rows
  return l.quality estimated observed

end SymbolicFit
