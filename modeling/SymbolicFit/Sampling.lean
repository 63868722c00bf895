import SymbolicFit.Failure

/-!
Random selections of rows without replacement.
-/

namespace SymbolicFit

/-- What is drawn at random from a generator: a number in the unit interval, and distinct positions
below a length. -/
structure Draws (γ : Type) where
  uniform : StateM γ Float
  positions : (length amount : Nat) → StateM γ (List Nat)

namespace Sampling

/-- The number of rows that a fraction of `n` rows stands for, at least one. -/
def size (fraction : Float) (n : Nat) : Nat :=
  max 1 (min (fraction * Float.ofNat n).toUInt64.toNat (max n 1))

/-- A fraction of the rows, in ascending order. Their positions are drawn by the sampler, which is
given the number of rows and the number of positions. -/
def rowsBy {γ : Type} (sample : Nat → Nat → StateM γ (List Nat)) (all : List Nat)
    (fraction : Float) : ExceptT Failure (StateM γ) (List Nat) := do
  if all.isEmpty then throw .emptyRows
  let count := size fraction all.length
  if count ≥ all.length then return all.mergeSort
  else
    let selected ← (sample all.length count : StateM γ (List Nat))
    return (selected.map (all.getD · 0)).mergeSort

end Sampling

end SymbolicFit
