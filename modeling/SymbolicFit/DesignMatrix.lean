import SymbolicFit.CompiledTree
import SymbolicFit.Dataset

/-!
The inputs of a compiled tree on selected rows, as a dense matrix, beside the observed values.
-/

namespace SymbolicFit

/-- A matrix stored row after row. -/
structure DesignMatrix (α : Type) where
  data : Array α
  rows : Nat
  cols : Nat

namespace DesignMatrix

variable {α : Type}

def ofData (data : Array α) (rows cols : Nat) : Except Failure (DesignMatrix α) :=
  if data.size = rows * cols then .ok ⟨data, rows, cols⟩
  else .error (.columnLengthMismatch "X" (rows * cols) data.size)

/-- Lays rows end to end; the first one gives the number of columns. -/
def ofRows (rows : List (List α)) : Except Failure (DesignMatrix α) :=
  ofData rows.flatten.toArray rows.length (rows.head?.elim 0 List.length)

def row (x : DesignMatrix α) (i : Nat) : List α :=
  (x.data.extract (i * x.cols) ((i + 1) * x.cols)).toList

end DesignMatrix

namespace ColumnRead

variable {α : Type} [Scalar α]

/-- The value of an input on a row. -/
def value (r : ColumnRead) (d : Dataset α) (row : Nat) : Except Failure α := do
  let i ← d.laggedRow row r.lag
  match r.category with
  | some category => return if (← d.label r.name i) = category then 1 else 0
  | none =>
    match d.typeOf? r.name, r.index with
    | some .vector, some index => do Dataset.element r.name (← d.vector r.name i) index
    | _, _ => d.number r.name i

end ColumnRead

namespace Dataset

variable {α : Type} [Scalar α]

/-- The inputs and the target on each of the rows. -/
def tabulate (d : Dataset α) (inputs : List ColumnRead) (target : String) (rows : List Nat) :
    Except Failure (DesignMatrix α × List α) := do
  if rows.isEmpty then .error .emptyRows
  else
    let entries ← rows.mapM fun row => inputs.mapM fun r => r.value d row
    let x ← DesignMatrix.ofData entries.flatten.toArray rows.length inputs.length
    let y ← d.numbers target rows
    return (x, y)

end Dataset

end SymbolicFit
