import SymbolicFit.Evaluation

/-!
The shapes of the nodes of a tree over a set of rows.
-/

namespace SymbolicFit

variable {α : Type} [Scalar α]

/-- The shape of every evaluated node, in node order. -/
structure Trace where
  shapes : List Shape
deriving DecidableEq

namespace Trace

def shape? (t : Trace) (id : Nat) : Option Shape := t.shapes[id]?

def length (t : Trace) : Nat := t.shapes.length

def isEmpty (t : Trace) : Bool := t.shapes.isEmpty

/-- The shapes on the given rows, on which they have to agree. -/
def record (t : Tree α) (d : Dataset α) : List Nat → Except Failure Trace
  | [] => .error .emptyRows
  | first :: rest => do
    let (_, shapes) ← t.evaluateAt d first 0
    rest.forM fun row => do
      let (_, shapes') ← t.evaluateAt d row 0
      match (shapes.zip shapes').findIdx? fun p => p.1 ≠ p.2 with
      | some id => .error (.inconsistentVectorLength id)
      | none => .ok ()
    return ⟨shapes⟩

end Trace

end SymbolicFit
