import SymbolicFit.Symbol

/-!
The choices that decide which numbers of a tree are fitted.
-/

namespace SymbolicFit

/-- Which numbers of a tree are parameters of its fit. -/
structure FitOptions where
  /-- Weights of columns and categories are parameters, and not only constants. -/
  weights : Bool := true
  /-- The tree's value is rescaled by a factor and an offset, the first two parameters. -/
  rescale : Bool := false
  /-- Positions of nodes whose numbers stay as they are. -/
  excluded : List Nat := []
deriving DecidableEq

namespace FitOptions

def tunes (o : FitOptions) (id : Nat) : Bool := !o.excluded.contains id

def tunesWeights (o : FitOptions) (id : Nat) : Bool := o.weights && o.tunes id

/-- The number of parameters ahead of those of the tree. -/
def offset (o : FitOptions) : Nat := if o.rescale then 2 else 0

end FitOptions

end SymbolicFit
