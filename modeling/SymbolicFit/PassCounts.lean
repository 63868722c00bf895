/-!
Counting passes over the fitted rows, for one fit and over many.
-/

namespace SymbolicFit

/-- Passes that took the values of a model, and passes that took its gradients. -/
structure PassCounts where
  values : Nat := 0
  gradients : Nat := 0
deriving DecidableEq, Repr

namespace PassCounts

/-- The passes that a number of evaluations on single rows amounts to. -/
def ofEvaluations (values gradients rows : Nat) : PassCounts :=
  ⟨values / max rows 1, gradients / max rows 1⟩

def add (a b : PassCounts) : PassCounts := ⟨a.values + b.values, a.gradients + b.gradients⟩

instance : Add PassCounts := ⟨add⟩

instance : Zero PassCounts := ⟨{}⟩

end PassCounts

/-- The passes of all fits since the last reset. -/
structure PassTotals where
  totals : PassCounts := {}
deriving DecidableEq, Repr

namespace PassTotals

def record (t : PassTotals) (c : PassCounts) : PassTotals := ⟨t.totals + c⟩

/-- The totals so far, and a fresh start. -/
def reset (t : PassTotals) : PassCounts × PassTotals := (t.totals, {})

end PassTotals

end SymbolicFit
