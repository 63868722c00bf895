import SymbolicFit.CompiledTree.Compile
import SymbolicFit.RowModel
import SymbolicFit.Tunable

/-!
Tuning the numbers of a tree: compile it, tabulate the data, fit, and put the parameters back.
-/

namespace SymbolicFit

variable {α : Type} [Scalar α]

structure TuningSettings where
  budget : Nat := 10
  weights : Bool := true
  rescale : Bool := true
  verify : Bool := false
  excluded : List Nat := []

def TuningSettings.fitOptions (s : TuningSettings) : FitOptions :=
  ⟨s.weights, s.rescale, s.excluded⟩

structure TunedTree (α : Type) where
  tree : Tree α
  params : List α
  rescaling : Option (Rescaling α)
  passes : PassCounts

namespace Tree

/-- The shapes on the rows, recorded only for a tree that reads whole vectors. -/
def neededTrace (t : Tree α) (d : Dataset α) (rows : List Nat) : Except Failure (Option Trace) :=
  if t.readsWholeVectors d then some <$> Trace.record t d rows else .ok none

/-- Fits the tunable numbers of a tree to the target on the rows. -/
def tune (t : Tree α) (solver : LinearSolver α) (d : Dataset α) (target : String)
    (rows : List Nat) (s : TuningSettings) (cancelled : Bool) : Except Failure (TunedTree α) := do
  let trace ← t.neededTrace d rows
  let c ← t.compile s.fitOptions trace
  if c.isFixed then throw .nothingToFit
  let (x, y) ← d.tabulate c.inputs target rows
  let fit := c.rowModel.fit solver x y c.initial s.budget s.verify fun _ => cancelled
  match ← (fit .empty).1 with
  | .failed reason => throw (.numerical reason)
  | .fitted params passes =>
    let (tree, _) ← t.withParameters s.fitOptions params
    return ⟨tree, params, if s.rescale then Rescaling.ofParameters? params else none, passes⟩

end Tree

end SymbolicFit
