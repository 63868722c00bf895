import SymbolicFit.Quality
import SymbolicFit.Sampling
import SymbolicFit.Tuning

/-!
Scoring a tree, with an attempt to tune its numbers first. A failed attempt leaves the tree as it
is; only cancellation and unusable data are errors.
-/

namespace SymbolicFit

structure ScoringPolicy where
  /-- The chance that a tree is tuned. -/
  probability : Float
  /-- The iterations of a fit. -/
  budget : Nat
  /-- The fraction of the training rows used for tuning. -/
  tuningFraction : Float
  /-- The fraction of the training rows used for the reported quality. -/
  scoringFraction : Float
  tuneWeights : Bool
  rescale : Bool
  /-- Return the tree with its tuned numbers. -/
  keepTuned : Bool
  limits : Limits Float
  verify : Bool
  countPasses : Bool
  /-- The rows to use; all rows if none are given. -/
  trainingRows : Option (List Nat)
  target : String
  excluded : List Nat

structure Assessment where
  tree : Tree Float
  quality : Float
  /-- A fit was accepted. -/
  tuned : Bool
  passes : PassCounts
  rescaling : Option (Rescaling Float)

/-- A selection of rows has to be non-empty and inside the dataset. -/
def checkRows (rows : List Nat) (rowCount : Nat) : Except Failure Unit :=
  if rows.isEmpty then .error .emptyRows
  else
    match rows.find? (rowCount ≤ ·) with
    | some row => .error (.rowOutOfRange (Dataset.signedRow row) rowCount)
    | none => .ok ()

/-- The target has to be a column of numbers. -/
def checkTarget (d : Dataset Float) (target : String) : Except Failure Unit :=
  match d.typeOf? target with
  | some .number => .ok ()
  | some _ => .error (.variableTypeMismatch target ColumnType.number.name)
  | none => .error (.unknownVariable target)

namespace ScoringPolicy

def tuningSettings (c : ScoringPolicy) : TuningSettings :=
  ⟨c.budget, c.tuneWeights, c.rescale, c.verify, c.excluded⟩

def training (c : ScoringPolicy) (d : Dataset Float) : List Nat :=
  c.trainingRows.getD (List.range d.rowCount)

/-- The quality of a tree, zero if it cannot be evaluated. Cancellation is passed on. -/
def score (c : ScoringPolicy) (d : Dataset Float) (t : Tree Float) (rows : List Nat) :
    Except Failure Float :=
  match t.quality d c.target rows c.limits with
  | .ok q => .ok q
  | .error .cancelled => .error .cancelled
  | .error _ => .ok 0

/-- The largest loss of quality that is accepted from a fit. -/
def acceptedLoss : Float := 1e-3

/-- Attempts a fit on the rows and keeps it unless it lowers the quality. -/
def attempt (c : ScoringPolicy) (solver : LinearSolver Float) (d : Dataset Float) (t : Tree Float)
    (rows : List Nat) (cancelled : Bool) : Except Failure Assessment := do
  let before ← c.score d t rows
  match t.tune solver d c.target rows c.tuningSettings cancelled with
  | .ok r =>
    let after ← c.score d r.tree rows
    if acceptedLoss < before - after then return ⟨t, before, false, r.passes, none⟩
    else return ⟨if c.keepTuned then r.tree else t, after, true, r.passes, r.rescaling⟩
  | .error .cancelled => throw .cancelled
  | .error _ => return ⟨t, before, false, {}, none⟩

variable {γ : Type}

/-- Scores a tree, after a fit if a uniform draw falls below the probability. The quality is taken
again when it is reported on other rows than were fitted. -/
def assess (c : ScoringPolicy) (solver : LinearSolver Float) (draws : Draws γ) (t : Tree Float)
    (d : Dataset Float) (cancelled : Bool) : ExceptT Failure (StateM γ) Assessment := do
  let training := c.training d
  checkRows training d.rowCount
  checkTarget d c.target
  let draw ← (draws.uniform : StateM γ Float)
  if draw < c.probability then
    let rows ← Sampling.rowsBy draws.positions training c.tuningFraction
    let a ← c.attempt solver d t rows cancelled
    if c.tuningFraction != c.scoringFraction then rescore training a else return a
  else rescore training ⟨t, 0, false, {}, none⟩
where
  rescore (training : List Nat) (a : Assessment) : ExceptT Failure (StateM γ) Assessment := do
    let rows ← Sampling.rowsBy draws.positions training c.scoringFraction
    let quality ← c.score d a.tree rows
    return { a with quality }

end ScoringPolicy

/-- A policy with running totals, if passes are counted. -/
structure Evaluator where
  policy : ScoringPolicy
  totals : Option PassTotals

namespace Evaluator

def ofPolicy (c : ScoringPolicy) : Evaluator := ⟨c, if c.countPasses then some {} else none⟩

def passes (e : Evaluator) : Option PassCounts := e.totals.map (·.totals)

/-- The totals so far, and the evaluator with totals of zero. -/
def reset (e : Evaluator) : Option PassCounts × Evaluator :=
  (e.passes, { e with totals := e.totals.map fun t => t.reset.2 })

/-- Assesses a tree and adds the passes of a successful assessment to the totals. -/
def assess {γ : Type} (e : Evaluator) (solver : LinearSolver Float) (draws : Draws γ)
    (t : Tree Float) (d : Dataset Float) (cancelled : Bool) (g : γ) :
    Except Failure Assessment × Evaluator × γ :=
  let (r, g) := (e.policy.assess solver draws t d cancelled).run g
  match r with
  | .ok a => (.ok a, { e with totals := e.totals.map (·.record a.passes) }, g)
  | .error err => (.error err, e, g)

end Evaluator

end SymbolicFit
