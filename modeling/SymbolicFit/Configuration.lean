import SymbolicFit.Evaluator

/-!
Building a scoring policy from a list of settings, each given at most once.
-/

namespace SymbolicFit

inductive Setting where
  | probability (value : Float)
  | budget (iterations : Nat)
  | tuningFraction (value : Float)
  | scoringFraction (value : Float)
  | tuneWeights (value : Bool)
  | rescale (value : Bool)
  | keepTuned (value : Bool)
  | limits (lower upper : Float)
  | verify (value : Bool)
  | countPasses (value : Bool)
  | trainingRows (rows : List Nat)
  | target (name : String)
  | excluded (nodes : List Nat)

/-- The settings given so far. -/
structure Configuration where
  probability : Option Float := none
  budget : Option Nat := none
  tuningFraction : Option Float := none
  scoringFraction : Option Float := none
  tuneWeights : Option Bool := none
  rescale : Option Bool := none
  keepTuned : Option Bool := none
  limits : Option (Float × Float) := none
  verify : Option Bool := none
  countPasses : Option Bool := none
  trainingRows : Option (List Nat) := none
  target : Option String := none
  excluded : Option (List Nat) := none
  /-- The name of the setting that was last given again. -/
  repeated : Option String := none

def checkProbability (p : Float) : Except Failure Unit :=
  if 0 ≤ p ∧ p ≤ 1 then .ok () else .error (.invalidProbability p)

def checkFraction (name : String) (x : Float) : Except Failure Unit :=
  if x.isFinite ∧ ¬x ≤ 0 ∧ ¬1 < x then .ok () else .error (.invalidPercentage name x)

/-- The largest number of iterations that can be asked for. -/
def maxBudget : Nat := 10000

def checkBudget (n : Nat) : Except Failure Unit :=
  if n ≤ maxBudget then .ok () else .error (.invalidIterations n)

def checkLimits (lower upper : Float) : Except Failure Unit :=
  if lower.isNaN ∨ upper.isNaN ∨ upper < lower then .error (.invalidLimits lower upper)
  else .ok ()

def checkRepeated : Option String → Except Failure Unit
  | some name => .error (.repeatedSetting name)
  | none => .ok ()

namespace Configuration

/-- Marks a setting as given again if it had a value. -/
def note {β : Type} (c : Configuration) (name : String) (earlier : Option β) : Configuration :=
  if earlier.isSome then { c with repeated := some name } else c

def set (c : Configuration) : Setting → Configuration
  | .probability p => { c.note "probability" c.probability with probability := some p }
  | .budget n => { c.note "iterations" c.budget with budget := some n }
  | .tuningFraction x =>
    { c.note "optimization_rows_percentage" c.tuningFraction with tuningFraction := some x }
  | .scoringFraction x =>
    { c.note "evaluation_rows_percentage" c.scoringFraction with scoringFraction := some x }
  | .tuneWeights b =>
    { c.note "update_variable_weights" c.tuneWeights with tuneWeights := some b }
  | .rescale b => { c.note "linear_scaling" c.rescale with rescale := some b }
  | .keepTuned b => { c.note "update_constants_in_tree" c.keepTuned with keepTuned := some b }
  | .limits lower upper =>
    { c.note "estimation_limits" c.limits with limits := some (lower, upper) }
  | .verify b => { c.note "gradient_check" c.verify with verify := some b }
  | .countPasses b => { c.note "count_evaluations" c.countPasses with countPasses := some b }
  | .trainingRows rows =>
    { c.note "training_rows" c.trainingRows with trainingRows := some rows }
  | .target name => { c.note "target" c.target with target := some name }
  | .excluded nodes => { c.note "excluded_nodes" c.excluded with excluded := some nodes }

/-- A set of positions, in ascending order. -/
def sortedSet (nodes : List Nat) : List Nat := nodes.mergeSort.eraseReps

/-- Checks the settings in a fixed order and fills in the defaults. -/
def build (c : Configuration) : Except Failure ScoringPolicy := do
  checkRepeated c.repeated
  let probability := c.probability.getD 1
  checkProbability probability
  let budget := c.budget.getD 10
  checkBudget budget
  let tuningFraction := c.tuningFraction.getD 1
  checkFraction "optimization_rows_percentage" tuningFraction
  let scoringFraction := c.scoringFraction.getD 1
  checkFraction "evaluation_rows_percentage" scoringFraction
  let limits ← match c.limits with
    | some (lower, upper) => do
      checkLimits lower upper
      pure ⟨lower, upper⟩
    | none => pure .finite
  if c.trainingRows.any List.isEmpty then throw .emptyRows
  let some target := c.target | throw (.missingSetting "target")
  return {
    probability, budget, tuningFraction, scoringFraction, limits, target
    tuneWeights := c.tuneWeights.getD true
    rescale := c.rescale.getD true
    keepTuned := c.keepTuned.getD true
    verify := c.verify.getD false
    countPasses := c.countPasses.getD false
    trainingRows := c.trainingRows
    excluded := sortedSet (c.excluded.getD []) }

def ofSettings (settings : List Setting) : Configuration := settings.foldl set {}

end Configuration

end SymbolicFit
