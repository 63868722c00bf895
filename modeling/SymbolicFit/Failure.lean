import SymbolicFit.Decimal

/-!
The causes of failure and their wording.
-/

namespace SymbolicFit

/-- Why a tree could not be fitted or scored, or a configuration not accepted. Nodes are named by
their position in the tree, root first, children from left to right. -/
inductive Failure where
  /-- The symbol cannot be evaluated or differentiated with these arguments. -/
  | unsupportedSymbol (node : Nat) (symbol : String)
  | broadcastMismatch (node left right : Nat)
  /-- The node is not equally long on every row. -/
  | inconsistentVectorLength (node : Nat)
  /-- There is nothing to fit. -/
  | nothingToFit
  | numerical (reason : String)
  | cancelled
  | unknownVariable (name : String)
  | variableTypeMismatch (name expected : String)
  | rowOutOfRange (row : Int) (rows : Nat)
  | columnLengthMismatch (name : String) (expected got : Nat)
  | indexOutOfRange (name : String) (index length : Nat)
  | parameterCountMismatch (expected got : Nat)
  | emptyRows
  | invalidProbability (value : Float)
  | invalidPercentage (parameter : String) (value : Float)
  | invalidIterations (iterations : Nat)
  | invalidLimits (lower upper : Float)
  | repeatedSetting (parameter : String)
  | missingSetting (parameter : String)
deriving DecidableEq

namespace Failure

/-- The tree is kept as it is after any error but cancellation. -/
def isRecoverable : Failure → Bool
  | cancelled => false
  | _ => true

open Decimal (text) in
def message : Failure → String
  | unsupportedSymbol node symbol => s!"Unsupported symbol '{symbol}' at node {node}"
  | broadcastMismatch node left right =>
    s!"Cannot broadcast operands of length {left} and {right} at node {node}"
  | inconsistentVectorLength node => s!"Vector length differs between rows at node {node}"
  | nothingToFit => "Model has no tunable parameters"
  | numerical reason => "Numerical failure: " ++ reason
  | cancelled => "Optimization was cancelled"
  | unknownVariable name => "Unknown variable: " ++ name
  | variableTypeMismatch name expected =>
    "Variable '" ++ name ++ "' is not of type " ++ expected
  | rowOutOfRange row rows => s!"Row {row} is out of range for dataset with {rows} rows"
  | columnLengthMismatch name expected got =>
    "Column '" ++ name ++ s!"' has {got} rows, dataset has {expected}"
  | indexOutOfRange name index length =>
    s!"Index {index} is out of range for variable '" ++ name ++ s!"' of length {length}"
  | parameterCountMismatch expected got =>
    s!"Parameter count mismatch: expected {expected}, got {got}"
  | emptyRows => "No rows selected"
  | invalidProbability value => "Invalid probability: " ++ text value ++ " (must be in [0, 1])"
  | invalidPercentage parameter value =>
    "Invalid " ++ parameter ++ ": " ++ text value ++ " (must be > 0 and <= 1)"
  | invalidIterations n => s!"Invalid iterations: {n} (must be in [0, 10000])"
  | invalidLimits lower upper =>
    "Invalid estimation limits: [" ++ text lower ++ ", " ++ text upper ++
      "] (lower must not exceed upper)"
  | repeatedSetting parameter =>
    "Parameter '" ++ parameter ++
      "' was set multiple times. Each parameter can only be configured once."
  | missingSetting parameter => "Required parameter '" ++ parameter ++ "' was not set"

end Failure

end SymbolicFit
