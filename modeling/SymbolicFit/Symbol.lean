import SymbolicFit.Primitive

/-!
The symbols of expression trees.
-/

namespace SymbolicFit

/-- Operations folded from the left over one or more arguments. -/
inductive FoldOp where
  | add | sub | mul | div | min | max | and | or
deriving DecidableEq, Repr

/-- Operations on exactly two arguments. -/
inductive PairOp where
  | quotient | greater | less
deriving DecidableEq, Repr

/-- Summaries of the elements of a vector. -/
inductive Aggregate where
  | sum | mean | deviation | variance | length
deriving DecidableEq, Repr

/-- What a node of an expression tree stands for. Leaves carry their own numbers. -/
inductive Symbol (α : Type) where
  /-- A number that fitting may change. -/
  | constant (value : α)
  /-- A number that stays as it is. -/
  | fixed (value : α)
  /-- A weighted column, read `lag` rows away; `index` picks an element of a vector column. -/
  | column (name : String) (weight : α) (lag : Int) (index : Option Nat)
  /-- A weight on the rows of one category. -/
  | indicator (name category : String) (weight : α)
  /-- One weight for each category. -/
  | factor (name : String) (weights : List (String × α))
  | fold (op : FoldOp)
  | pair (op : PairOp)
  | elementary (f : Elementary)
  | not
  /-- A power whose exponent, the second child, is an integer. -/
  | power
  /-- A root whose order, the second child, is an integer. -/
  | root
  | aggregate (a : Aggregate)
  /-- The wrapper around a whole expression. -/
  | program
  | conditional
  /-- A symbol that only has a name here. -/
  | unknown (name : String)

namespace Symbol

variable {α : Type}

def name : Symbol α → String
  | constant _ => "Constant"
  | fixed _ => "FixedConstant"
  | column .. => "Variable"
  | indicator .. => "BinaryFactorVariable"
  | factor .. => "FactorVariable"
  | fold .add => "Addition"
  | fold .sub => "Subtraction"
  | fold .mul => "Multiplication"
  | fold .div => "Division"
  | fold .min => "Min"
  | fold .max => "Max"
  | fold .and => "And"
  | fold .or => "Or"
  | pair .quotient => "AnalyticQuotient"
  | pair .greater => "GreaterThan"
  | pair .less => "LessThan"
  | elementary .log => "Logarithm"
  | elementary .exp => "Exponential"
  | elementary .sqrt => "SquareRoot"
  | elementary .cbrt => "CubeRoot"
  | elementary .square => "Square"
  | elementary .cube => "Cube"
  | elementary .sin => "Sine"
  | elementary .cos => "Cosine"
  | elementary .tan => "Tangent"
  | elementary .tanh => "HyperbolicTangent"
  | elementary .erf => "Erf"
  | elementary .normal => "Norm"
  | elementary .abs => "Absolute"
  | not => "Not"
  | power => "Power"
  | root => "Root"
  | aggregate .sum => "Sum"
  | aggregate .mean => "Mean"
  | aggregate .deviation => "StandardDeviation"
  | aggregate .variance => "Variance"
  | aggregate .length => "Length"
  | program => "ProgramRoot"
  | conditional => "IfThenElse"
  | unknown name => name

def isLeaf : Symbol α → Bool
  | constant _ | fixed _ | column .. | indicator .. | factor .. => true
  | _ => false

/-- The second of two children is an exponent. -/
def takesExponent : Symbol α → Bool
  | power | root => true
  | _ => false

/-- The numbers a leaf carries. -/
def numbers : Symbol α → List α
  | constant v | fixed v => [v]
  | column _ w _ _ | indicator _ _ w => [w]
  | factor _ ws => ws.map (·.2)
  | _ => []

section

variable [Scalar α]

/-- Equality of symbols by the equality of their numbers. -/
def same : Symbol α → Symbol α → Bool
  | constant v, constant v' => v == v'
  | fixed v, fixed v' => v == v'
  | column n w l i, column n' w' l' i' => n == n' && w == w' && l == l' && i == i'
  | indicator n c w, indicator n' c' w' => n == n' && c == c' && w == w'
  | factor n ws, factor n' ws' =>
    n == n' && ws.length == ws'.length && (ws.zip ws').all fun p => p.1.1 == p.2.1 && p.1.2 == p.2.2
  | fold op, fold op' => op == op'
  | pair op, pair op' => op == op'
  | elementary f, elementary f' => f == f'
  | not, not | power, power | root, root | program, program | conditional, conditional => true
  | aggregate a, aggregate a' => a == a'
  | unknown n, unknown n' => n == n'
  | _, _ => false

end

end Symbol

end SymbolicFit
