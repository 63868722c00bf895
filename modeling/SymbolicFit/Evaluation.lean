import SymbolicFit.Dataset
import SymbolicFit.Shaped
import SymbolicFit.Tree

/-!
The value of a tree on a row of a dataset. Operations work element by element on vectors, and a
single number adapts to a vector's length.
-/

namespace SymbolicFit

open Scalar

variable {α : Type} [Scalar α]

/-- Truth as a number: `1` or `-1`. -/
def truthValue (b : Bool) : α := if b then 1 else -1

/-- The variance with `n - 1` in the denominator; undefined for fewer than two values. -/
def sampleVariance (xs : List α) : α :=
  if xs.length < 2 then undefined
  else
    let mean := sum xs / (xs.length : α)
    sum (xs.map fun x => (x - mean) * (x - mean)) / ((xs.length - 1 : Nat) : α)

namespace FoldOp

def apply : FoldOp → α → α → α
  | add, a, b => a + b
  | sub, a, b => a - b
  | mul, a, b => a * b
  | div, a, b => a / b
  | min, a, b => lesser a b
  | max, a, b => greater a b
  | and, a, b => truthValue (0 < a && 0 < b)
  | or, a, b => truthValue (0 < a || 0 < b)

/-- The value on a single argument. -/
def single : FoldOp → α → α
  | sub, x => -x
  | div, x => 1 / x
  | and, x | or, x => truthValue (0 < x)
  | _, x => x

end FoldOp

def PairOp.apply : PairOp → α → α → α
  | quotient, a, b => a / sqrt (1 + b * b)
  | greater, a, b => truthValue (b < a)
  | less, a, b => truthValue (a < b)

def Aggregate.apply : Aggregate → List α → α
  | sum, xs => Scalar.sum xs
  | mean, xs => Scalar.sum xs / (xs.length : α)
  | variance, xs => sampleVariance xs
  | deviation, xs => sqrt (sampleVariance xs)
  | length, xs => (xs.length : α)

namespace Symbol

/-- A weighted column at a row. -/
def readColumn (d : Dataset α) (row : Nat) (name : String) (weight : α) (lag : Int)
    (index : Option Nat) : Except Failure (Shaped α) := do
  let r ← d.laggedRow row lag
  match d.typeOf? name with
  | some .number => return .scalar (weight * (← d.number name r))
  | some .vector =>
    let xs ← d.vector name r
    match index with
    | some i => return .scalar (weight * (← Dataset.element name xs i))
    | none => return .vector (xs.map (weight * ·))
  | some .label => .error (.variableTypeMismatch name ColumnType.number.name)
  | none => .error (.unknownVariable name)

/-- The value of a symbol whose children play no part. -/
def leaf? (d : Dataset α) (row id : Nat) : Symbol α → Option (Except Failure (Shaped α))
  | constant v | fixed v => some (.ok (.scalar v))
  | column name weight lag index => some (readColumn d row name weight lag index)
  | indicator name category weight => some do
    let label ← d.label name row
    return .scalar (if label = category then weight else 0)
  | factor name weights => some do
    let label ← d.label name row
    return .scalar (((weights.find? (·.1 = label)).map (·.2)).getD 0)
  | unknown name => some (.error (.unsupportedSymbol id name))
  | _ => none

/-- The value of an operation on the values of its children. -/
def combine (id : Nat) : Symbol α → List (Shaped α) → Except Failure (Shaped α)
  | fold op, [a] => .ok (a.map op.single)
  | fold op, a :: rest => rest.foldlM (Shaped.zipWith id op.apply) a
  | pair op, [a, b] => Shaped.zipWith id op.apply a b
  | elementary f, [a] => .ok (a.map f.apply)
  | not, [a] => .ok (a.map fun x => truthValue (x ≤ 0))
  | power, [a, .scalar n] => .ok (a.map fun x => pow x (Scalar.round n))
  | root, [a, .scalar n] => .ok (a.map fun x => Special.nthRoot x (toInt32 (Scalar.round n)))
  | aggregate g, [a] => .ok (.scalar (g.apply a.toList))
  | program, [a] => .ok a
  | conditional, [c, a, b] => do
    let ca ← c.broadcast id a
    let cab ← ca.broadcast id b
    return cab.map fun p => if 0 < p.1.1 then p.1.2 else p.2
  | s, _ => .error (.unsupportedSymbol id s.name)

end Symbol

namespace Tree

mutual

/-- The value of a tree at position `id`, and the shapes of its evaluated nodes in order. -/
def evaluateAt (d : Dataset α) (row id : Nat) : Tree α → Except Failure (Shaped α × List Shape)
  | node s cs =>
    match s.leaf? d row id with
    | some value => do
      let v ← value
      return (v, [v.shape])
    | none => do
      let (vs, shapes) ← evaluateAllAt d row (id + 1) cs
      let v ← s.combine id vs
      return (v, v.shape :: shapes)

def evaluateAllAt (d : Dataset α) (row id : Nat) :
    List (Tree α) → Except Failure (List (Shaped α) × List Shape)
  | [] => .ok ([], [])
  | t :: ts => do
    let (v, shapes) ← evaluateAt d row id t
    let (vs, shapes') ← evaluateAllAt d row (id + t.reach) ts
    return (v :: vs, shapes ++ shapes')

end

/-- The value on one row, which has to be a scalar. -/
def valueAt (t : Tree α) (d : Dataset α) (row : Nat) : Except Failure α := do
  match (← t.evaluateAt d row 0).1 with
  | .scalar x => return x
  | .vector xs => .error (.broadcastMismatch 0 xs.length 1)

def values (t : Tree α) (d : Dataset α) (rows : List Nat) : Except Failure (List α) :=
  rows.mapM (t.valueAt d)

/-- Some leaf reads a whole vector column. -/
def readsWholeVectors (t : Tree α) (d : Dataset α) : Bool :=
  t.nodes.any fun n =>
    match n.symbol with
    | .column name _ _ none => d.hasType name .vector
    | _ => false

end Tree

end SymbolicFit
