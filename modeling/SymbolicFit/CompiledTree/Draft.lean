import SymbolicFit.CompiledTree
import SymbolicFit.FitOptions
import SymbolicFit.Shaped

/-!
Writing a tape entry by entry. Every action appends to a draft, so the entries it has named stay
where they are.
-/

namespace SymbolicFit

open Scalar

/-- What has been compiled so far. -/
structure Draft (α : Type) where
  entries : Array (Tape.Entry α)
  parameters : List (Parameter α)
  inputs : List ColumnRead

abbrev Drafting (α : Type) := StateT (Draft α) (Except Failure)

variable {α : Type}

def Draft.empty : Draft α := ⟨#[], [], []⟩

namespace Drafting

/-- Adds an entry and returns its position. -/
def emit (e : Tape.Entry α) : Drafting α Nat := fun d =>
  .ok (d.entries.size, { d with entries := d.entries.push e })

def parameter (node : Nat) (role : ParameterRole) (initial : α) : Drafting α Nat := do
  let index := (← get).parameters.length
  modify fun d => { d with parameters := d.parameters ++ [⟨node, role, initial⟩] }
  emit (.param index)

/-- Reads an input; equal reads share one. -/
def input (r : ColumnRead) : Drafting α Nat := do
  let inputs := (← get).inputs
  match inputs.idxOf? r with
  | some c => emit (.input c)
  | none =>
    modify fun d => { d with inputs := d.inputs ++ [r] }
    emit (.input inputs.length)

def unary (op : UnaryOp) (x : Nat) : Drafting α Nat := emit (.unary op x)

def binary (op : BinaryOp) (x y : Nat) : Drafting α Nat := emit (.binary op x y)

def weight (o : FitOptions) (id : Nat) (role : ParameterRole) (value : α) : Drafting α Nat :=
  if o.tunesWeights id then parameter id role value else emit (.literal value)

/-- An input times a weight. -/
def weighted (r : ColumnRead) (w : Nat) : Drafting α Nat := do
  let x ← input r
  binary .mul x w

def unsupported {β : Type} (id : Nat) (s : Symbol α) : Drafting α β :=
  throw (.unsupportedSymbol id s.name)

/-- Applies an operation element by element. -/
def combine (id : Nat) (op : BinaryOp) (a b : Shaped Nat) : Drafting α (Shaped Nat) := do
  let pairs ← StateT.lift (a.broadcast id b)
  pairs.mapM fun p => binary op p.1 p.2

section

variable [Scalar α]

def mean (xs : List Nat) : Drafting α Nat := do
  let total ← emit (.sum xs)
  let scale ← emit (.literal (1 / (xs.length : α)))
  binary .mul total scale

/-- The sample variance; undefined for fewer than two elements. -/
def variance (xs : List Nat) : Drafting α Nat := do
  if xs.length < 2 then emit (.literal undefined)
  else
    let m ← mean xs
    let squares ← xs.mapM fun x => do
      let d ← binary .sub x m
      unary (.elementary .square) d
    let total ← emit (.sum squares)
    let scale ← emit (.literal (1 / ((xs.length - 1 : Nat) : α)))
    binary .mul total scale

def aggregate : Aggregate → List Nat → Drafting α Nat
  | .sum, xs => emit (.sum xs)
  | .mean, xs => mean xs
  | .variance, xs => variance xs
  | .deviation, xs => do
    let v ← variance xs
    unary (.elementary .sqrt) v
  | .length, xs => emit (.literal (xs.length : α))

end

end Drafting

end SymbolicFit
