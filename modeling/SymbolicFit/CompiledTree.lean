import SymbolicFit.Tape

/-!
A compiled tree: its tape, and where each parameter and each input of the tape comes from.
-/

namespace SymbolicFit

inductive ParameterRole where
  | constant
  | columnWeight
  | categoryWeight (category : String)
  /-- The offset of a rescaling. -/
  | offset
  /-- The factor of a rescaling. -/
  | factor
deriving DecidableEq, Repr

/-- A number that fitting may change, and the node it belongs to. -/
structure Parameter (α : Type) where
  node : Nat
  role : ParameterRole
  initial : α

/-- What an input reads from a row: a column or, with a category, the indicator of the category. -/
structure ColumnRead where
  name : String
  category : Option String
  lag : Int
  index : Option Nat
deriving DecidableEq, Repr

structure CompiledTree (α : Type) where
  tape : Tape α
  parameters : List (Parameter α)
  inputs : List ColumnRead
  /-- The first two parameters rescale the value of the tree. -/
  rescaled : Bool

namespace CompiledTree

variable {α : Type}

/-- The parameter vector that leaves the tree as it is. -/
def initial (c : CompiledTree α) : List α := c.parameters.map (·.initial)

def parameterCount (c : CompiledTree α) : Nat := c.parameters.length

/-- There is nothing to fit. -/
def isFixed (c : CompiledTree α) : Bool := c.parameters.isEmpty

end CompiledTree

end SymbolicFit
