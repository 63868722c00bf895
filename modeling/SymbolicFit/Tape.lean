import SymbolicFit.Primitive
import SymbolicFit.Scratch

/-!
Differentiable formulas as tapes. A tape lists its entries in the order of evaluation, each entry
naming earlier ones by position, so one pass forward gives the values and one pass backward the
derivatives with respect to all parameters.
-/

namespace SymbolicFit

open Scalar

inductive Tape.Entry (α : Type) where
  /-- A component of the parameter vector. -/
  | param (index : Nat)
  /-- A component of the input row. -/
  | input (column : Nat)
  | literal (value : α)
  | unary (op : UnaryOp) (operand : Nat)
  | binary (op : BinaryOp) (left right : Nat)
  | sum (operands : List Nat)

structure Tape (α : Type) where
  entries : Array (Tape.Entry α)
  output : Option Nat

/-- The values and adjoints of the entries of a tape on one row. -/
structure Workspace (α : Type) where
  values : Scratch α
  adjoints : Scratch α

def Workspace.empty {α : Type} : Workspace α := ⟨.empty, .empty⟩

namespace Tape

variable {α : Type}

def empty : Tape α := ⟨#[], none⟩

def size (t : Tape α) : Nat := t.entries.size

/-- Adds an entry, which takes the next position. -/
def push (t : Tape α) (e : Entry α) : Tape α := { t with entries := t.entries.push e }

variable [Scalar α]

/-- The value of an entry; entries that are not evaluated yet count as zero. -/
def entryValue (params inputs : List α) (values : Scratch α) : Entry α → α
  | .param i => params.getD i 0
  | .input c => inputs.getD c 0
  | .literal v => v
  | .unary op a => op.apply (values.getD a 0)
  | .binary op a b => op.apply (values.getD a 0) (values.getD b 0)
  | .sum as => sum (as.map (values.getD · 0))

/-- The values of all entries. -/
def forward (t : Tape α) (params inputs : List α) (values : Scratch α) : Scratch α :=
  t.entries.foldl (fun vs e => vs.push (entryValue params inputs vs e)) values.clear

/-- The value of the output; undefined without one. -/
def outputValue (t : Tape α) (values : Scratch α) : α :=
  match t.output with
  | some out => values.getD out 0
  | none => undefined

def evaluate (t : Tape α) (params inputs : List α) (w : Workspace α) : α × Workspace α :=
  let values := t.forward params inputs w.values
  (t.outputValue values, { w with values })

/-- Passes the adjoint of an entry with value `y` on to its operands, or to the gradient. -/
def propagate (values : Scratch α) (adjoint y : α) (e : Entry α) (s : Scratch α × List α) :
    Scratch α × List α :=
  match e with
  | .param p => (s.1, s.2.modify p (· + adjoint))
  | .input _ | .literal _ => s
  | .unary op a => (s.1.modify a (· + adjoint * op.derivative (values.getD a 0) y), s.2)
  | .binary op a b =>
    let d := op.partials (values.getD a 0) (values.getD b 0)
    ((s.1.modify a (· + adjoint * d.1)).modify b (· + adjoint * d.2), s.2)
  | .sum as => (as.foldl (fun adjoints a => adjoints.modify a (· + adjoint)) s.1, s.2)

/-- Propagates from the first `n` entries, the last of them first; a zero adjoint is skipped. -/
def backward (t : Tape α) (values : Scratch α) : Nat → Scratch α × List α → Scratch α × List α
  | 0, s => s
  | i + 1, s =>
    let adjoint := s.1.getD i 0
    backward t values i <|
      match t.entries[i]? with
      | some e => if adjoint == 0 then s else propagate values adjoint (values.getD i 0) e s
      | none => s

/-- The value of the output and its derivatives, written over the given gradient. -/
def differentiate (t : Tape α) (params inputs gradient : List α) (w : Workspace α) :
    α × List α × Workspace α :=
  let zeros := gradient.map fun _ => 0
  let values := t.forward params inputs w.values
  match t.output with
  | none => (undefined, zeros, { w with values })
  | some out =>
    let seed := (w.adjoints.fill t.size 0).modify out fun _ => 1
    let (adjoints, gradient') := t.backward values t.size (seed, zeros)
    (values.getD out 0, gradient', { values, adjoints })

end Tape

end SymbolicFit
