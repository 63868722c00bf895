import SymbolicFit.CompiledTree.Draft
import SymbolicFit.Trace

/-!
Compilation of a tree to a tape. Numbers that fitting may change become parameters, columns become
inputs, and a vector becomes a list of entries, one for each element.
-/

namespace SymbolicFit

open Scalar

variable {α : Type}

/-- The operation that folds the arguments, and the one for a single argument. -/
def FoldOp.primitive? : FoldOp → Option (BinaryOp × Option UnaryOp)
  | add => some (.add, none)
  | sub => some (.sub, some .neg)
  | mul => some (.mul, none)
  | div => some (.div, some .recip)
  | _ => none

namespace Symbol

open Drafting

/-- Compiles a leaf: its numbers are parameters or literals, its columns inputs. A column that the
trace found to be a vector gives one entry for each element. -/
def compileLeaf? (o : FitOptions) (shape : Shape) (id : Nat) :
    Symbol α → Option (Drafting α (Shaped Nat))
  | constant v =>
    some <| .scalar <$> if o.tunes id then parameter id .constant v else emit (.literal v)
  | fixed v => some <| .scalar <$> emit (.literal v)
  | column name w lag index => some do
    let w ← weight o id .columnWeight w
    match index, shape with
    | none, .vector n =>
      .vector <$> (List.range n).mapM fun k => weighted ⟨name, none, lag, some k⟩ w
    | _, _ => .scalar <$> weighted ⟨name, none, lag, index⟩ w
  | indicator name category w => some do
    let w ← weight o id .columnWeight w
    .scalar <$> weighted ⟨name, some category, 0, none⟩ w
  | factor name weights => some do
    let addends ← weights.mapM fun cw => do
      let w ← weight o id (.categoryWeight cw.1) cw.2
      weighted ⟨name, some cw.1, 0, none⟩ w
    .scalar <$> emit (.sum addends)
  | _ => none

/-- The symbol can be compiled with this many children, the first of which has this shape. -/
def accepts (shape : Shape) (count : Nat) : Symbol α → Bool
  | fold op => op.primitive?.isSome && count != 0
  | pair .quotient | power | root => count == 2
  | elementary _ | program => count == 1
  | aggregate _ => count == 1 && shape.isVector
  | _ => false

section

variable [Scalar α]

/-- A number as an exponent: an integer of at most 31 bits. -/
def integerExponent? (v : α) : Option Int32 :=
  let n := toInt32 v
  if (n.toInt : α) == v ∧ n.toInt.natAbs ≤ 2147483647 then some n else none

/-- The power or root of an operation whose second child is a childless number. -/
def exponentOp? : Symbol α → Tree α → Option UnaryOp
  | power, .node (constant v) [] | power, .node (fixed v) [] => (integerExponent? v).map .power
  | root, .node (constant v) [] | root, .node (fixed v) [] =>
    (integerExponent? v).bind fun n => if n = 0 then none else some (.root n)
  | _, _ => none

/-- Compiles an operation on compiled children. -/
def assemble (id : Nat) (s : Symbol α) (args : List (Shaped Nat)) : Drafting α (Shaped Nat) :=
  match s, args with
  | fold op, a :: rest =>
    match op.primitive?, rest with
    | some (_, none), [] => pure a
    | some (_, some single), [] => a.mapM (unary single)
    | some (binary, _), rest => rest.foldlM (Drafting.combine id binary) a
    | none, _ => unsupported id s
  | pair .quotient, [a, b] => Drafting.combine id .quotient a b
  | elementary f, [a] => a.mapM (unary (.elementary f))
  | aggregate g, [a] => .scalar <$> Drafting.aggregate g a.toList
  | program, [a] => pure a
  | _, _ => unsupported id s

end

end Symbol

namespace Trace

/-- The shape of a node; nodes that were not traced count as scalars. -/
def shapeOf (trace : Option Trace) (id : Nat) : Shape :=
  (trace.bind (·.shape? id)).getD .scalar

end Trace

namespace Tree

variable [Scalar α]

mutual

/-- Compiles a tree at position `id`. -/
def compileAt (o : FitOptions) (trace : Option Trace) (id : Nat) :
    Tree α → Drafting α (Shaped Nat)
  | node s cs =>
    match s.compileLeaf? o (Trace.shapeOf trace id) id with
    | some entries => entries
    | none =>
      if s.accepts (Trace.shapeOf trace (id + 1)) cs.length then
        match s.takesExponent, cs with
        | true, [base, exponent] => do
          let x ← compileAt o trace (id + 1) base
          match s.exponentOp? exponent with
          | some op => x.mapM (Drafting.unary op)
          | none => Drafting.unsupported id s
        | _, cs => do
          let args ← compileAllAt o trace (id + 1) cs
          s.assemble id args
      else Drafting.unsupported id s

def compileAllAt (o : FitOptions) (trace : Option Trace) (id : Nat) :
    List (Tree α) → Drafting α (List (Shaped Nat))
  | [] => pure []
  | t :: ts => do
    let x ← compileAt o trace id t
    let xs ← compileAllAt o trace (id + t.reach) ts
    return x :: xs

end

/-- Compiles a tree to a single output, rescaled if wanted. -/
def compileOutput (t : Tree α) (o : FitOptions) (trace : Option Trace) : Drafting α Nat := do
  if o.rescale then
    let offset ← Drafting.parameter 0 .offset 0
    let factor ← Drafting.parameter 0 .factor 1
    let x ← scalar (← t.compileAt o trace 0)
    let scaled ← Drafting.binary .mul factor x
    Drafting.binary .add scaled offset
  else scalar (← t.compileAt o trace 0)
where
  scalar : Shaped Nat → Drafting α Nat
    | .scalar x => pure x
    | .vector xs => throw (.broadcastMismatch 0 xs.length 1)

def compile (t : Tree α) (o : FitOptions) (trace : Option Trace) :
    Except Failure (CompiledTree α) := do
  let (output, d) ← (t.compileOutput o trace).run .empty
  return ⟨⟨d.entries, some output⟩, d.parameters, d.inputs, o.rescale⟩

end Tree

end SymbolicFit
