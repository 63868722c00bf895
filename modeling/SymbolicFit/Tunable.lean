import SymbolicFit.Failure
import SymbolicFit.FitOptions
import SymbolicFit.Tree

/-!
The numbers of a tree that fitting may change, read and written in node order. An exponent is never
one of them.
-/

namespace SymbolicFit

variable {α : Type}

namespace Symbol

/-- The tunable numbers of a node. -/
def tunable (o : FitOptions) (id : Nat) : Symbol α → List α
  | constant v => if o.tunes id then [v] else []
  | column _ w _ _ | indicator _ _ w => if o.tunesWeights id then [w] else []
  | factor _ ws => if o.tunesWeights id then ws.map (·.2) else []
  | _ => []

/-- Replaces the weights of the leading categories and returns the numbers left over. -/
def refill : List (String × α) → List α → List (String × α) × List α
  | cw :: ws, p :: ps =>
    let (ws', rest) := refill ws ps
    ((cw.1, p) :: ws', rest)
  | ws, ps => (ws, ps)

/-- Takes the tunable numbers of a node from the front of a list. -/
def assign (o : FitOptions) (id : Nat) : Symbol α → List α → Symbol α × List α
  | constant v, ps =>
    match o.tunes id, ps with
    | true, p :: rest => (constant p, rest)
    | _, _ => (constant v, ps)
  | column name w lag index, ps =>
    match o.tunesWeights id, ps with
    | true, p :: rest => (column name p lag index, rest)
    | _, _ => (column name w lag index, ps)
  | indicator name category w, ps =>
    match o.tunesWeights id, ps with
    | true, p :: rest => (indicator name category p, rest)
    | _, _ => (indicator name category w, ps)
  | factor name ws, ps =>
    if o.tunesWeights id then
      let (ws', rest) := refill ws ps
      (factor name ws', rest)
    else (factor name ws, ps)
  | s, ps => (s, ps)

end Symbol

namespace Tree

mutual

/-- The tunable numbers of a tree at position `id`. -/
def tunable (o : FitOptions) (id : Nat) : Tree α → List α
  | node s cs =>
    s.tunable o id ++
      match s.takesExponent, cs with
      | true, [base, _] => tunable o (id + 1) base
      | _, cs => tunableAmong o (id + 1) cs

def tunableAmong (o : FitOptions) (id : Nat) : List (Tree α) → List α
  | [] => []
  | t :: ts => tunable o id t ++ tunableAmong o (id + t.size) ts

end

mutual

/-- Takes the tunable numbers of a tree at position `id` from the front of a list. -/
def assign (o : FitOptions) (id : Nat) : Tree α → List α → Tree α × List α
  | node s cs, ps =>
    let (s', ps) := s.assign o id ps
    match s.takesExponent, cs with
    | true, [base, exponent] =>
      let (base', ps) := assign o (id + 1) base ps
      (node s' [base', exponent], ps)
    | _, cs =>
      let (cs', ps) := assignAmong o (id + 1) cs ps
      (node s' cs', ps)

def assignAmong (o : FitOptions) (id : Nat) : List (Tree α) → List α → List (Tree α) × List α
  | [], ps => ([], ps)
  | t :: ts, ps =>
    let (t', ps) := assign o id t ps
    let (ts', ps) := assignAmong o (id + t.size) ts ps
    (t' :: ts', ps)

end

def tunableCount (t : Tree α) (o : FitOptions) : Nat := (t.tunable o 0).length

/-- Writes a parameter vector into the tunable numbers, leaving out the parameters of a rescaling,
and returns how many parameters were used. -/
def withParameters (t : Tree α) (o : FitOptions) (params : List α) :
    Except Failure (Tree α × Nat) :=
  let expected := o.offset + t.tunableCount o
  if params.length = expected then
    let (t', rest) := t.assign o 0 (params.drop o.offset)
    .ok (t', params.length - rest.length)
  else .error (.parameterCountMismatch expected params.length)

end Tree

/-- The rescaling `factor * f(x) + offset` around a tree. -/
structure Rescaling (α : Type) where
  factor : α
  offset : α

/-- The first parameter is the offset, the second the factor. -/
def Rescaling.ofParameters? : List α → Option (Rescaling α)
  | offset :: factor :: _ => some ⟨factor, offset⟩
  | _ => none

end SymbolicFit
