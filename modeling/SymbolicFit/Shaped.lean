import SymbolicFit.Failure

/-!
Scalars and vectors of items, and how two of them combine element by element. The items are numbers
when a tree is evaluated and tape positions when it is compiled.
-/

namespace SymbolicFit

inductive Shape where
  | scalar
  | vector (length : Nat)
deriving DecidableEq, Repr

namespace Shape

def length : Shape → Nat
  | scalar => 1
  | vector n => n

def isEmpty (s : Shape) : Bool := s.length == 0

def isVector : Shape → Bool
  | scalar => false
  | vector _ => true

end Shape

inductive Shaped (β : Type) where
  | scalar (item : β)
  | vector (items : List β)
deriving DecidableEq

namespace Shaped

variable {β γ δ : Type}

def shape : Shaped β → Shape
  | scalar _ => .scalar
  | vector xs => .vector xs.length

def toList : Shaped β → List β
  | scalar x => [x]
  | vector xs => xs

def length (s : Shaped β) : Nat := s.toList.length

def map (f : β → γ) : Shaped β → Shaped γ
  | scalar x => scalar (f x)
  | vector xs => vector (xs.map f)

def mapM {m : Type → Type} [Monad m] (f : β → m γ) : Shaped β → m (Shaped γ)
  | scalar x => scalar <$> f x
  | vector xs => vector <$> xs.mapM f

/-- The items at `n` positions, a single item repeated. -/
def stretch (n : Nat) : Shaped β → List β
  | scalar x => List.replicate n x
  | vector [x] => List.replicate n x
  | vector xs => xs

/-- Equal lengths agree and a length of one adapts. -/
def commonLength (node left right : Nat) : Except Failure Nat :=
  if left = right then .ok left
  else if left = 1 then .ok right
  else if right = 1 then .ok left
  else .error (.broadcastMismatch node left right)

/-- Pairs the items; the result is a vector as soon as one side is. -/
def broadcast (node : Nat) : Shaped β → Shaped γ → Except Failure (Shaped (β × γ))
  | scalar x, scalar y => .ok (scalar (x, y))
  | a, b => do
    let n ← commonLength node a.length b.length
    return vector ((a.stretch n).zip (b.stretch n))

def zipWith (node : Nat) (f : β → γ → δ) (a : Shaped β) (b : Shaped γ) :
    Except Failure (Shaped δ) :=
  (a.broadcast node b).map (·.map fun p => f p.1 p.2)

end Shaped

end SymbolicFit
