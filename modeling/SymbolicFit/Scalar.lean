/-!
The numbers a model is computed with. Every numeric definition of the library is written once over
`Scalar`; it runs on `Float`, and an exact field is an instance too.
-/

namespace SymbolicFit

/-- Arithmetic, comparisons and elementary functions, without laws. -/
class Scalar (α : Type) extends Zero α, One α, Add α, Sub α, Mul α, Div α, Neg α, LT α, LE α,
    BEq α, NatCast α, IntCast α, OfScientific α where
  decideLT : DecidableLT α
  decideLE : DecidableLE α
  isFinite : α → Bool
  isNaN : α → Bool
  pi : α
  abs : α → α
  sqrt : α → α
  cbrt : α → α
  exp : α → α
  log : α → α
  sin : α → α
  cos : α → α
  tan : α → α
  tanh : α → α
  pow : α → α → α
  /-- The nearest integer, halves away from zero. -/
  round : α → α
  /-- The integer part, clamped to 32 bits; zero when there is none. -/
  toInt32 : α → Int32

namespace Scalar

variable {α : Type} [Scalar α]

instance (a b : α) : Decidable (a < b) := decideLT a b

instance (a b : α) : Decidable (a ≤ b) := decideLE a b

/-- The value of `0 / 0`. -/
def undefined : α := 0 / 0

/-- The smaller number; an operand that is not a number gives way to the other. -/
def lesser (a b : α) : α := if isNaN a then b else if b < a then b else a

/-- The larger number; an operand that is not a number gives way to the other. -/
def greater (a b : α) : α := if isNaN a then b else if a < b then b else a

/-- The sum from left to right, starting at `-0`, the neutral element of signed zeros. -/
def sum (xs : List α) : α := xs.foldl (· + ·) (-0)

def dot (xs ys : List α) : α := sum (List.zipWith (· * ·) xs ys)

/-- `r * x ^ n` by repeated squaring. -/
def mulPow (r x : α) (n : Nat) : α :=
  let r' := if n % 2 = 1 then r * x else r
  if n / 2 = 0 then r' else mulPow r' (x * x) (n / 2)
termination_by n

def zpow (x : α) (n : Int) : α :=
  if n < 0 then 1 / mulPow 1 x n.natAbs else mulPow 1 x n.natAbs

end Scalar

instance : Scalar Float where
  zero := 0.0
  one := 1.0
  natCast := Float.ofNat
  intCast := Float.ofInt
  decideLT := inferInstance
  decideLE := inferInstance
  isFinite := Float.isFinite
  isNaN := Float.isNaN
  pi := 3.141592653589793
  abs := Float.abs
  sqrt := Float.sqrt
  cbrt := Float.cbrt
  exp := Float.exp
  log := Float.log
  sin := Float.sin
  cos := Float.cos
  tan := Float.tan
  tanh := Float.tanh
  pow := Float.pow
  round := Float.round
  toInt32 x := x.toModel.toInt32

end SymbolicFit
