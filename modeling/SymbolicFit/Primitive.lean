import SymbolicFit.Special

/-!
The differentiable operations on one and two numbers, each with its closed-form derivative.
-/

namespace SymbolicFit

open Scalar

variable {α : Type} [Scalar α]

inductive Elementary where
  | log | exp | sqrt | cbrt | square | cube | sin | cos | tan | tanh | erf | normal | abs
deriving DecidableEq, Repr

namespace Elementary

def apply : Elementary → α → α
  | log, x => Scalar.log x
  | exp, x => Scalar.exp x
  | sqrt, x => Scalar.sqrt x
  | cbrt, x => Scalar.cbrt x
  | square, x => x * x
  | cube, x => x * x * x
  | sin, x => Scalar.sin x
  | cos, x => Scalar.cos x
  | tan, x => Scalar.tan x
  | tanh, x => Scalar.tanh x
  | erf, x => Special.erf x
  | normal, x => Special.normalDensity x
  | abs, x => Scalar.abs x

/-- The derivative at `x`, given the value `y` there. -/
def derivative : Elementary → α → α → α
  | log, x, _ => 1 / x
  | exp, _, y => y
  | sqrt, _, y => 0.5 / y
  | cbrt, _, y => 1 / (3.0 * y * y)
  | square, x, _ => 2.0 * x
  | cube, x, _ => 3.0 * x * x
  | sin, x, _ => Scalar.cos x
  | cos, x, _ => -Scalar.sin x
  | tan, _, y => 1 + y * y
  | tanh, _, y => 1 - y * y
  | erf, x, _ => Special.erfDerivative x
  | normal, x, y => -x * y
  | abs, x, _ => if x == 0 then 0 else if x < 0 then -1 else if 0 < x then 1 else x

end Elementary

inductive UnaryOp where
  | neg
  | recip
  | elementary (f : Elementary)
  /-- The power with an integer exponent. -/
  | power (n : Int32)
  /-- The root of integer order. -/
  | root (n : Int32)
deriving DecidableEq, Repr

namespace UnaryOp

def apply : UnaryOp → α → α
  | neg, x => -x
  | recip, x => 1 / x
  | elementary f, x => f.apply x
  | power n, x => zpow x n.toInt
  | root n, x => Special.nthRoot x n

/-- The derivative at `x`, given the value `y` there. Exponents are lowered in 32-bit arithmetic,
where the smallest one wraps around to the largest. -/
def derivative : UnaryOp → α → α → α
  | neg, _, _ => -1
  | recip, x, _ => -1 / (x * x)
  | elementary f, x, y => f.derivative x y
  | power n, x, _ => if n = 0 then 0 else (n.toInt : α) * zpow x (n - 1).toInt
  | root n, x, y => y / ((n.toInt : α) * x)

end UnaryOp

inductive BinaryOp where
  | add
  | sub
  | mul
  | div
  /-- The analytic quotient `a / √(1 + b²)`, defined everywhere. -/
  | quotient
deriving DecidableEq, Repr

namespace BinaryOp

def apply : BinaryOp → α → α → α
  | add, a, b => a + b
  | sub, a, b => a - b
  | mul, a, b => a * b
  | div, a, b => a / b
  | quotient, a, b => a / sqrt (1 + b * b)

/-- The derivatives with respect to the first and the second operand. -/
def partials : BinaryOp → α → α → α × α
  | add, _, _ => (1, 1)
  | sub, _, _ => (1, -1)
  | mul, a, b => (b, a)
  | div, a, b => (1 / b, -a / (b * b))
  | quotient, a, b =>
    let s := sqrt (1 + b * b)
    (1 / s, -a * b / (s * s * s))

end BinaryOp

end SymbolicFit
