import SymbolicFit.Scalar

/-!
Special functions: the error function by a rational-exponential approximation, the normal density,
integer roots.
-/

namespace SymbolicFit.Special

open Scalar

variable {α : Type} [Scalar α]

/-- Coefficients of the exponent of `erfc`, lowest power of `1 / (1 + |x| / 2)` first. -/
def erfcCoefficients : List α :=
  [1.00002368, 0.37409196, 0.09678418, -0.18628806, 0.27886807, -1.13520398, 1.48851587,
    -0.82215223, 0.17087277]

/-- The complementary error function, with a fractional error below `1.2e-7`. -/
def erfc (x : α) : α :=
  let z := Scalar.abs x
  let t := 1 / (1 + 0.5 * z)
  let exponent := erfcCoefficients.foldr (fun c p => t * (c + p)) 0
  let tail := t * exp (-z * z - 1.26551223 + exponent)
  if 0 ≤ x then tail else 2.0 - tail

def erf (x : α) : α := 1 - erfc x

/-- The derivative of the exact error function, not of the approximation. -/
def erfDerivative (x : α) : α := 2.0 / sqrt pi * exp (-x * x)

def normalDensity (x : α) : α := 1 / sqrt (2.0 * pi) * exp (-(x * x) / 2.0)

def normalDensityDerivative (x : α) : α := -x * normalDensity x

/-- The `n`-th root as a power, so it is undefined below zero. -/
def nthRoot (x : α) (n : Int32) : α := pow x (1 / (n.toInt : α))

end SymbolicFit.Special
