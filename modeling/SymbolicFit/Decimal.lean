/-!
Decimal text of floating-point numbers, chosen by exact integer arithmetic.
-/

namespace SymbolicFit

/-- The number `digits * 10 ^ exponent`, up to its sign. -/
structure Decimal where
  digits : Nat
  exponent : Int
deriving DecidableEq, Repr

/-- The number `significand * 2 ^ exponent`, up to its sign. -/
structure Binary where
  significand : Nat
  exponent : Int
  /-- The gap to the next smaller number is half the gap to the next larger one. -/
  narrowBelow : Bool
deriving DecidableEq, Repr

namespace Binary

/-- Reads the magnitude off the bits of a finite number. -/
def ofFloat (x : Float) : Binary :=
  let bits : Nat := x.toBits.toNat
  let fraction : Nat := bits % (1 <<< 52)
  let order : Nat := (bits >>> 52) % (1 <<< 11)
  if order = 0 then ⟨fraction, -1074, false⟩
  else ⟨(1 <<< 52) + fraction, (order : Int) - 1075, fraction == 0 && order != 1⟩

def numerator (b : Binary) : Nat := b.significand <<< b.exponent.toNat

def denominator (b : Binary) : Nat := 1 <<< (-b.exponent).toNat

end Binary

namespace Decimal

def digitCount (n : Nat) : Nat := (Nat.toDigits 10 n).length

/-- The `k` with `10 ^ (k - 1) ≤ a / b < 10 ^ k`. -/
def order (a b : Nat) : Int :=
  if b ≤ a then digitCount (a / b) else 1 - (digitCount ((b - 1) / a) : Int)

/-- Drops trailing zeros. -/
def trim (digits : Nat) (exponent : Int) : Decimal :=
  if h : digits ≠ 0 ∧ digits % 10 = 0 then trim (digits / 10) (exponent + 1)
  else ⟨digits, exponent⟩
termination_by digits
decreasing_by omega

/-- The quotient rounded to the nearest integer, ties to even. -/
def roundDiv (a b : Nat) : Nat :=
  let q := a / b
  let r := 2 * (a % b)
  if r < b ∨ r = b ∧ q % 2 = 0 then q else q + 1

/-- The nearest number of `n` significant digits, ties to even. -/
def significant (n : Nat) (x : Binary) : Decimal :=
  if x.significand = 0 then ⟨0, 0⟩ else
  let e := order x.numerator x.denominator - n
  trim (roundDiv (x.numerator * Nat.pow 10 (-e).toNat) (x.denominator * Nat.pow 10 e.toNat)) e

/-- The nearest decimal of `n` digits among those that read back as `x`, if there is one; of two
equally near ones the larger. -/
def readsBack? (x : Binary) (n : Nat) : Option Decimal :=
  let e := order x.numerator x.denominator - n
  let unit := Nat.pow 10 (-e).toNat <<< (x.exponent - 2).toNat
  let step := Nat.pow 10 e.toNat <<< (2 - x.exponent).toNat
  let value := 4 * x.significand * unit
  let low := (4 * x.significand - if x.narrowBelow then 1 else 2) * unit
  let high := (4 * x.significand + 2) * unit
  let inside (c : Nat) : Bool :=
    if x.significand % 2 = 0 then low ≤ c * step && c * step ≤ high
    else low < c * step && c * step < high
  let below := value / step
  let above := below + 1
  match inside below, inside above with
  | true, true =>
    some (trim (if value - below * step < above * step - value then below else above) e)
  | true, false => some (trim below e)
  | false, true => some (trim above e)
  | false, false => none

/-- The decimal of fewest digits that reads back as `x`; seventeen digits are always enough. -/
def shortest (x : Binary) : Decimal :=
  if x.significand = 0 then ⟨0, 0⟩ else
  ((List.range 17).findSome? fun i => readsBack? x (i + 1)).getD (significant 17 x)

/-- Digits with a point, never an exponent. -/
def positional (d : Decimal) : String :=
  let ds := Nat.toDigits 10 d.digits
  if 0 ≤ d.exponent then String.ofList (ds ++ List.replicate d.exponent.toNat '0')
  else
    let places := (-d.exponent).toNat
    let padded := List.replicate (places + 1 - ds.length) '0' ++ ds
    let whole := padded.length - places
    String.ofList (padded.take whole ++ '.' :: padded.drop whole)

/-- A number as messages show it: the fewest digits that read back, `-0` for negative zero. -/
def text (x : Float) : String :=
  let sign := if x.toBits ≥ 0x8000000000000000 then "-" else ""
  if x.isNaN then "NaN"
  else if x.isInf then sign ++ "inf"
  else sign ++ positional (shortest (Binary.ofFloat x))

end Decimal

end SymbolicFit
