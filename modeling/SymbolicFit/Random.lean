import SymbolicFit.Sampling

/-!
Sources of random words, and draws made from them.
-/

namespace SymbolicFit

class RandomSource (γ : Type) where
  next : StateM γ UInt64

/-- A generator that adds a constant to its state and mixes the bits of the sum. -/
structure SplitMix where
  state : UInt64
deriving DecidableEq

namespace SplitMix

def mix (s : UInt64) : UInt64 :=
  let z := (s ^^^ (s >>> 30)) * 0xBF58476D1CE4E5B9
  let z := (z ^^^ (z >>> 27)) * 0x94D049BB133111EB
  z ^^^ (z >>> 31)

def next : StateM SplitMix UInt64 := fun g =>
  let s := g.state + 0x9E3779B97F4A7C15
  (mix s, ⟨s⟩)

instance : RandomSource SplitMix := ⟨next⟩

end SplitMix

variable {γ : Type} [RandomSource γ]

namespace Random

/-- The low half of a word. -/
def nextHalf : StateM γ Nat := do return (← RandomSource.next).toNat % UInt32.size

/-- A multiple of `2 ^ -53` in the unit interval. -/
def uniform : StateM γ Float := do
  return ((← RandomSource.next) >>> 11).toFloat / 9007199254740992.0

/-- A number from `low` to `high`, taken from the high part of a product. A second half word
corrects the bias of the first one. -/
def between (low high : Nat) : StateM γ Nat := do
  let n := high - low + 1
  let product := (← nextHalf) * n
  let result := product / UInt32.size
  let rest := product % UInt32.size
  if rest + n > UInt32.size then
    let carry := (← nextHalf) * n / UInt32.size
    return low + (if rest + carry ≥ UInt32.size then result + 1 else result)
  else return low + result

end Random

namespace Sampling

/-- Adds one position below `j + 1` to a selection of positions below `j`. -/
def extend (selected : List Nat) (j : Nat) : StateM γ (List Nat) := do
  let t ← Random.between 0 j
  return (if t ∈ selected then selected.replace t j else selected) ++ [t]

/-- `amount` positions below `length`, by extending a selection one bound at a time. -/
def byExtension (length amount : Nat) : StateM γ (List Nat) :=
  (List.range' (length - amount) amount).foldlM extend []

/-- `amount` positions below `length`, by shuffling the front of all positions. -/
def byShuffle (length amount : Nat) : StateM γ (List Nat) := do
  let shuffled ← (List.range amount).foldlM (fun (a : Array Nat) i => do
    let j ← Random.between i (length - 1)
    return a.swapIfInBounds i j) (Array.range length)
  return shuffled.toList.take amount

/-- Distinct positions: by shuffling where the selection is large, by extension where it is small.
The bound between the two is meant for lengths below half a million. -/
def positions (length amount : Nat) : StateM γ (List Nat) :=
  if amount ≥ 163 ∨ amount > 11 ∧ 10 * length < (100 + 16 * amount) * amount then
    byShuffle length amount
  else byExtension length amount

end Sampling

/-- The draws made from random words. -/
def Draws.ofWords : Draws γ := ⟨Random.uniform, Sampling.positions⟩

end SymbolicFit
