import SymbolicFit.Scalar

/-!
The squared correlation of estimates with observations, in one pass over the pairs.
-/

namespace SymbolicFit

open Scalar

variable {α : Type} [Scalar α]

/-- Running count, means, squared deviations and co-deviation of the pairs seen so far. -/
structure Moments (α : Type) where
  count : α
  meanEstimated : α
  meanObserved : α
  spreadEstimated : α
  spreadObserved : α
  covariation : α

namespace Moments

def empty : Moments α := ⟨0, 0, 0, 0, 0, 0⟩

def add (m : Moments α) (e o : α) : Moments α :=
  let n := m.count + 1
  let de := e - m.meanEstimated
  let dO := o - m.meanObserved
  let me := m.meanEstimated + de / n
  let mo := m.meanObserved + dO / n
  { count := n
    meanEstimated := me
    meanObserved := mo
    spreadEstimated := m.spreadEstimated + de * (e - me)
    spreadObserved := m.spreadObserved + dO * (o - mo)
    covariation := m.covariation + de * (o - mo) }

def ofPairs (ps : List (α × α)) : Moments α := ps.foldl (fun m p => m.add p.1 p.2) empty

/-- The correlation as a quotient, meaningless where a spread vanishes. -/
def correlation (m : Moments α) : α :=
  m.covariation / (sqrt m.spreadEstimated * sqrt m.spreadObserved)

/-- The square of the correlation, at most one; none when a spread vanishes. -/
def squaredCorrelation? (m : Moments α) : Option α :=
  if m.spreadEstimated ≤ 0 ∨ m.spreadObserved ≤ 0 then none
  else some (lesser (m.correlation * m.correlation) 1)

end Moments

/-- The squared correlation; none for lists that are empty, of different lengths, with a value that
is not finite, or constant. -/
def squaredCorrelation? (estimated observed : List α) : Option α :=
  if estimated.isEmpty ∨ estimated.length ≠ observed.length then none
  else if (estimated.zip observed).all fun p => isFinite p.1 && isFinite p.2 then
    (Moments.ofPairs (estimated.zip observed)).squaredCorrelation?
  else none

end SymbolicFit
