import SymbolicFit.NormalSystem

/-!
Solving square systems by orthogonal transformations: Householder reflections for the direct
solution, plane rotations for the shortest solution of a singular system.
-/

namespace SymbolicFit

open Scalar

variable {α : Type} [Scalar α]

def scaleDown (k : α) (x : List α) : List α := x.map (· / k)

def normalized (x : List α) : List α := scaleDown (sqrt (dot x x)) x

/-- The map `x ↦ sign * (x - 2 (axis · x) axis)` for a unit axis. -/
structure Reflector (α : Type) where
  axis : List α
  sign : α

namespace Reflector

def apply (h : Reflector α) (x : List α) : List α :=
  let k := dot h.axis x * (h.sign * -2.0)
  List.zipWith (fun xi ai => h.sign * xi + k * ai) x h.axis

/-- The reflector that takes a vector to the first axis, and the norm of the vector. -/
def ofColumn (c : List α) : Reflector α × α :=
  let sq := dot c c
  let norm := sqrt sq
  match c with
  | [] => (⟨[], 1⟩, norm)
  | x :: rest =>
    let sign : α := if 0 ≤ x then 1 else -1
    let axis := (x + sign * norm) :: rest
    let factor := (sq + Scalar.abs x * norm) * 2.0
    if factor == 0 then (⟨axis, 1⟩, norm)
    else (⟨normalized (scaleDown (sqrt factor) axis), -sign⟩, norm)

/-- Solves a square system given by its columns; fails when a reflected column vanishes. -/
def solve (columns : List (List α)) (b : List α) : Option (List α) :=
  match columns with
  | [] => some []
  | c :: cs => do
    let (h, norm) := ofColumn c
    let cs' := cs.map h.apply
    let b' := h.apply b
    let x ← solve (cs'.map List.tail) b'.tail
    if norm == 0 then none
    else
      let known := (List.zipWith (fun c xi => c.headD 0 * xi) cs' x).foldr (fun k r => r - k)
        (b'.headD 0)
      return known / norm :: x
termination_by columns.length
decreasing_by simp

end Reflector

/-- A column of a matrix and of the rotation that has been applied to it. -/
structure RotatedColumn (α : Type) where
  image : List α
  direction : List α

namespace RotatedColumn

def rotate (c s : α) (x y : List α) : List α × List α :=
  (List.zipWith (fun a b => c * a - s * b) x y, List.zipWith (fun a b => s * a + c * b) x y)

/-- Rotates two columns so that their images become orthogonal, unless they are so up to
rounding. -/
def orthogonalize (p q : RotatedColumn α) : RotatedColumn α × RotatedColumn α :=
  let a := dot p.image p.image
  let b := dot q.image q.image
  let g := dot p.image q.image
  if Scalar.abs g ≤ 1e-15 * sqrt (a * b) then (p, q)
  else
    let z := (b - a) / (2.0 * g)
    let t := (if 0 ≤ z then 1 else -1) / (Scalar.abs z + sqrt (1 + z * z))
    let c := 1 / sqrt (1 + t * t)
    let (u, u') := rotate c (c * t) p.image q.image
    let (v, v') := rotate c (c * t) p.direction q.direction
    (⟨u, v⟩, ⟨u', v'⟩)

/-- Orthogonalizes a column against each of the others. -/
def clear (p : RotatedColumn α) : List (RotatedColumn α) → RotatedColumn α × List (RotatedColumn α)
  | [] => (p, [])
  | q :: qs =>
    let (p, q) := orthogonalize p q
    let (p, qs) := clear p qs
    (p, q :: qs)

theorem length_clear (p : RotatedColumn α) (qs : List (RotatedColumn α)) :
    (clear p qs).2.length = qs.length := by
  induction qs generalizing p with
  | nil => rfl
  | cons q qs ih => simp [clear, ih]

/-- Orthogonalizes every pair of columns once. -/
def sweep (cs : List (RotatedColumn α)) : List (RotatedColumn α) :=
  match cs with
  | [] => []
  | c :: cs => (clear c cs).1 :: sweep (clear c cs).2
termination_by cs.length
decreasing_by simp [length_clear]

def start (columns : List (List α)) : List (RotatedColumn α) :=
  columns.mapIdx fun i c => ⟨c, (List.replicate columns.length 0).set i 1⟩

/-- The largest magnitude of an entry. -/
def magnitude (columns : List (List α)) : α :=
  columns.foldl (fun m c => c.foldl (fun m x => greater m (Scalar.abs x)) m) 0

/-- The shortest solution that minimizes the error, over the directions whose image is longer than
a hundred units of rounding. The matrix is scaled to magnitude one first, and `b` meets unit vectors
only, so that large numbers do not overflow on the way. -/
def solve (columns : List (List α)) (b : List α) : List α :=
  let zero := columns.map fun _ => 0
  let scale := magnitude columns
  if scale == 0 then zero
  else
    let cs := Nat.repeat sweep 40 (start (columns.map (·.map (· / scale))))
    cs.foldl (fun x c =>
      let length := sqrt (dot c.image c.image)
      if 2.220446049250313e-14 < length * scale then
        let k := dot (normalized (normalized c.image)) b / (length * scale)
        List.zipWith (fun xi vi => xi + k * vi) x c.direction
      else x) zero

end RotatedColumn

/-- Products summed from left to right, reflections first, rotations for singular systems. -/
def LinearSolver.orthogonal : LinearSolver α :=
  ⟨NormalSystem.ofJacobian, Reflector.solve, RotatedColumn.solve⟩

end SymbolicFit
