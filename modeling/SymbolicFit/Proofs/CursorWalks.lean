import Mathlib.Tactic.Common
import SymbolicFit.Proofs.TunableLens

/-!
The walk that writes a parameter vector with a cursor and stops when it reads past the end. Where
the vector is long enough it does not stop: it writes what a write from the rest of the vector does.
-/

namespace SymbolicFit

variable {α β γ : Type}

/-- Where a walk stands: the parameter it takes next and the position it comes to next. -/
structure Cursor where
  parameter : Nat
  position : Nat

/-- A walk with a cursor; it stops when it reads past the end of the parameters. -/
abbrev Walking := StateT Cursor Option

namespace Walking

def take (params : List α) : Walking α := fun c =>
  params[c.parameter]?.map fun p => (p, { c with parameter := c.parameter + 1 })

/-- Goes past some positions, from the one that is returned. -/
def pass (n : Nat) : Walking Nat := fun c =>
  some (c.position, { c with position := c.position + n })

theorem bind_some {x : Walking β} {f : β → Walking γ} {c c' : Cursor} {b : β}
    (h : x c = some (b, c')) : (x >>= f) c = f b c' := by
  change (x c >>= fun r => f r.1 r.2) = _
  rw [h]
  rfl

theorem map_some {x : Walking β} (f : β → γ) {c c' : Cursor} {b : β} (h : x c = some (b, c')) :
    (f <$> x) c = some (f b, c') := by
  rw [map_eq_pure_bind, bind_some h]
  rfl

theorem take_apply {params : List α} {k : Nat} (h : k < params.length) (id : Nat) :
    take params ⟨k, id⟩ = some (params[k], ⟨k + 1, id⟩) := by
  rw [take, List.getElem?_eq_getElem h, Option.map_some]

end Walking

open Walking (take pass)

/-- Writes the numbers of a symbol that are tuned. -/
def Symbol.write (o : FitOptions) (params : List α) (id : Nat) : Symbol α → Walking (Symbol α)
  | constant v => if o.tunes id then constant <$> take params else pure (constant v)
  | column name w lag index =>
    if o.tunesWeights id then (column name · lag index) <$> take params
    else pure (column name w lag index)
  | indicator name category w =>
    if o.tunesWeights id then indicator name category <$> take params
    else pure (indicator name category w)
  | factor name ws =>
    if o.tunesWeights id then factor name <$> ws.mapM fun cw => (cw.1, ·) <$> take params
    else pure (factor name ws)
  | s => pure s

namespace Tree

mutual

/-- Writes the tuned numbers of a tree in node order, going past exponents. -/
def write (o : FitOptions) (params : List α) : Tree α → Walking (Tree α)
  | node s cs => do
    let id ← pass 1
    let s' ← s.write o params id
    match s.takesExponent, cs with
    | true, [base, exponent] =>
      let base' ← write o params base
      let _ ← pass exponent.size
      return node s' [base', exponent]
    | _, cs => node s' <$> writeAmong o params cs

def writeAmong (o : FitOptions) (params : List α) : List (Tree α) → Walking (List (Tree α))
  | [] => pure []
  | t :: ts => do
    let t' ← write o params t
    let ts' ← writeAmong o params ts
    return t' :: ts'

end

end Tree

variable (o : FitOptions) (params : List α)

/-- A leaf with one number takes a parameter for it if it is tuned. -/
theorem number_walk (id : Nat) (f : α → Symbol α) (v : α) (tuned : Bool) (k : Nat)
    (h : k + (if tuned then [v] else []).length ≤ params.length) :
    (if tuned then f <$> take params else pure (f v) : Walking (Symbol α)) ⟨k, id⟩ =
      some (f (if tuned then (params.drop k).headD v else v),
        ⟨k + (if tuned then [v] else []).length, id⟩) := by
  cases tuned with
  | false => rfl
  | true =>
    have hk : k < params.length := h
    rw [List.drop_eq_getElem_cons hk]
    exact Walking.map_some f (Walking.take_apply hk id)

theorem refill_walk (id : Nat) (ws : List (String × α)) (k : Nat)
    (h : k + ws.length ≤ params.length) :
    (ws.mapM fun cw => (cw.1, ·) <$> take params : Walking (List (String × α))) ⟨k, id⟩ =
      some ((Symbol.refill ws (params.drop k)).1, ⟨k + ws.length, id⟩) := by
  induction ws generalizing k with
  | nil => rfl
  | cons cw ws ih =>
    rw [List.length_cons] at h
    have hk : k < params.length := by omega
    have htake := Walking.map_some (cw.1, ·) (Walking.take_apply hk id)
    have hrest := ih (k + 1) (by omega)
    rw [List.mapM_cons, Walking.bind_some htake, Walking.bind_some hrest,
      List.drop_eq_getElem_cons hk, Symbol.refill, List.length_cons, ← Nat.add_right_comm]
    rfl

variable {o params} in
theorem Symbol.write_of_not_isLeaf {s : Symbol α} (hs : s.isLeaf = false) (id : Nat) :
    s.write o params id = pure s := by
  cases s with
  | constant | fixed | column | indicator | factor => cases hs
  | _ => rfl

/-- Where enough parameters are left, the tuned numbers of a symbol are written. -/
theorem Symbol.write_apply (id position : Nat) (s : Symbol α) (k : Nat)
    (h : k + (s.tunable o id).length ≤ params.length) :
    s.write o params id ⟨k, position⟩ =
      some ((s.assign o id (params.drop k)).1, ⟨k + (s.tunable o id).length, position⟩) := by
  cases s with
  | constant v =>
    rw [assign_constant]
    exact number_walk params position constant v (o.tunes id) k h
  | column name w lag index =>
    rw [assign_column]
    exact number_walk params position (column name · lag index) w (o.tunesWeights id) k h
  | indicator name category w =>
    rw [assign_indicator]
    exact number_walk params position (indicator name category) w (o.tunesWeights id) k h
  | factor name ws =>
    rw [assign_factor]
    cases ht : o.tunesWeights id with
    | false => simp only [write, tunable, ht]; rfl
    | true =>
      have hlength : ((factor name ws).tunable o id).length = ws.length := by
        rw [tunable, ht, if_pos rfl, List.length_map]
      rw [hlength] at h ⊢
      rw [write, ht, if_pos rfl, if_pos rfl]
      exact Walking.map_some _ (refill_walk params position ws k h)
  | _ => rfl

namespace Tree

variable {o} in
theorem write_exponent {s : Symbol α} (hs : s.takesExponent = true) (base exponent : Tree α) :
    (node s [base, exponent]).write o params = (do
      let s' ← s.write o params (← pass 1)
      let base' ← base.write o params
      let _ ← pass exponent.size
      return node s' [base', exponent]) := by
  rw [write]
  simp only [hs]

variable {o} in
theorem write_other {s : Symbol α} {cs : List (Tree α)}
    (h : s.takesExponent = true → cs.length ≠ 2) :
    (node s cs).write o params = (do
      let s' ← s.write o params (← pass 1)
      node s' <$> writeAmong o params cs) := by
  rw [write]
  refine bind_congr fun id => bind_congr fun s' => ?_
  split
  · rename_i hs
    exact absurd rfl (h hs)
  · rfl

mutual

theorem write_apply : ∀ (t : Tree α) (k id : Nat),
    k + (t.tunable o id).length ≤ params.length →
      t.write o params ⟨k, id⟩ = some ((t.assign o id (params.drop k)).1,
        ⟨k + (t.tunable o id).length, id + t.size⟩)
  | node s cs, k, id, h => by
    have hpass : pass 1 ⟨k, id⟩ = some (id, ⟨k, id + 1⟩) := rfl
    rcases exponent_cases s cs with ⟨hs, base, exponent, rfl⟩ | hs
    · rw [tunable_exponent o id hs] at h ⊢
      have hs' : s.write o params id ⟨k, id + 1⟩ = some (s, ⟨k, id + 1⟩) := by
        rw [Symbol.write_of_not_isLeaf (Symbol.isLeaf_of_takesExponent hs)]
        rfl
      have hbase := write_apply base k (id + 1) h
      have hsize : id + (node s [base, exponent]).size = id + 1 + base.size + exponent.size := by
        simp only [size, sizes]
        omega
      rw [write_exponent params hs, Walking.bind_some hpass, Walking.bind_some hs',
        Walking.bind_some hbase, assign_exponent o id hs, hsize]
      rfl
    · rw [tunable_other o id hs, List.length_append] at h ⊢
      have hs' := Symbol.write_apply o params id (id + 1) s k (by omega)
      have hcs := writeAmong_apply cs (k + (s.tunable o id).length) (id + 1) (by omega)
      rw [write_other params hs, Walking.bind_some hpass, Walking.bind_some hs',
        Walking.map_some _ hcs, assign_other o id hs, Symbol.assign_snd, List.drop_drop, size,
        ← Nat.add_assoc, ← Nat.add_assoc]

theorem writeAmong_apply : ∀ (ts : List (Tree α)) (k id : Nat),
    k + (tunableAmong o id ts).length ≤ params.length →
      writeAmong o params ts ⟨k, id⟩ = some ((assignAmong o id ts (params.drop k)).1,
        ⟨k + (tunableAmong o id ts).length, id + sizes ts⟩)
  | [], _, _, _ => rfl
  | t :: ts, k, id, h => by
    rw [tunableAmong, List.length_append] at h ⊢
    have ht := write_apply t k id (by omega)
    have hts := writeAmong_apply ts (k + (t.tunable o id).length) (id + t.size) (by omega)
    rw [writeAmong, Walking.bind_some ht, Walking.bind_some hts, assignAmong_cons, assign_snd,
      List.drop_drop, sizes, ← Nat.add_assoc, ← Nat.add_assoc]
    rfl

end

end Tree

end SymbolicFit
