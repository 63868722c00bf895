import SymbolicFit.Proofs.EvaluatedLeaves

/-!
The walk that writes the shapes of a tree into a buffer. It reserves a place for a node before it
goes on to the children and writes the shape over it when the value is known. The places are the
positions of the nodes, so the buffer ends up with the shapes that an evaluation lists.
-/

namespace SymbolicFit

variable {α β γ : Type}

/-- Where a walk stands: the position it gives to the next node, and the shapes of the nodes it has
come to. -/
structure Recorder where
  next : Nat
  shapes : List Shape

/-- A walk that fails like an evaluation, or stops when it writes to a place that is not there. -/
abbrev Recording := StateT Recorder (ExceptT Failure Option)

namespace Recording

/-- Comes to the next node and reserves a place for its shape. -/
def reserve : Recording Nat := fun r =>
  some (.ok (r.next, ⟨r.next + 1, r.shapes ++ [.scalar]⟩))

/-- Writes the shape of a node into its place. -/
def fill (id : Nat) (shape : Shape) : Recording Unit := fun r =>
  if id < r.shapes.length then some (.ok ((), { r with shapes := r.shapes.set id shape }))
  else none

def lift (x : Except Failure β) : Recording β := fun r => some (x.map fun b => (b, r))

theorem bind_ok {x : Recording β} {f : β → Recording γ} {r r' : Recorder} {b : β}
    (h : x r = some (.ok (b, r'))) : (x >>= f) r = f b r' := by
  change (x r >>= _ : Option _) = _
  rw [h]
  rfl

theorem bind_error {x : Recording β} {f : β → Recording γ} {r : Recorder} {e : Failure}
    (h : x r = some (.error e)) : (x >>= f) r = some (.error e) := by
  change (x r >>= _ : Option _) = _
  rw [h]
  rfl

theorem fill_reserved (next : Nat) (before after : List Shape) (shape : Shape) :
    fill before.length shape ⟨next, before ++ .scalar :: after⟩ =
      some (.ok ((), ⟨next, before ++ shape :: after⟩)) := by
  have hlt : before.length < (before ++ Shape.scalar :: after).length := by simp
  rw [fill, if_pos hlt, List.set_append_right _ _ (Nat.le_refl _), Nat.sub_self]
  rfl

end Recording

open Recording (reserve fill lift)

variable [Scalar α] (d : Dataset α) (row : Nat)

namespace Tree

mutual

/-- Evaluates a tree and writes the shape of each node, once it is known, into the place that was
reserved when the walk came to the node. -/
def walk : Tree α → Recording (Shaped α)
  | node s cs => do
    let id ← reserve
    let v ← (match s.leaf? d row id with
      | some value => lift value
      | none => do
        let vs ← walkAll cs
        lift (s.combine id vs) : Recording (Shaped α))
    fill id v.shape
    return v

def walkAll : List (Tree α) → Recording (List (Shaped α))
  | [] => return []
  | t :: ts => do
    let v ← walk t
    let vs ← walkAll ts
    return v :: vs

end

mutual

/-- A walk that has as many shapes as it has given positions evaluates the tree at the next position
and appends its shapes. -/
theorem walk_apply : ∀ (t : Tree α) (before : List Shape),
    t.walk d row ⟨before.length, before⟩ =
      some ((t.evaluateAt d row before.length).map fun p =>
        (p.1, ⟨before.length + t.reach, before ++ p.2⟩))
  | node s cs, before => by
    have hreserve : reserve ⟨before.length, before⟩ =
        some (.ok (before.length, ⟨before.length + 1, before ++ [Shape.scalar]⟩)) := rfl
    have hcs := walkAll_apply cs (before ++ [Shape.scalar])
    rw [List.length_append, List.length_singleton] at hcs
    rw [walk, Recording.bind_ok hreserve, evaluateAt]
    cases hleaf : s.leaf? d row before.length with
    | some value =>
      cases value with
      | error e => exact Recording.bind_error rfl
      | ok v =>
        have hreach : (node s cs).reach = 1 := if_pos (Symbol.isLeaf_of_leaf? hleaf)
        have hfill := Recording.fill_reserved (before.length + 1) before [] v.shape
        rw [Recording.bind_ok (x := lift (.ok v)) rfl, Recording.bind_ok hfill, hreach]
        rfl
    | none =>
      have hreach : (node s cs).reach = 1 + reaches cs :=
        if_neg (Bool.eq_false_iff.1 (Symbol.isLeaf_of_leaf?_eq_none hleaf))
      dsimp only
      cases hvs : evaluateAllAt d row (before.length + 1) cs with
      | error e =>
        rw [hvs] at hcs
        exact Recording.bind_error (Recording.bind_error hcs)
      | ok p =>
        have hcs : walkAll d row cs ⟨before.length + 1, before ++ [Shape.scalar]⟩ = some (.ok
            (p.1, ⟨before.length + 1 + reaches cs, before ++ Shape.scalar :: p.2⟩)) := by
          rw [hcs, hvs, Except.map, List.append_assoc]
          rfl
        have hx := Recording.bind_ok (f := fun vs => lift (s.combine before.length vs)) hcs
        change _ = some (Except.map _ (do
          let v ← s.combine before.length p.1
          return (v, v.shape :: p.2)))
        cases hv : s.combine before.length p.1 with
        | error e =>
          rw [lift, hv] at hx
          exact Recording.bind_error hx
        | ok v =>
          have hfill := Recording.fill_reserved (before.length + 1 + reaches cs) before p.2 v.shape
          rw [lift, hv] at hx
          rw [Recording.bind_ok hx, Recording.bind_ok hfill, hreach, Nat.add_assoc]
          rfl

theorem walkAll_apply : ∀ (ts : List (Tree α)) (before : List Shape),
    walkAll d row ts ⟨before.length, before⟩ =
      some ((evaluateAllAt d row before.length ts).map fun p =>
        (p.1, ⟨before.length + reaches ts, before ++ p.2⟩))
  | [], before => by
    rw [evaluateAllAt, reaches, walkAll, Except.map, List.append_nil]
    rfl
  | t :: ts, before => by
    have ht := walk_apply t before
    rw [walkAll, evaluateAllAt, reaches]
    cases hv : t.evaluateAt d row before.length with
    | error e =>
      rw [hv] at ht
      exact Recording.bind_error ht
    | ok p =>
      have hts := walkAll_apply ts (before ++ p.2)
      have hlength : (before ++ p.2).length = before.length + t.reach := by
        rw [List.length_append, length_shapes hv]
      rw [hv] at ht
      rw [hlength] at hts
      rw [Recording.bind_ok ht]
      cases hvs : evaluateAllAt d row (before.length + t.reach) ts with
      | error e =>
        rw [hvs] at hts
        rw [Recording.bind_error hts]
        rfl
      | ok q =>
        rw [hvs] at hts
        rw [Recording.bind_ok hts, ← Nat.add_assoc]
        change _ = some (Except.ok (p.1 :: q.1, Recorder.mk _ (before ++ (p.2 ++ q.2))))
        rw [← List.append_assoc]
        rfl

end

end Tree

end SymbolicFit
