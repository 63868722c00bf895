import Mathlib.Tactic.Common
import SymbolicFit.Proofs.NodeOrder

/-!
Positions as addresses. The walk with a stack of pending trees gives the nodes in the recursive
order, each with its position; reading a position and going down to it find the same node, whose own
nodes are a slice of all nodes; and a tree that is put in its place takes the place of the slice.
-/

namespace SymbolicFit

variable {α β γ : Type}

namespace Tree

mutual

/-- A node and then the nodes of its children, from left to right. -/
def preorder : Tree α → List (Tree α)
  | node s cs => node s cs :: preorderAmong cs

def preorderAmong : List (Tree α) → List (Tree α)
  | [] => []
  | t :: ts => preorder t ++ preorderAmong ts

end

mutual

theorem nodes_eq_preorder : ∀ t : Tree α, t.nodes = t.preorder
  | node s cs => by rw [nodes_node, preorder, visit_eq_preorderAmong cs]

theorem visit_eq_preorderAmong : ∀ ts : List (Tree α), visit ts = preorderAmong ts
  | [] => visit_nil
  | t :: ts => by
    rw [visit_cons, preorderAmong, nodes_eq_preorder t, visit_eq_preorderAmong ts]

end

@[simp] theorem length_preorder (t : Tree α) : t.preorder.length = t.size := by
  rw [← nodes_eq_preorder, length_nodes]

/-- The symbols of the nodes in order. -/
def symbols (t : Tree α) : List (Symbol α) := t.preorder.map symbol

end Tree

/-- A walk over nodes: the trees that are pending, the next one first, and the position it has. -/
structure NodeWalk (α : Type) where
  pending : List (Tree α)
  position : Nat

namespace NodeWalk

def start (t : Tree α) : NodeWalk α := ⟨[t], 0⟩

/-- Takes the next tree and pushes its children, the last of them first. -/
def next? (w : NodeWalk α) : Option ((Tree α × Nat) × NodeWalk α) :=
  match w.pending with
  | [] => none
  | t :: pending =>
    some ((t, w.position),
      ⟨t.children.reverse.foldl (fun pending c => c :: pending) pending, w.position + 1⟩)

/-- What a walk gives until it is over. -/
inductive Gives : NodeWalk α → List (Tree α × Nat) → Prop
  | stop {w : NodeWalk α} (h : w.next? = none) : Gives w []
  | next {w w' : NodeWalk α} {entry : Tree α × Nat} {entries : List (Tree α × Nat)}
      (h : w.next? = some (entry, w')) (hw : Gives w' entries) : Gives w (entry :: entries)

theorem next?_cons (s : Symbol α) (cs pending : List (Tree α)) (position : Nat) :
    next? ⟨.node s cs :: pending, position⟩ =
      some ((.node s cs, position), ⟨cs ++ pending, position + 1⟩) := by
  have hpush : cs.reverse.foldl (fun pending c => c :: pending) pending = cs ++ pending := by
    rw [List.foldl_reverse, List.foldr_cons_eq_append, List.map_id']
  exact congrArg (fun ts => some ((Tree.node s cs, position), (⟨ts, position + 1⟩ : NodeWalk α)))
    hpush

theorem gives_visit (ts : List (Tree α)) (position : Nat) :
    Gives ⟨ts, position⟩ ((Tree.visit ts).zipIdx position) := by
  induction ts using Tree.visit.induct generalizing position with
  | case1 =>
    rw [Tree.visit_nil]
    exact .stop rfl
  | case2 s cs pending ih =>
    rw [Tree.visit_node_cons, List.zipIdx_cons]
    exact .next (next?_cons s cs pending position) (ih (position + 1))

theorem Gives.unique {w : NodeWalk α} {entries entries' : List (Tree α × Nat)}
    (h : w.Gives entries) (h' : w.Gives entries') : entries = entries' := by
  induction h generalizing entries' with
  | stop hw =>
    cases h' with
    | stop => rfl
    | next hw' => exact absurd (hw.symm.trans hw') nofun
  | next hw _ ih =>
    cases h' with
    | stop hw' => exact absurd (hw.symm.trans hw') nofun
    | next hw' hgives =>
      cases hw.symm.trans hw'
      rw [ih hgives]

theorem gives_iff (t : Tree α) (entries : List (Tree α × Nat)) :
    (start t).Gives entries ↔ entries = t.preorder.zipIdx := by
  have h : (start t).Gives t.preorder.zipIdx := by
    rw [← Tree.nodes_eq_preorder]
    exact gives_visit [t] 0
  exact ⟨fun h' => h'.unique h, fun heq => heq ▸ h⟩

end NodeWalk

/-- A node held for a change: the node, and the whole with another tree in its place. -/
structure Held (α β : Type) where
  node : Tree α
  put : Tree α → β

namespace Held

/-- The same node within more. -/
def within (f : β → γ) (h : Held α β) : Held α γ := ⟨h.node, fun u => f (h.put u)⟩

/-- What is held lies between these nodes in order, and so do the symbols of a tree that is put in
its place. -/
structure Cuts (h : Held α β) (nodes before after : List (Tree α))
    (symbols : β → List (Symbol α)) : Prop where
  nodes_eq : nodes = before ++ h.node.preorder ++ after
  symbols_eq : ∀ u, symbols (h.put u) =
    before.map Tree.symbol ++ u.symbols ++ after.map Tree.symbol

end Held

namespace Tree

mutual

/-- Goes down to the position `target` from a node at `position`, past the children that end
before it. -/
def hold (target position : Nat) : Tree α → Option (Held α (Tree α))
  | node s cs =>
    if position = target then some ⟨node s cs, id⟩
    else (holdAmong target (position + 1) cs).map (·.within (node s))

def holdAmong (target position : Nat) : List (Tree α) → Option (Held α (List (Tree α)))
  | [] => none
  | t :: ts =>
    if target < position + t.size then (hold target position t).map (·.within (· :: ts))
    else (holdAmong target (position + t.size) ts).map (·.within (t :: ·))

end

mutual

/-- A change goes down to the node and puts it back changed. -/
theorem modify?_eq_hold (f : Tree α → Tree α) : ∀ (t : Tree α) (id position : Nat),
    t.modify? f id = (t.hold (position + id) position).map fun h => h.put (f h.node)
  | node s cs, 0, position => by
    rw [modify?, hold, if_pos (Nat.add_zero position).symm]
    rfl
  | node s cs, id + 1, position => by
    have hne : position ≠ position + (id + 1) := by omega
    have hid : position + (id + 1) = position + 1 + id := by omega
    rw [modify?, hold, if_neg hne, hid, modifyAmong?_eq_holdAmong f cs id (position + 1),
      Option.map_map, Option.map_map]
    rfl

theorem modifyAmong?_eq_holdAmong (f : Tree α → Tree α) : ∀ (ts : List (Tree α))
    (id position : Nat), modifyAmong? f id ts =
      (holdAmong (position + id) position ts).map fun h => h.put (f h.node)
  | [], _, _ => rfl
  | t :: ts, id, position => by
    rw [modifyAmong?, holdAmong]
    by_cases hid : id < t.size
    · have hlt : position + id < position + t.size := by omega
      rw [if_pos hid, if_pos hlt, modify?_eq_hold f t id position, Option.map_map, Option.map_map]
      rfl
    · have hge : ¬position + id < position + t.size := by omega
      have hrest : position + id = position + t.size + (id - t.size) := by omega
      rw [if_neg hid, if_neg hge, hrest,
        modifyAmong?_eq_holdAmong f ts (id - t.size) (position + t.size), Option.map_map,
        Option.map_map]
      rfl

end

mutual

/-- Every position is reached, with as many nodes before it. -/
theorem hold_cuts : ∀ (t : Tree α) (id position : Nat), id < t.size →
    ∃ h before after, t.hold (position + id) position = some h ∧ before.length = id ∧
      h.Cuts t.preorder before after symbols
  | node s cs, 0, position, _ => by
    refine ⟨⟨node s cs, id⟩, [], [], ?_, rfl, ?_, fun u => ?_⟩
    · rw [hold, if_pos (Nat.add_zero position).symm]
    · exact (List.append_nil _).symm
    · exact (List.append_nil _).symm
  | node s cs, id + 1, position, hid => by
    have hne : position ≠ position + (id + 1) := by omega
    have hpos : position + (id + 1) = position + 1 + id := by omega
    have hcs : id < sizes cs := by
      rw [size] at hid
      omega
    obtain ⟨h, before, after, hh, hlength, hcuts⟩ := holdAmong_cuts cs id (position + 1) hcs
    refine ⟨h.within (node s), node s cs :: before, after, ?_, ?_, ?_, fun u => ?_⟩
    · rw [hold, if_neg hne, hpos, hh]
      rfl
    · rw [List.length_cons, hlength]
    · rw [preorder, hcuts.nodes_eq]
      rfl
    · exact congrArg (s :: ·) (hcuts.symbols_eq u)

theorem holdAmong_cuts : ∀ (ts : List (Tree α)) (id position : Nat), id < sizes ts →
    ∃ h before after, holdAmong (position + id) position ts = some h ∧ before.length = id ∧
      h.Cuts (preorderAmong ts) before after fun us => (preorderAmong us).map symbol
  | t :: ts, id, position, hid => by
    by_cases hlt : id < t.size
    · have hpos : position + id < position + t.size := by omega
      obtain ⟨h, before, after, hh, hlength, hcuts⟩ := hold_cuts t id position hlt
      refine ⟨h.within (· :: ts), before, after ++ preorderAmong ts, ?_, hlength, ?_, fun u => ?_⟩
      · rw [holdAmong, if_pos hpos, hh]
        rfl
      · rw [preorderAmong, hcuts.nodes_eq, List.append_assoc]
        rfl
      · have hu := hcuts.symbols_eq u
        rw [symbols] at hu
        rw [Held.within, preorderAmong, List.map_append, hu, List.map_append, List.append_assoc]
    · have hpos : ¬position + id < position + t.size := by omega
      have hrest : position + id = position + t.size + (id - t.size) := by omega
      have hts : id - t.size < sizes ts := by
        rw [sizes] at hid
        omega
      obtain ⟨h, before, after, hh, hlength, hcuts⟩ :=
        holdAmong_cuts ts (id - t.size) (position + t.size) hts
      refine ⟨h.within (t :: ·), t.preorder ++ before, after, ?_, ?_, ?_, fun u => ?_⟩
      · rw [holdAmong, if_neg hpos, hrest, hh]
        rfl
      · rw [List.length_append, length_preorder, hlength]
        omega
      · rw [preorderAmong, hcuts.nodes_eq, List.append_assoc, List.append_assoc, List.append_assoc]
        rfl
      · rw [Held.within, preorderAmong, List.map_append, hcuts.symbols_eq u, List.map_append,
          List.append_assoc, List.append_assoc, List.append_assoc]

end

mutual

theorem hold_eq_none : ∀ (t : Tree α) {id : Nat} (position : Nat), t.size ≤ id →
    t.hold (position + id) position = none
  | node s cs, id, position, hid => by
    rw [size] at hid
    have hne : position ≠ position + id := by omega
    have hpos : position + id = position + 1 + (id - 1) := by omega
    have hcs : sizes cs ≤ id - 1 := by omega
    rw [hold, if_neg hne, hpos, holdAmong_eq_none cs (position + 1) hcs]
    rfl

theorem holdAmong_eq_none : ∀ (ts : List (Tree α)) {id : Nat} (position : Nat), sizes ts ≤ id →
    holdAmong (position + id) position ts = none
  | [], _, _, _ => rfl
  | t :: ts, id, position, hid => by
    rw [sizes] at hid
    have hge : ¬position + id < position + t.size := by omega
    have hrest : position + id = position + t.size + (id - t.size) := by omega
    have hts : sizes ts ≤ id - t.size := by omega
    rw [holdAmong, if_neg hge, hrest, holdAmong_eq_none ts (position + t.size) hts]
    rfl

end

/-- What is held at a position is the node there, whose nodes are a slice of those of the tree, and
the symbols of a tree that is put in its place take the place of this slice. -/
theorem exists_hold {t : Tree α} {id : Nat} (hid : id < t.size) :
    ∃ h, t.hold id 0 = some h ∧ t.node? id = some h.node ∧
      h.node.preorder = (t.preorder.drop id).take h.node.size ∧
      ∀ u, (h.put u).symbols =
        t.symbols.take id ++ u.symbols ++ t.symbols.drop (id + h.node.size) := by
  obtain ⟨h, before, after, hh, rfl, hnodes, hsymbols⟩ := hold_cuts t id 0 hid
  rw [Nat.zero_add] at hh
  have hsize := length_preorder h.node
  have hslice : t.preorder.drop before.length = h.node.preorder ++ after := by
    rw [hnodes, List.append_assoc, List.drop_left]
  refine ⟨h, hh, ?_, ?_, fun u => ?_⟩
  · have hhead : h.node.preorder.head? = some h.node := by
      cases h.node
      rfl
    rw [node?, nodes_eq_preorder, ← List.head?_drop, hslice, List.head?_append, hhead]
    rfl
  · rw [hslice, ← hsize, List.take_left]
  · have hbefore : t.symbols.take before.length = before.map symbol := by
      rw [symbols, ← List.map_take, hnodes, List.append_assoc, List.take_left]
    have hafter : t.symbols.drop (before.length + h.node.size) = after.map symbol := by
      rw [symbols, ← List.map_drop, ← List.drop_drop, hslice, ← hsize, List.drop_left]
    rw [hsymbols u, hbefore, hafter]

/-- Positions are the addresses of the nodes of a tree. -/
structure Addressed (t : Tree α) : Prop where
  length : t.preorder.length = t.size
  walk : ∀ entries, (NodeWalk.start t).Gives entries ↔ entries = t.preorder.zipIdx
  reads : ∀ id, t.node? id = t.preorder[id]?
  holds : ∀ id, (t.hold id 0).map (·.node) = t.node? id
  found : ∀ id, ((t.node? id).isSome ↔ id < t.size) ∧ ((t.hold id 0).isSome ↔ id < t.size)
  changes : ∀ f id, t.modify? f id = (t.hold id 0).map fun h => h.put (f h.node)
  slice : ∀ id n, t.node? id = some n → ∀ entries,
    (NodeWalk.start n).Gives entries ↔ entries = ((t.preorder.drop id).take n.size).zipIdx
  replaces : ∀ id n u, t.node? id = some n → ∃ t', t.modify? (fun _ => u) id = some t' ∧
    t'.symbols = t.symbols.take id ++ u.symbols ++ t.symbols.drop (id + n.size)

/-- On every tree the positions from zero below its size are the addresses of its nodes in order,
to read, to walk from and to change. -/
theorem addressed (t : Tree α) : t.Addressed := by
  have hchanges : ∀ f id, t.modify? f id = (t.hold id 0).map fun h => h.put (f h.node) := by
    intro f id
    rw [modify?_eq_hold f t id 0, Nat.zero_add]
  have hnone : ∀ {id}, t.size ≤ id → t.node? id = none ∧ t.hold id 0 = none := by
    intro id hid
    have hhold := hold_eq_none t 0 hid
    rw [Nat.zero_add] at hhold
    refine ⟨List.getElem?_eq_none ?_, hhold⟩
    rwa [length_nodes]
  have hsome : ∀ {id n}, t.node? id = some n → id < t.size := by
    intro id n hn
    by_contra hid
    exact absurd (hn.symm.trans (hnone (Nat.le_of_not_lt hid)).1) nofun
  constructor
  case length => exact length_preorder t
  case walk => exact NodeWalk.gives_iff t
  case reads => exact fun id => by rw [node?, nodes_eq_preorder]
  case changes => exact hchanges
  case holds =>
    intro id
    rcases Nat.lt_or_ge id t.size with hid | hid
    · obtain ⟨h, hh, hn, -⟩ := exists_hold hid
      rw [hh, hn]
      rfl
    · rw [(hnone hid).1, (hnone hid).2]
      rfl
  case found =>
    intro id
    rcases Nat.lt_or_ge id t.size with hid | hid
    · obtain ⟨h, hh, hn, -⟩ := exists_hold hid
      simp [hh, hn, hid]
    · simp [hnone hid, hid]
  case slice =>
    intro id n hn entries
    obtain ⟨h, -, hn', hslice, -⟩ := exists_hold (hsome hn)
    obtain rfl := Option.some.inj (hn'.symm.trans hn)
    rw [NodeWalk.gives_iff, hslice]
  case replaces =>
    intro id n u hn
    obtain ⟨h, hh, hn', -, hsymbols⟩ := exists_hold (hsome hn)
    obtain rfl := Option.some.inj (hn'.symm.trans hn)
    refine ⟨h.put u, ?_, hsymbols u⟩
    rw [hchanges, hh]
    rfl

end Tree

end SymbolicFit
