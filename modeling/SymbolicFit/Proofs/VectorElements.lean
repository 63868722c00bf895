import SymbolicFit.Proofs.EvaluatedLeaves
import SymbolicFit.Proofs.ShapedRelation

/-!
Vectors are evaluated element by element. Where the value of a tree is a vector, each element of it
is the value of the tree whose leaves read that one element.
-/

namespace SymbolicFit

variable {β γ δ : Type}

namespace Shaped

/-- The item combined at place `k`; a single item stands at every place. -/
def item? (k : Nat) (a : Shaped β) : Option β := a.toList[if a.length = 1 then 0 else k]?

variable {k : Nat}

@[simp] theorem item?_scalar (x : β) : (scalar x).item? k = some x := rfl

theorem item?_vector {xs : List β} (hk : k < xs.length) : (vector xs).item? k = some xs[k] := by
  have hj : (if xs.length = 1 then 0 else k) = k := by split_ifs <;> omega
  rw [item?, length, toList, hj, List.getElem?_eq_getElem hk]

theorem eq_scalar_of_item? {a : Shaped β} {x : β} (ha : a.shape = .scalar)
    (hx : a.item? k = some x) : a = scalar x := by
  cases a with
  | scalar y =>
    cases hx
    rfl
  | vector ys => cases ha

theorem item?_map (f : β → γ) (a : Shaped β) : (a.map f).item? k = (a.item? k).map f := by
  have ht : (a.map f).toList = a.toList.map f := by cases a <;> rfl
  rw [item?, item?, length, length, ht, List.length_map, List.getElem?_map]

theorem commonLength_ok {id l r n : Nat} (h : commonLength id l r = .ok n) :
    (l = n ∨ l = 1) ∧ (r = n ∨ r = 1) := by
  unfold commonLength at h
  split_ifs at h with h₁ h₂ h₃ <;> cases h
  · exact ⟨.inl rfl, .inl h₁.symm⟩
  · exact ⟨.inr h₂, .inl rfl⟩
  · exact ⟨.inl rfl, .inr h₃⟩

theorem broadcast_ok {id : Nat} {a : Shaped β} {b : Shaped γ} {c : Shaped (β × γ)}
    (h : a.broadcast id b = .ok c) : ∃ n, (a.length = n ∨ a.length = 1) ∧
      (b.length = n ∨ b.length = 1) ∧ c.toList = (a.stretch n).zip (b.stretch n) := by
  by_cases hv : a.shape.isVector = true ∨ b.shape.isVector = true
  · rw [broadcast_of_vector hv] at h
    obtain ⟨n, hn, rfl⟩ := map_eq_ok.1 h
    obtain ⟨ha, hb⟩ := commonLength_ok hn
    exact ⟨n, ha, hb, rfl⟩
  · cases a with
    | vector xs => exact absurd (Or.inl rfl) hv
    | scalar x =>
      cases b with
      | vector ys => exact absurd (Or.inr rfl) hv
      | scalar y =>
        cases h
        exact ⟨1, .inl rfl, .inl rfl, rfl⟩

theorem length_stretch {a : Shaped β} {n : Nat} (h : a.length = n ∨ a.length = 1) :
    (a.stretch n).length = n := by
  unfold stretch
  split
  · exact List.length_replicate
  · exact List.length_replicate
  · rename_i xs hxs
    refine h.resolve_right fun h1 => ?_
    obtain ⟨x, rfl⟩ := List.length_eq_one_iff.1 h1
    exact hxs x rfl

theorem getElem?_stretch {a : Shaped β} {n : Nat} (h : a.length = n ∨ a.length = 1) {j : Nat}
    (hj : j < n) : (a.stretch n)[j]? = a.item? j := by
  unfold stretch
  split
  · rw [List.getElem?_replicate_of_lt hj, item?_scalar]
  · rw [List.getElem?_replicate_of_lt hj]
    rfl
  · rename_i xs hxs
    have h1 : xs.length ≠ 1 := fun h1 => by
      obtain ⟨x, rfl⟩ := List.length_eq_one_iff.1 h1
      exact hxs x rfl
    rw [item?, length, toList, if_neg h1]

/-- What is paired at a place stood there before. -/
theorem item?_broadcast {id : Nat} {a : Shaped β} {b : Shaped γ} {c : Shaped (β × γ)}
    (h : a.broadcast id b = .ok c) {p : β × γ} (hp : c.item? k = some p) :
    a.item? k = some p.1 ∧ b.item? k = some p.2 := by
  obtain ⟨n, ha, hb, hc⟩ := broadcast_ok h
  have hn : c.length = n := by
    rw [length, hc, List.length_zip, length_stretch ha, length_stretch hb, Nat.min_self]
  rw [item?, hn, hc] at hp
  generalize hj : (if n = 1 then 0 else k) = j at hp
  obtain ⟨hx, hy⟩ := List.getElem?_zip_eq_some.1 hp
  have hlt : j < n := by
    rw [← length_stretch ha]
    exact (List.getElem?_eq_some_iff.1 hx).1
  rw [getElem?_stretch ha hlt] at hx
  rw [getElem?_stretch hb hlt] at hy
  -- the place only matters where there is more than one item
  have hplace : ∀ {l : Nat}, l = n ∨ l = 1 → (if l = 1 then 0 else j) = if l = 1 then 0 else k := by
    intro l hl
    split_ifs at hj ⊢ <;> omega
  rw [item?, hplace ha] at hx
  rw [item?, hplace hb] at hy
  exact ⟨hx, hy⟩

theorem item?_zipWith {id : Nat} {f : β → γ → δ} {a : Shaped β} {b : Shaped γ} {c : Shaped δ}
    (h : zipWith id f a b = .ok c) {z : δ} (hz : c.item? k = some z) :
    ∃ x y, a.item? k = some x ∧ b.item? k = some y ∧ f x y = z := by
  obtain ⟨p, hp, rfl⟩ := map_eq_ok.1 h
  rw [item?_map] at hz
  obtain ⟨⟨x, y⟩, hxy, rfl⟩ := Option.map_eq_some_iff.1 hz
  obtain ⟨hx, hy⟩ := item?_broadcast hp hxy
  exact ⟨x, y, hx, hy, rfl⟩

/-- The items at one place of each of several values. -/
def ItemsAt (k : Nat) (as : List (Shaped β)) (xs : List β) : Prop :=
  List.Forall₂ (fun a x => a.item? k = some x) as xs

theorem item?_foldlM {id : Nat} {f : β → β → β} {as : List (Shaped β)} {a c : Shaped β}
    (h : as.foldlM (zipWith id f) a = .ok c) {z : β} (hz : c.item? k = some z) :
    ∃ x xs, a.item? k = some x ∧ ItemsAt k as xs ∧ xs.foldl f x = z := by
  induction as generalizing a with
  | nil =>
    cases h
    exact ⟨z, [], hz, .nil, rfl⟩
  | cons b as ih =>
    rw [List.foldlM_cons] at h
    obtain ⟨e, he, h⟩ := bind_eq_ok.1 h
    obtain ⟨w, xs, hw, hxs, rfl⟩ := ih h
    obtain ⟨x, y, hx, hy, rfl⟩ := item?_zipWith he hw
    exact ⟨x, y :: xs, hx, .cons hy hxs, rfl⟩

theorem foldlM_scalar (id : Nat) (f : β → β → β) (x : β) (xs : List β) :
    (xs.map scalar).foldlM (zipWith id f) (scalar x) = .ok (scalar (xs.foldl f x)) := by
  induction xs generalizing x with
  | nil => rfl
  | cons y xs ih => exact ih (f x y)

end Shaped

open Shaped (ItemsAt)

variable {α : Type} {d : Dataset α} {row k : Nat}

namespace Symbol

def isAggregate : Symbol α → Bool
  | aggregate _ => true
  | _ => false

/-- Where a whole vector is read, the leaf that reads element `k` of it, or its only one. -/
def atElement (d : Dataset α) (row k : Nat) : Symbol α → Symbol α
  | column name w lag none =>
    if d.hasType name .vector then
      let entry := (d.laggedRow row lag >>= d.vector name).toOption
      column name w lag (some (if entry.map List.length = some 1 then 0 else k))
    else column name w lag none
  | s => s

@[simp] theorem isLeaf_atElement (s : Symbol α) :
    (s.atElement d row k).isLeaf = s.isLeaf := by
  unfold atElement
  split
  · split_ifs <;> rfl
  · rfl

end Symbol

namespace Tree

mutual

/-- The tree with element `k` in place of each whole vector that a leaf reads, except under
aggregates, which take whole vectors. -/
def atElement (d : Dataset α) (row k : Nat) : Tree α → Tree α
  | node s cs =>
    if s.isAggregate then node s cs else node (s.atElement d row k) (atElementAll d row k cs)

def atElementAll (d : Dataset α) (row k : Nat) : List (Tree α) → List (Tree α)
  | [] => []
  | t :: ts => atElement d row k t :: atElementAll d row k ts

end

mutual

theorem reach_atElement : ∀ t : Tree α, (t.atElement d row k).reach = t.reach
  | node s cs => by
    unfold atElement
    split_ifs
    · rfl
    · rw [reach, reach, Symbol.isLeaf_atElement, reaches_atElementAll cs]

theorem reaches_atElementAll : ∀ ts : List (Tree α), reaches (atElementAll d row k ts) = reaches ts
  | [] => rfl
  | t :: ts => by
    rw [atElementAll, reaches, reaches, reach_atElement t, reaches_atElementAll ts]

end

end Tree

variable [Scalar α]

namespace Symbol

/-- An operation other than an aggregate acts on the items at each place. -/
theorem combine_items {id : Nat} {s : Symbol α} {vs : List (Shaped α)} {v : Shaped α}
    (h : s.combine id vs = .ok v) (hs : s.isAggregate = false) {z : α} (hz : v.item? k = some z) :
    ∃ xs, ItemsAt k vs xs ∧ s.combine id (xs.map .scalar) = .ok (.scalar z) := by
  have hmap : ∀ {f : α → α} {a : Shaped α}, (a.map f).item? k = some z →
      ∃ x, a.item? k = some x ∧ f x = z := by
    intro f a hz
    rw [Shaped.item?_map] at hz
    exact Option.map_eq_some_iff.1 hz
  unfold combine at h
  split at h
  case h_1 op a | h_4 f a | h_5 a =>
    cases h
    obtain ⟨x, hx, rfl⟩ := hmap hz
    exact ⟨[x], .cons hx .nil, rfl⟩
  case h_2 op a rest hrest =>
    obtain ⟨x, xs, hx, hxs, rfl⟩ := Shaped.item?_foldlM h hz
    refine ⟨x :: xs, .cons hx hxs, ?_⟩
    -- a single argument would be treated apart
    cases hxs with
    | nil => exact (hrest rfl).elim
    | cons _ _ => exact Shaped.foldlM_scalar id op.apply x _
  case h_3 op a b =>
    obtain ⟨x, y, hx, hy, rfl⟩ := Shaped.item?_zipWith h hz
    exact ⟨[x, y], .cons hx (.cons hy .nil), rfl⟩
  case h_6 a n | h_7 a n =>
    cases h
    obtain ⟨x, hx, rfl⟩ := hmap hz
    exact ⟨[x, n], .cons hx (.cons rfl .nil), rfl⟩
  case h_8 => cases hs
  case h_9 a =>
    cases h
    exact ⟨[z], .cons hz .nil, rfl⟩
  case h_10 c a b =>
    obtain ⟨ca, hca, h⟩ := bind_eq_ok.1 h
    obtain ⟨cab, hcab, h⟩ := bind_eq_ok.1 h
    cases h
    rw [Shaped.item?_map] at hz
    obtain ⟨⟨⟨u, x⟩, y⟩, hp, rfl⟩ := Option.map_eq_some_iff.1 hz
    obtain ⟨hux, hy⟩ := Shaped.item?_broadcast hcab hp
    obtain ⟨hu, hx⟩ := Shaped.item?_broadcast hca hux
    exact ⟨[u, x, y], .cons hu (.cons hx (.cons hy .nil)), rfl⟩
  case h_11 => cases h

theorem shape_of_aggregate {id : Nat} {s : Symbol α} {vs : List (Shaped α)} {v : Shaped α}
    (h : s.combine id vs = .ok v) (hs : s.isAggregate = true) : v.shape = .scalar := by
  cases s with
  | aggregate g =>
    rcases vs with _ | ⟨a, _ | ⟨b, vs⟩⟩ <;> cases h
    rfl
  | _ => cases hs

theorem atElement_of_leaf?_eq_none {id : Nat} {s : Symbol α}
    (h : s.leaf? d row id = none) : s.atElement d row k = s := by
  cases s <;> first | rfl | cases h

theorem leaf?_atElement {id : Nat} {s : Symbol α} {v : Shaped α}
    (h : s.leaf? d row id = some (.ok v)) {z : α} (hz : v.item? k = some z) :
    (s.atElement d row k).leaf? d row id = some (.ok (.scalar z)) := by
  by_cases hw : ∃ name w lag, s = column name w lag none ∧ d.hasType name .vector = true
  · obtain ⟨name, w, lag, rfl, ht⟩ := hw
    obtain ⟨r, hr, h⟩ := bind_eq_ok.1 (Option.some.inj h)
    have htype : d.typeOf? name = some .vector := of_decide_eq_true ht
    simp only [htype] at h
    obtain ⟨xs, hxs, h⟩ := bind_eq_ok.1 h
    cases h
    have hentry : (d.laggedRow row lag >>= d.vector name).toOption = some xs := by
      rw [bind_eq_ok.2 ⟨r, hr, hxs⟩]
      rfl
    rw [show Shaped.vector (xs.map (w * ·)) = (Shaped.vector xs).map (w * ·) from rfl,
      Shaped.item?_map] at hz
    obtain ⟨x, hx, rfl⟩ := Option.map_eq_some_iff.1 hz
    have hread : ∀ i : Nat, xs[i]? = some x →
        readColumn d row name w lag (some i) = .ok (.scalar (w * x)) := fun i hi => by
      simp [readColumn, hr, htype, hxs, Dataset.element, hi, bind, Except.bind, pure, Except.pure]
    have hlen : (some xs).map List.length = some 1 ↔ xs.length = 1 := by simp
    rw [atElement, if_pos ht, hentry]
    simp only [hlen]
    exact congrArg some (hread _ hx)
  · have hs : s.atElement d row k = s := by
      unfold atElement
      split
      · exact if_neg fun ht => hw ⟨_, _, _, rfl, ht⟩
      · rfl
    have hv : v.shape = .scalar :=
      shape_of_leaf? h fun name w lag hs ht => hw ⟨name, w, lag, hs, ht⟩
    rw [hs, h, Shaped.eq_scalar_of_item? hv hz]

end Symbol

namespace Tree

mutual

/-- Whatever place of the value is looked at, the tree that reads the elements there has the item
found there as its value. -/
theorem evaluateAt_atElement : ∀ (t : Tree α) (id : Nat) {v : Shaped α} {shapes : List Shape}
    {z : α}, t.evaluateAt d row id = .ok (v, shapes) → v.item? k = some z →
      ∃ shapes', (t.atElement d row k).evaluateAt d row id = .ok (.scalar z, shapes')
  | node s cs, id, v, shapes, z, h, hz => by
    rw [atElement]
    obtain ⟨hv, -⟩ | ⟨hn, vs, shapes', hvs, hv, -⟩ := evaluateAt_ok.1 h
    · have hs : s.isAggregate = false := by cases s <;> first | rfl | cases hv
      rw [if_neg (by simp [hs])]
      exact ⟨_, evaluateAt_ok.2 (.inl ⟨Symbol.leaf?_atElement hv hz, rfl⟩)⟩
    · cases hs : s.isAggregate
      · obtain ⟨xs, hxs, hx⟩ := Symbol.combine_items hv hs hz
        obtain ⟨shapes'', hvs'⟩ := evaluateAllAt_atElement cs (id + 1) hvs hxs
        rw [if_neg nofun, Symbol.atElement_of_leaf?_eq_none hn]
        exact ⟨_, evaluateAt_ok.2 (.inr ⟨hn, _, _, hvs', hx, rfl⟩)⟩
      · rw [if_pos rfl, h, Shaped.eq_scalar_of_item? (Symbol.shape_of_aggregate hv hs) hz]
        exact ⟨_, rfl⟩

theorem evaluateAllAt_atElement : ∀ (ts : List (Tree α)) (id : Nat) {vs : List (Shaped α)}
    {shapes : List Shape} {xs : List α}, evaluateAllAt d row id ts = .ok (vs, shapes) →
      ItemsAt k vs xs → ∃ shapes', evaluateAllAt d row id (atElementAll d row k ts) =
        .ok (xs.map .scalar, shapes')
  | [], id, vs, shapes, xs, h, hxs => by
    rw [evaluateAllAt] at h
    cases h
    cases hxs
    exact ⟨[], rfl⟩
  | t :: ts, id, vs, shapes, xs, h, hxs => by
    obtain ⟨v, vs', shapes', shapes'', hv, hvs, rfl, -⟩ := evaluateAllAt_cons_ok.1 h
    obtain _ | ⟨hx, hxs⟩ := hxs
    obtain ⟨_, hv'⟩ := evaluateAt_atElement t id hv hx
    obtain ⟨_, hvs'⟩ := evaluateAllAt_atElement ts (id + t.reach) hvs hxs
    rw [atElementAll, List.map_cons]
    exact ⟨_, evaluateAllAt_cons_ok.2 ⟨_, _, _, _, hv', by rwa [reach_atElement], rfl, rfl⟩⟩

end

/-- Vectors are evaluated element by element: element `k` of the value of a tree is the value of
the tree whose leaves read element `k`. -/
theorem evaluateAt_elementwise (t : Tree α) (d : Dataset α) (row : Nat) (v : List α)
    (shapes : List Shape) (h : t.evaluateAt d row 0 = .ok (.vector v, shapes)) (k : Nat)
    (hk : k < v.length) : (t.atElement d row k).valueAt d row = .ok v[k] := by
  obtain ⟨shapes', h'⟩ := evaluateAt_atElement t 0 h (Shaped.item?_vector hk)
  rw [valueAt, h']
  rfl

end Tree

section Pair

/-- The tree `2 v + u' + sum v`, where `v` and `u` are vectors and `u'` is read one row later. -/
def pairTree : Tree Float :=
  .node (.fold .add) [.node (.column "v" 2 0 none) [], .node (.column "u" 1 1 none) [],
    .node (.aggregate .sum) [.node (.column "v" 1 0 none) []]]

def pairData : Dataset Float where
  rows := some 2
  columns := [("v", .vectors #[[1, 2], [3, 4]]), ("u", .vectors #[[7, 8], [5]])]

theorem pairTree_evaluateAt : pairTree.evaluateAt pairData 0 0 =
    .ok (.vector [10, 12], [.vector 2, .vector 2, .vector 1, .scalar, .vector 2]) := by
  decide +kernel

theorem evaluateAt_elementwise_pair :
    (pairTree.evaluateAt pairData 0 0).isOk = true ∧
      (pairTree.atElement pairData 0 1).valueAt pairData 0 = .ok 12 := by
  exact ⟨by rw [pairTree_evaluateAt]; rfl,
    Tree.evaluateAt_elementwise pairTree pairData 0 _ _ pairTree_evaluateAt 1 (by decide)⟩

end Pair

end SymbolicFit
