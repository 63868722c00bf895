import Mathlib
import SymbolicFit.Proofs.FloatSquares
import SymbolicFit.Proofs.RecordedShapes
import SymbolicFit.Proofs.VectorElements

/-!
Logic symbols on scalar operands. Conjunctions and disjunctions follow their Boolean meaning on any
numbers; a negation does so on numbers only, since what is not a number is neither above zero nor at
most zero. Nested symbols form a Boolean algebra where only numbers are negated.
-/

namespace SymbolicFit

open FloatOrder

variable {d : Dataset Float} {row : Nat}

section Truth

/-- A number counts as true if it is positive. -/
def positive {α : Type} [Scalar α] (x : α) : Bool := 0 < x

theorem positive_iff (x : Float) : positive x = true ↔ 0 < x := by
  change decide (0 < x) = true ↔ 0 < x
  exact decide_eq_true_iff

theorem positive_of_le_zero {x : Float} (h : x ≤ 0) : positive x = false :=
  Bool.eq_false_iff.2 fun hx => not_lt_of_le h ((positive_iff x).1 hx)

theorem positive_truthValue (b : Bool) : positive (truthValue b : Float) = b := by
  cases b <;> decide

theorem isNaN_truthValue (b : Bool) : (truthValue b : Float).isNaN = false := by
  cases b <;> decide

theorem truthValue_inj {b c : Bool} : (truthValue b : Float) = truthValue c ↔ b = c := by
  refine ⟨fun h => ?_, congrArg truthValue⟩
  rw [← positive_truthValue b, h, positive_truthValue]

theorem not_le_zero_of_isNaN {x : Float} (h : x.isNaN = true) : ¬x ≤ 0 ∧ ¬0 < x := by
  change x.toModel.unpack.isNaN = true at h
  rw [le_iff, lt_iff]
  cases hu : x.toModel.unpack with
  | notANumber => exact ⟨nofun, nofun⟩
  | infinity | zero | finite =>
    rw [hu] at h
    cases h

/-- Being at most zero is the negation of being positive on numbers only. -/
theorem le_zero_eq_not_iff (x : Float) : decide (x ≤ 0) = !positive x ↔ x.isNaN = false := by
  by_cases hle : x ≤ 0
  · have hx : x.isNaN = false :=
      Bool.eq_false_iff.2 fun hx => (not_le_zero_of_isNaN hx).1 hle
    rw [decide_eq_true hle, positive_of_le_zero hle, hx]
    exact iff_of_true rfl rfl
  · rw [decide_eq_false hle]
    cases hx : x.isNaN with
    | true =>
      have hlt : positive x = false :=
        Bool.eq_false_iff.2 fun h => (not_le_zero_of_isNaN hx).2 ((positive_iff x).1 h)
      rw [hlt]
      exact iff_of_false nofun nofun
    | false =>
      have hlt : positive x = true :=
        (positive_iff x).2 (by_contra fun h => hle (le_of_not_lt hx (by decide) h))
      rw [hlt]
      exact iff_of_true rfl rfl

end Truth

section Combine

/-- A fold of truth values is the truth value of a fold of Booleans, also on one operand. -/
theorem combine_logic (op : FoldOp) (g : Bool → Bool → Bool)
    (hsingle : ∀ x : Float, op.single x = truthValue (positive x))
    (happly : ∀ x y : Float, op.apply x y = truthValue (g (positive x) (positive y)))
    (id : Nat) (x : Float) (xs : List Float) :
    (Symbol.fold op).combine id ((x :: xs).map .scalar) =
      .ok (.scalar (truthValue (xs.foldl (fun b y => g b (positive y)) (positive x)))) := by
  have hfold : ∀ (ys : List Float) (b : Bool), ys.foldl op.apply (truthValue b) =
      truthValue (ys.foldl (fun b y => g b (positive y)) b) := by
    intro ys
    induction ys with
    | nil => exact fun b => rfl
    | cons y ys ih =>
      intro b
      rw [List.foldl_cons, happly, positive_truthValue, ih, List.foldl_cons]
  cases xs with
  | nil => exact congrArg (fun z => Except.ok (Shaped.scalar z)) (hsingle x)
  | cons y ys =>
    change ((y :: ys).map Shaped.scalar).foldlM (Shaped.zipWith id op.apply) (.scalar x) = _
    rw [Shaped.foldlM_scalar, List.foldl_cons, happly, hfold, List.foldl_cons]

theorem foldl_and_positive (b : Bool) (xs : List Float) :
    xs.foldl (fun b y => b && positive y) b = (b && xs.all positive) := by
  induction xs generalizing b with
  | nil => rw [List.foldl_nil, List.all_nil, Bool.and_true]
  | cons x xs ih => rw [List.foldl_cons, ih, List.all_cons, Bool.and_assoc]

theorem foldl_or_positive (b : Bool) (xs : List Float) :
    xs.foldl (fun b y => b || positive y) b = (b || xs.any positive) := by
  induction xs generalizing b with
  | nil => rw [List.foldl_nil, List.any_nil, Bool.or_false]
  | cons x xs ih => rw [List.foldl_cons, ih, List.any_cons, Bool.or_assoc]

end Combine

namespace Tree

section Values

/-- The operands have these values, all of them scalars. -/
def HaveValues (d : Dataset Float) (row : Nat) (ts : List (Tree Float)) (xs : List Float) : Prop :=
  List.Forall₂ (fun t x => t.valueAt d row = .ok x) ts xs

theorem HaveValues.evaluateAllAt {ts : List (Tree Float)} {xs : List Float}
    (h : HaveValues d row ts xs) (id : Nat) :
    ∃ shapes, evaluateAllAt d row id ts = .ok (xs.map .scalar, shapes) := by
  induction h generalizing id with
  | nil => exact ⟨[], rfl⟩
  | @cons t x ts xs ht _ ih =>
    obtain ⟨shapes, hshapes⟩ := valueAt_eq_ok.1 ht
    obtain ⟨shapes', hrest⟩ := ih (id + t.reach)
    have hfirst := evaluateAt_position t id hshapes
    exact ⟨_, evaluateAllAt_cons_ok.2 ⟨_, _, _, _, hfirst, hrest, rfl, rfl⟩⟩

/-- An operation on scalar operands has the value that it makes of theirs. -/
theorem HaveValues.valueAt_node {ts : List (Tree Float)} {xs : List Float}
    (h : HaveValues d row ts xs) {s : Symbol Float} (hs : s.leaf? d row 0 = none) {x : Float}
    (hx : s.combine 0 (xs.map .scalar) = .ok (.scalar x)) :
    (node s ts).valueAt d row = .ok x := by
  obtain ⟨shapes, hshapes⟩ := h.evaluateAllAt 1
  exact valueAt_eq_ok.2 ⟨_, evaluateAt_ok.2 (.inr ⟨hs, _, _, hshapes, hx, rfl⟩)⟩

/-- True if all of the operands are. -/
def allOf (ts : List (Tree Float)) : Tree Float := node (.fold .and) ts

/-- True if one of the operands is. -/
def anyOf (ts : List (Tree Float)) : Tree Float := node (.fold .or) ts

/-- True if the operand is not. -/
def negation (t : Tree Float) : Tree Float := node .not [t]

variable {t : Tree Float} {ts : List (Tree Float)} {x : Float} {xs : List Float}

theorem HaveValues.exists_cons (h : HaveValues d row ts xs) (hts : ts ≠ []) :
    ∃ x xs', xs = x :: xs' := by
  cases h with
  | nil => exact absurd rfl hts
  | cons => exact ⟨_, _, rfl⟩

theorem valueAt_allOf (h : HaveValues d row ts xs) (hts : ts ≠ []) :
    (allOf ts).valueAt d row = .ok (truthValue (xs.all positive)) := by
  obtain ⟨x, xs, rfl⟩ := h.exists_cons hts
  have hvalue := combine_logic .and and (fun _ => rfl) (fun _ _ => rfl) 0 x xs
  rw [foldl_and_positive] at hvalue
  exact h.valueAt_node rfl hvalue

theorem valueAt_anyOf (h : HaveValues d row ts xs) (hts : ts ≠ []) :
    (anyOf ts).valueAt d row = .ok (truthValue (xs.any positive)) := by
  obtain ⟨x, xs, rfl⟩ := h.exists_cons hts
  have hvalue := combine_logic .or or (fun _ => rfl) (fun _ _ => rfl) 0 x xs
  rw [foldl_or_positive] at hvalue
  exact h.valueAt_node rfl hvalue

theorem valueAt_negation (h : t.valueAt d row = .ok x) :
    (negation t).valueAt d row = .ok (truthValue (decide (x ≤ 0))) :=
  HaveValues.valueAt_node (.cons h .nil) rfl rfl

end Values

end Tree

section Negations

theorem truthValue_le_zero (b : Bool) : decide ((truthValue b : Float) ≤ 0) = !b := by
  rw [(le_zero_eq_not_iff _).2 (isNaN_truthValue b), positive_truthValue]

/-- A negated conjunction is the disjunction of the negations if all operands are numbers, or if one
of them is at most zero. -/
theorem not_all_positive_iff (xs : List Float) :
    (!xs.all positive) = xs.any (fun x => decide (x ≤ 0)) ↔
      (∀ x ∈ xs, x.isNaN = false) ∨ ∃ x ∈ xs, x ≤ 0 := by
  by_cases hle : ∃ x ∈ xs, x ≤ 0
  · obtain ⟨x, hx, h⟩ := hle
    have hall : xs.all positive = false :=
      List.all_eq_false.2 ⟨x, hx, Bool.eq_false_iff.1 (positive_of_le_zero h)⟩
    have hany : xs.any (fun x => decide (x ≤ 0)) = true :=
      List.any_eq_true.2 ⟨x, hx, decide_eq_true h⟩
    rw [hall, hany]
    exact iff_of_true rfl (.inr ⟨x, hx, h⟩)
  · have hnot : ∀ x ∈ xs, decide (x ≤ 0) = false :=
      fun x hx => decide_eq_false fun h => hle ⟨x, hx, h⟩
    have hany : xs.any (fun x => decide (x ≤ 0)) = false :=
      List.any_eq_false.2 fun x hx => by simp [hnot x hx]
    -- None is at most zero, so the numbers are the positive ones.
    have hnumber : ∀ x ∈ xs, positive x = true ↔ x.isNaN = false := fun x hx => by
      rw [← le_zero_eq_not_iff, hnot x hx, eq_comm (a := false), Bool.not_eq_false']
    rw [hany, Bool.not_eq_false', List.all_eq_true, or_iff_left hle]
    exact forall₂_congr hnumber

/-- A number or its negation is positive. -/
theorem positive_or_le_zero_iff (x : Float) :
    (positive x || decide (x ≤ 0)) = true ↔ x.isNaN = false := by
  rw [← le_zero_eq_not_iff]
  cases hx : positive x with
  | true =>
    have hle : ¬x ≤ 0 := fun h => Bool.false_ne_true ((positive_of_le_zero h).symm.trans hx)
    simp [hle]
  | false => simp

end Negations

/-- What the logic symbols do with the values of their operands. -/
structure Connectives (γ : Type) where
  not : γ → γ
  and : List γ → γ
  or : List γ → γ

namespace Connectives

def ofTrees : Connectives (Tree Float) := ⟨Tree.negation, Tree.allOf, Tree.anyOf⟩

def ofNumbers : Connectives Float where
  not x := truthValue (x ≤ 0)
  and xs := truthValue (xs.all positive)
  or xs := truthValue (xs.any positive)

def ofBooleans : Connectives Bool := ⟨(!·), (·.all id), (·.any id)⟩

end Connectives

/-- Logic symbols nested around operands. -/
inductive Formula (β : Type) where
  | operand (b : β)
  | not (f : Formula β)
  /-- A conjunction, of one operand or more. -/
  | and (f : Formula β) (fs : List (Formula β))
  | or (f : Formula β) (fs : List (Formula β))

namespace Formula

open Connectives

variable {β γ : Type}

section Reading

mutual

/-- A formula read with a meaning of the symbols and of the operands. -/
def read (c : Connectives γ) (v : β → γ) : Formula β → γ
  | operand b => v b
  | not f => c.not (f.read c v)
  | and f fs => c.and (f.read c v :: readAll c v fs)
  | or f fs => c.or (f.read c v :: readAll c v fs)

def readAll (c : Connectives γ) (v : β → γ) : List (Formula β) → List γ
  | [] => []
  | f :: fs => f.read c v :: readAll c v fs

end

theorem readAll_eq (c : Connectives γ) (v : β → γ) (fs : List (Formula β)) :
    readAll c v fs = fs.map (read c v) := by
  induction fs with
  | nil => rfl
  | cons f fs ih => rw [readAll, ih, List.map_cons]

variable {e : β → Tree Float} {v : β → Float}

mutual

/-- A formula has the value that the values of its operands give it. -/
theorem valueAt_read (hv : ∀ b, (e b).valueAt d row = .ok (v b)) (f : Formula β) :
    (f.read ofTrees e).valueAt d row = .ok (f.read ofNumbers v) := by
  cases f with
  | operand b => exact hv b
  | not f => exact Tree.valueAt_negation (valueAt_read hv f)
  | and f fs => exact Tree.valueAt_allOf (haveValues_readAll hv (f :: fs)) nofun
  | or f fs => exact Tree.valueAt_anyOf (haveValues_readAll hv (f :: fs)) nofun

theorem haveValues_readAll (hv : ∀ b, (e b).valueAt d row = .ok (v b)) (fs : List (Formula β)) :
    Tree.HaveValues d row (readAll ofTrees e fs) (readAll ofNumbers v fs) := by
  cases fs with
  | nil => exact .nil
  | cons f fs => exact .cons (valueAt_read hv f) (haveValues_readAll hv fs)

end

end Reading

section Meaning

variable {v : β → Float}

/-- Whatever is negated is a number. Other operands need not be. -/
inductive NegatesNumbers (v : β → Float) : Formula β → Prop where
  | operand (b : β) : NegatesNumbers v (operand b)
  | not {f : Formula β} : NegatesNumbers v f → (f.read ofNumbers v).isNaN = false →
      NegatesNumbers v (not f)
  | and {f : Formula β} {fs : List (Formula β)} : (∀ g ∈ f :: fs, NegatesNumbers v g) →
      NegatesNumbers v (and f fs)
  | or {f : Formula β} {fs : List (Formula β)} : (∀ g ∈ f :: fs, NegatesNumbers v g) →
      NegatesNumbers v (or f fs)

theorem read_and (c : Connectives γ) (v : β → γ) (f : Formula β) (fs : List (Formula β)) :
    (and f fs).read c v = c.and ((f :: fs).map (read c v)) := by
  rw [read, readAll_eq, List.map_cons]

theorem read_or (c : Connectives γ) (v : β → γ) (f : Formula β) (fs : List (Formula β)) :
    (or f fs).read c v = c.or ((f :: fs).map (read c v)) := by
  rw [read, readAll_eq, List.map_cons]

theorem map_read_ofBooleans {fs : List (Formula β)}
    (h : ∀ g ∈ fs, positive (g.read ofNumbers v) = g.read ofBooleans (positive ∘ v)) :
    fs.map (read ofBooleans (positive ∘ v)) = fs.map (positive ∘ read ofNumbers v) :=
  (List.map_congr_left h).symm

/-- A formula is true exactly if its reading over Booleans is. -/
theorem NegatesNumbers.positive_read {f : Formula β} (h : f.NegatesNumbers v) :
    positive (f.read ofNumbers v) = f.read ofBooleans (positive ∘ v) := by
  induction h with
  | operand b => rfl
  | @not f _ hnumber ih =>
    change positive (truthValue (decide (f.read ofNumbers v ≤ 0))) = !f.read ofBooleans _
    rw [positive_truthValue, (le_zero_eq_not_iff _).2 hnumber, ih]
  | @and f fs _ ih =>
    rw [read_and, read_and, map_read_ofBooleans ih]
    change positive (truthValue _) = List.all _ id
    rw [positive_truthValue, List.all_map, List.all_map]
    rfl
  | @or f fs _ ih =>
    rw [read_or, read_or, map_read_ofBooleans ih]
    change positive (truthValue _) = List.any _ id
    rw [positive_truthValue, List.any_map, List.any_map]
    rfl

/-- The value of a symbol is a truth value. -/
theorem read_eq_truthValue (f : Formula β) (hf : ∀ b, f ≠ operand b) :
    f.read ofNumbers v = truthValue (positive (f.read ofNumbers v)) := by
  have htruth : ∃ b, f.read ofNumbers v = truthValue b := by
    cases f with
    | operand b => exact absurd rfl (hf b)
    | not | and | or => exact ⟨_, rfl⟩
  obtain ⟨b, hb⟩ := htruth
  rw [hb, positive_truthValue]

end Meaning

section Laws

/-- The values of formulas over operands `e` that have the values `v`. What is not a number counts
as false in a conjunction or disjunction, and so does its negation. -/
structure Laws (d : Dataset Float) (row : Nat) (e : β → Tree Float) (v : β → Float) : Prop where
  value (f : Formula β) : (f.read ofTrees e).valueAt d row = .ok (f.read ofNumbers v)
  and_value (f : Formula β) (fs : List (Formula β)) : ((and f fs).read ofTrees e).valueAt d row =
    .ok (if ∀ g ∈ f :: fs, 0 < g.read ofNumbers v then 1 else -1)
  or_value (f : Formula β) (fs : List (Formula β)) : ((or f fs).read ofTrees e).valueAt d row =
    .ok (if ∃ g ∈ f :: fs, 0 < g.read ofNumbers v then 1 else -1)
  not_value (f : Formula β) : ((not f).read ofTrees e).valueAt d row =
    .ok (if f.read ofNumbers v ≤ 0 then 1 else -1)
  not_value_iff (f : Formula β) : ((not f).read ofTrees e).valueAt d row =
    .ok (if 0 < f.read ofNumbers v then -1 else 1) ↔ (f.read ofNumbers v).isNaN = false
  /-- While only numbers are negated, nested symbols compute their Boolean formula. -/
  boolean (f : Formula β) (hf : ∀ b, f ≠ operand b) (hn : f.NegatesNumbers v) :
    (f.read ofTrees e).valueAt d row = .ok (truthValue (f.read ofBooleans (positive ∘ v)))
  not_and_iff (f : Formula β) (fs : List (Formula β)) :
    ((not (and f fs)).read ofTrees e).valueAt d row =
      ((or (not f) (fs.map not)).read ofTrees e).valueAt d row ↔
    (∀ g ∈ f :: fs, (g.read ofNumbers v).isNaN = false) ∨ ∃ g ∈ f :: fs, g.read ofNumbers v ≤ 0
  or_not_iff (f : Formula β) : ((or f [not f]).read ofTrees e).valueAt d row = .ok 1 ↔
    (f.read ofNumbers v).isNaN = false

theorem truthValue_not_iff (x : Float) : (truthValue (x ≤ 0) : Float) =
    (if 0 < x then -1 else 1) ↔ x.isNaN = false := by
  have hdocumented : (if 0 < x then -1 else 1 : Float) = truthValue (!positive x) := by
    by_cases hx : 0 < x
    · rw [if_pos hx, (positive_iff x).2 hx]
      rfl
    · rw [if_neg hx, Bool.eq_false_iff.2 (mt (positive_iff x).1 hx)]
      rfl
  rw [hdocumented, truthValue_inj, le_zero_eq_not_iff]

theorem truthValue_all_read (v : β → Float) (fs : List (Formula β)) :
    (truthValue ((fs.map (read ofNumbers v)).all positive) : Float) =
      if ∀ g ∈ fs, 0 < g.read ofNumbers v then 1 else -1 := by
  rw [truthValue]
  refine if_congr ?_ rfl rfl
  rw [List.all_map, List.all_eq_true]
  exact forall₂_congr fun g _ => positive_iff _

theorem truthValue_any_read (v : β → Float) (fs : List (Formula β)) :
    (truthValue ((fs.map (read ofNumbers v)).any positive) : Float) =
      if ∃ g ∈ fs, 0 < g.read ofNumbers v then 1 else -1 := by
  rw [truthValue]
  refine if_congr ?_ rfl rfl
  rw [List.any_map, List.any_eq_true]
  exact exists_congr fun g => and_congr_right fun _ => positive_iff _

/-- De Morgan's law for the values of a conjunction's operands. -/
theorem read_not_and_iff (v : β → Float) (f : Formula β) (fs : List (Formula β)) :
    (not (and f fs)).read ofNumbers v = (or (not f) (fs.map not)).read ofNumbers v ↔
      (∀ g ∈ f :: fs, (g.read ofNumbers v).isNaN = false) ∨
        ∃ g ∈ f :: fs, g.read ofNumbers v ≤ 0 := by
  have hnot : (not (and f fs)).read ofNumbers v =
      truthValue (!((f :: fs).map (read ofNumbers v)).all positive) := by
    rw [read, read_and]
    exact congrArg truthValue (truthValue_le_zero _)
  have hor : (or (not f) (fs.map not)).read ofNumbers v =
      truthValue (((f :: fs).map (read ofNumbers v)).any fun x => decide (x ≤ 0)) := by
    rw [read_or, ← List.map_cons, List.map_map]
    change truthValue (List.any _ positive) = _
    rw [List.any_map, List.any_map]
    congr 1
    exact List.any_congr rfl fun g => positive_truthValue _
  rw [hnot, hor, truthValue_inj, not_all_positive_iff, List.forall_mem_map]
  simp only [List.mem_map, exists_exists_and_eq_and]

/-- The logic symbols over operands with scalar values of any kind, nested in any way. -/
theorem logic_values {e : β → Tree Float} {v : β → Float}
    (hv : ∀ b, (e b).valueAt d row = .ok (v b)) : Laws d row e v where
  value := valueAt_read hv
  and_value f fs := by
    rw [valueAt_read hv, ← truthValue_all_read, read_and]
    rfl
  or_value f fs := by
    rw [valueAt_read hv, ← truthValue_any_read, read_or]
    rfl
  not_value f := by
    rw [valueAt_read hv, read]
    exact congrArg Except.ok (if_congr decide_eq_true_iff rfl rfl)
  not_value_iff f := by
    rw [valueAt_read hv, Except.ok.injEq]
    exact truthValue_not_iff _
  boolean f hf hn := by
    rw [valueAt_read hv, read_eq_truthValue f hf, hn.positive_read]
  not_and_iff f fs := by
    rw [valueAt_read hv, valueAt_read hv, Except.ok.injEq]
    exact read_not_and_iff v f fs
  or_not_iff f := by
    rw [valueAt_read hv, Except.ok.injEq, ← positive_or_le_zero_iff, ← truthValue_inj, read_or]
    change truthValue (_ || (positive (truthValue _) || false)) = _ ↔ _
    rw [positive_truthValue, Bool.or_false]
    rfl

def leaf (x : Float) : Tree Float := .node (.constant x) []

theorem logic_values_constants :
    (∀ x, (leaf x).valueAt .empty 0 = .ok x) ∧ Laws .empty 0 leaf id ∧
      ((or (operand Scalar.undefined) [not (operand 1)]).read ofTrees leaf).valueAt .empty 0 =
        .ok (-1) := by
  have laws : Laws .empty 0 leaf id := logic_values fun x => rfl
  have hnegates : (or (operand Scalar.undefined) [not (operand 1)]).NegatesNumbers id := by
    refine .or (List.forall_mem_cons.2 ⟨.operand _, List.forall_mem_singleton.2 ?_⟩)
    exact .not (.operand 1) (by decide)
  refine ⟨fun x => rfl, laws, (laws.boolean _ (fun _ h => ?_) hnegates).trans ?_⟩
  · cases h
  · exact congrArg Except.ok (by decide)

/-- The negation of what is not a number is as false as it is, so that neither De Morgan's law nor
the excluded middle holds of it. -/
theorem negation_undefined : ¬(0 : Float) < Scalar.undefined ∧
    (Tree.negation (leaf Scalar.undefined)).valueAt .empty 0 = .ok (-1) ∧
    (Tree.negation (Tree.allOf [leaf Scalar.undefined])).valueAt .empty 0 = .ok 1 ∧
    (Tree.anyOf [Tree.negation (leaf Scalar.undefined)]).valueAt .empty 0 = .ok (-1) ∧
    (Tree.anyOf [leaf Scalar.undefined, Tree.negation (leaf Scalar.undefined)]).valueAt .empty 0 =
      .ok (-1) := by
  decide +kernel

end Laws

end Formula

end SymbolicFit
