import Mathlib
import SymbolicFit.Proofs.RowReads

/-!
The rows of a matrix against the rows it was made of. Rows laid end to end keep their entries in
order whatever their lengths, and only rows of one length are cut out again at their own ends.
-/

namespace SymbolicFit

variable {α : Type}

namespace DesignMatrix

/-- The length of the first row. -/
def width (rows : List (List α)) : Nat := rows.head?.elim 0 List.length

theorem ofRows_eq_ok {rows : List (List α)} {x : DesignMatrix α} : ofRows rows = .ok x ↔
    rows.flatten.length = rows.length * width rows ∧
      x = ⟨rows.flatten.toArray, rows.length, width rows⟩ := by
  rw [ofRows, ofData_eq_ok, List.size_toArray, width]

theorem length_row {x : DesignMatrix α} (h : x.data.size = x.rows * x.cols) {i : Nat}
    (hi : i < x.rows) : (x.row i).length = x.cols := by
  have hend : (i + 1) * x.cols ≤ x.data.size := h ▸ Nat.mul_le_mul_right _ hi
  rw [row, Array.length_toList, Array.size_extract, Nat.min_eq_left hend, Nat.add_mul, one_mul,
    Nat.add_sub_cancel_left]

/-- The first rows of a matrix, one after the other. -/
theorem flatMap_row (x : DesignMatrix α) (n : Nat) :
    (List.range n).flatMap x.row = x.data.toList.take (n * x.cols) := by
  induction n with
  | zero => simp
  | succ n ih =>
    have hrow : x.row n = (x.data.toList.drop (n * x.cols)).take x.cols := by
      simp [row, Nat.add_mul]
    rw [List.range_succ, List.flatMap_append, ih, List.flatMap_singleton, hrow, Nat.add_mul,
      one_mul, List.take_add]

theorem width_eq {rows : List (List α)} (h : ∀ r ∈ rows, ∀ s ∈ rows, r.length = s.length) :
    ∀ r ∈ rows, r.length = width rows := by
  cases rows with
  | nil => simp
  | cons s rows => exact fun r hr => h r hr s List.mem_cons_self

/-- The rows come back exactly if they have one length. -/
theorem row_eq_iff {rows : List (List α)} {x : DesignMatrix α} (h : ofRows rows = .ok x) :
    (∀ i (hi : i < rows.length), x.row i = rows[i]) ↔
      ∀ r ∈ rows, ∀ s ∈ rows, r.length = s.length := by
  obtain ⟨hsize, hx⟩ := ofRows_eq_ok.1 h
  refine ⟨fun hrow => ?_, fun heq i hi => row_of_ofData h (width_eq heq) hi⟩
  have hlength : ∀ r ∈ rows, r.length = width rows := by
    intro r hr
    obtain ⟨i, hi, rfl⟩ := List.getElem_of_mem hr
    rw [← hrow i hi]
    subst hx
    exact length_row (by simpa using hsize) hi
  exact fun r hr s hs => (hlength r hr).trans (hlength s hs).symm

end DesignMatrix

open DesignMatrix

variable [Scalar α]

/-- Rows make a matrix exactly if they have as many entries in all as that many copies of the first
row. The entries keep their order; the rows keep their ends exactly if they have one length. What
is tabulated is the inputs and the target on each row. -/
theorem DesignMatrix.holds_rows (given : List (List α)) (d : Dataset α)
    (inputs : List ColumnRead) (target : String) (rows : List Nat) :
    ((∃ x, ofRows given = .ok x) ↔ given.flatten.length = given.length * width given) ∧
    ((∀ r ∈ given, ∀ s ∈ given, r.length = s.length) → ∃ x, ofRows given = .ok x) ∧
    (∀ x, ofRows given = .ok x → x.rows = given.length ∧
      (List.range x.rows).flatMap x.row = given.flatten ∧
      ((∀ i (hi : i < given.length), x.row i = given[i]) ↔
        ∀ r ∈ given, ∀ s ∈ given, r.length = s.length)) ∧
    ∀ x y, d.tabulate inputs target rows = .ok (x, y) →
      x.rows = rows.length ∧ x.cols = inputs.length ∧
      (∀ i (hi : i < rows.length),
        List.Forall₂ (fun r z => r.value d rows[i] = .ok z) inputs (x.row i)) ∧
      List.Forall₂ (fun row z => d.number target row = .ok z) rows y := by
  have hiff : (∃ x, ofRows given = .ok x) ↔
      given.flatten.length = given.length * width given := by
    simp [ofRows_eq_ok]
  refine ⟨hiff, fun h => hiff.2 (length_flatten_of_forall (width_eq h)), fun x hx => ?_,
    fun x y hxy => ?_⟩
  · obtain ⟨hsize, rfl⟩ := ofRows_eq_ok.1 hx
    refine ⟨rfl, ?_, row_eq_iff hx⟩
    rw [flatMap_row, ← hsize]
    simp
  · have htable := Dataset.tabulates_of_ok hxy
    exact ⟨htable.rows_eq, htable.cols_eq, htable.reads, forall₂_of_mapM htable.targets⟩

/-- Three rows of lengths one, two and zero have the entries of three rows of length one. -/
theorem DesignMatrix.row_ofRows_ragged :
    ∃ x, ofRows ([[1], [2, 3], []] : List (List Float)) = .ok x ∧ x.rows = 3 ∧
      x.row 1 = [2] ∧ x.row 2 = [3] :=
  ⟨⟨#[1, 2, 3], 3, 1⟩, rfl, rfl, rfl, rfl⟩

/-- Two rows of two entries, and a target tabulated on two rows without any input. -/
theorem DesignMatrix.holds_rows_without_inputs :
    (∀ i (hi : i < 2), (⟨#[1, 2, 3, 4], 2, 2⟩ : DesignMatrix Float).row i =
      ([[1, 2], [3, 4]] : List (List Float))[i]) ∧
    ∀ i, i < 2 → (⟨#[], 2, 0⟩ : DesignMatrix Float).row i = [] := by
  let d : Dataset Float := ⟨some 2, [("y", .numbers #[5, 6])]⟩
  have h := holds_rows [[1, 2], [3, 4]] d [] "y" [1, 0]
  refine ⟨((h.2.2.1 ⟨#[1, 2, 3, 4], 2, 2⟩ rfl).2.2).2 (by simp), fun i hi => ?_⟩
  exact List.forall₂_nil_left_iff.1 ((h.2.2.2 ⟨#[], 2, 0⟩ [6, 5] rfl).2.2.1 i hi)

end SymbolicFit
