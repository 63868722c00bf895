import Mathlib
import SymbolicFit.Proofs.RowReads

/-!
Lagged access to the rows of a dataset. A leaf of a tree and an input of a compiled tree read the
same row, the one `lag` rows away, and fail alike where there is none. Positions of 64 bits wrap
around: beyond the last of them both read from the first row on.
-/

namespace SymbolicFit

variable {α : Type}

namespace Dataset

/-- A dataset made by inserting columns. -/
inductive Inserted : Dataset α → Prop
  | empty : Inserted .empty
  | insert {d d' : Dataset α} {name : String} {column : Column α} (h : Inserted d)
      (hd : d.insert name column = .ok d') : Inserted d'

theorem mem_put {name : String} {column : Column α} {cs : List (String × Column α)}
    {c : String × Column α} (h : c ∈ put name column cs) : c = (name, column) ∨ c ∈ cs := by
  induction cs with
  | nil => exact .inl (List.mem_singleton.1 h)
  | cons c' cs ih =>
    rw [put] at h
    split_ifs at h
    · exact (List.mem_cons.1 h).imp_right (List.mem_cons_of_mem c')
    · rcases List.mem_cons.1 h with rfl | h
      · exact .inr List.mem_cons_self
      · exact (ih h).imp_right (List.mem_cons_of_mem c')

theorem Inserted.rows_eq {d : Dataset α} (h : d.Inserted) :
    ∀ c ∈ d.columns, d.rows = some c.2.length := by
  induction h with
  | empty => exact fun c hc => absurd hc List.not_mem_nil
  | @insert d d' name column _ hd ih =>
    unfold Dataset.insert at hd
    split_ifs at hd with hrows
    cases hd
    intro c hc
    rcases mem_put hc with rfl | hc
    · rfl
    · rw [ih c hc, Option.all_some, decide_eq_true_eq] at hrows
      exact congrArg some hrows.symm

/-- Every column has an entry for each row. -/
theorem Inserted.length_eq {d : Dataset α} (h : d.Inserted) {name : String} {c : Column α}
    (hc : d.column? name = some c) : c.length = d.rowCount := by
  obtain ⟨p, hp, rfl⟩ := Option.map_eq_some_iff.1 hc
  rw [rowCount, h.rows_eq p (List.mem_of_find?_eq_some hp), Option.getD_some]

end Dataset

namespace Column

def number? : Column α → Nat → Option α
  | numbers xs, row => xs[row]?
  | _, _ => none

def vector? : Column α → Nat → Option (List α)
  | vectors xs, row => xs[row]?
  | _, _ => none

def label? : Column α → Nat → Option String
  | labels xs, row => xs[row]?
  | _, _ => none

/-- What a column stores at a row: a number, a vector, or the element of a vector. -/
def stored? : Column α → Option Nat → Nat → Option (Shaped α)
  | numbers xs, _, row => xs[row]?.map .scalar
  | vectors xs, none, row => xs[row]?.map .vector
  | vectors xs, some i, row => xs[row]?.bind fun v => v[i]?.map .scalar
  | labels _, _, _ => none

end Column

/-- The number, where it is a single one. -/
def Shaped.single? : Shaped α → Option α
  | scalar x => some x
  | vector _ => none

/-- The read returns what is stored. Where nothing is, it fails for another reason than its row. -/
def Fetches {β : Type} (x : Except Failure β) : Option β → Prop
  | some b => x = .ok b
  | none => ∃ e, x = .error e ∧ ∀ row rows, e ≠ .rowOutOfRange row rows

namespace Fetches

variable {β γ : Type}

theorem bind {x : Except Failure β} {o : Option β} {f : β → Except Failure γ} {g : β → Option γ}
    (hx : Fetches x o) (hf : ∀ b, Fetches (f b) (g b)) : Fetches (x >>= f) (o.bind g) := by
  cases o with
  | some b =>
    obtain rfl : x = .ok b := hx
    exact hf b
  | none =>
    obtain ⟨e, rfl, he⟩ := hx
    exact ⟨e, rfl, he⟩

theorem map {x : Except Failure β} {o : Option β} (hx : Fetches x o) (f : β → γ) :
    Fetches (do let b ← x; return f b) (o.map f) := by
  rw [Option.map_eq_bind]
  exact hx.bind fun b => rfl

theorem element (name : String) (xs : List β) (i : Nat) :
    Fetches (Dataset.element name xs i) xs[i]? := by
  unfold Dataset.element
  cases xs[i]? with
  | some x => rfl
  | none => exact ⟨_, rfl, by simp⟩

end Fetches

namespace Dataset

def stored? (d : Dataset α) (name : String) (index : Option Nat) (row : Nat) :
    Option (Shaped α) :=
  (d.column? name).bind fun c => c.stored? index row

/-- A position within the rows survives being read as a signed word, and none comes to lie within
the rows by it. -/
theorem signedRow_within {x p : Int} {n : Nat} (hn : n < 2 ^ 63) (h : -2 ^ 63 ≤ p)
    (h' : p < 2 ^ 64) (hx : x = p ∨ x = p + 2 ^ 64) :
    (0 ≤ signedRow x ∧ signedRow x < n ↔ 0 ≤ p ∧ p < n) ∧
      (0 ≤ p ∧ p < n → signedRow x = p) := by
  have hsigned : signedRow x =
      if x % 2 ^ 64 < 2 ^ 63 then x % 2 ^ 64 else x % 2 ^ 64 - 2 ^ 64 := by
    simp [signedRow, Int.bmod_def, UInt64.size]
  rw [hsigned]
  split_ifs
  · omega
  · omega

end Dataset

variable [Scalar α]

/-- The value of an input on a row where its column stores one. -/
def ColumnRead.stored? (c : ColumnRead) (d : Dataset α) (row : Nat) : Option α :=
  match c.category with
  | some category =>
    ((d.column? c.name).bind fun column => column.label? row).map fun label =>
      if label = category then 1 else 0
  | none => (d.stored? c.name c.index row).bind Shaped.single?

/-- Leaves and inputs with this lag read the row at `p`, and fail alike if that is no row. -/
structure Dataset.ReadsAt (d : Dataset α) (row : Nat) (lag p : Int) : Prop where
  column : ∀ r : Nat, r = p → r < d.rowCount → ∀ name w index,
    Fetches (Symbol.readColumn d row name w lag index)
      ((d.stored? name index r).map (Shaped.map (w * ·)))
  input : ∀ r : Nat, r = p → r < d.rowCount → ∀ c : ColumnRead, c.lag = lag →
    Fetches (c.value d row) (c.stored? d r)
  outside : ¬(0 ≤ p ∧ p < d.rowCount) →
    (∀ name w index, Symbol.readColumn d row name w lag index =
      .error (.rowOutOfRange (Dataset.signedRow (row + lag)) d.rowCount)) ∧
    ∀ c : ColumnRead, c.lag = lag →
      c.value d row = .error (.rowOutOfRange (Dataset.signedRow (row + lag)) d.rowCount)

section Rows

variable {d : Dataset α} (hd : d.Inserted) {row r : Nat} (hr : r < d.rowCount)
include hd hr

omit [Scalar α] in
/-- Within the rows only the name and the type of a column can be wrong. -/
theorem Dataset.read_fetches {β : Type} (type : ColumnType)
    {entries : Column α → Option (Array β)} {stored? : Column α → Nat → Option β}
    (hsize : ∀ c xs, entries c = some xs → xs.size = c.length)
    (hstored : ∀ c, stored? c r = (entries c).bind fun xs => xs[r]?) (name : String) :
    Fetches (d.read type entries name r) ((d.column? name).bind fun c => stored? c r) := by
  have hcheck : d.checkRow r = .ok () := if_pos hr
  have hread : d.read type entries name r = _ := congrArg (· >>= _) hcheck
  rw [hread]
  cases hc : d.column? name with
  | none => exact ⟨_, rfl, by simp⟩
  | some c =>
    simp only [Option.bind_some, hstored]
    cases hxs : entries c with
    | none => exact ⟨_, by simp [bind, Except.bind]; rfl, by simp⟩
    | some xs =>
      have hlt : r < xs.size := by rwa [hsize c xs hxs, hd.length_eq hc]
      simp [hlt, Fetches, bind, Except.bind]

omit [Scalar α] in
theorem Dataset.number_fetches (name : String) :
    Fetches (d.number name r) ((d.column? name).bind fun c => c.number? r) := by
  refine read_fetches hd hr .number (fun c xs h => ?_) (fun c => ?_) name
  · cases c <;> cases h
    rfl
  · cases c <;> rfl

omit [Scalar α] in
theorem Dataset.vector_fetches (name : String) :
    Fetches (d.vector name r) ((d.column? name).bind fun c => c.vector? r) := by
  refine read_fetches hd hr .vector (fun c xs h => ?_) (fun c => ?_) name
  · cases c <;> cases h
    rfl
  · cases c <;> rfl

omit [Scalar α] in
theorem Dataset.label_fetches (name : String) :
    Fetches (d.label name r) ((d.column? name).bind fun c => c.label? r) := by
  refine read_fetches hd hr .label (fun c xs h => ?_) (fun c => ?_) name
  · cases c <;> cases h
    rfl
  · cases c <;> rfl

/-- A leaf reads a number, a vector or an element of a vector, and weighs it. -/
theorem Symbol.readColumn_fetches {lag : Int} (hl : d.laggedRow row lag = .ok r) (name : String)
    (w : α) (index : Option Nat) :
    Fetches (readColumn d row name w lag index)
      ((d.stored? name index r).map (Shaped.map (w * ·))) := by
  have hread : readColumn d row name w lag index = _ := congrArg (· >>= _) hl
  rw [hread, Dataset.stored?]
  have hnumber := d.number_fetches hd hr name
  have hvector := d.vector_fetches hd hr name
  cases hc : d.column? name with
  | none => exact ⟨_, by simp [bind, Except.bind, Dataset.typeOf?, hc]; rfl, by simp⟩
  | some c =>
    have htype : d.typeOf? name = some c.type := congrArg (Option.map Column.type) hc
    rw [hc, Option.bind_some] at hnumber hvector
    dsimp only [bind, Except.bind]
    rw [htype, Option.bind_some]
    cases c with
    | numbers xs =>
      rw [Column.stored?, Option.map_map]
      exact hnumber.map fun z => Shaped.scalar (w * z)
    | labels xs => exact ⟨_, rfl, by simp⟩
    | vectors xs =>
      cases index with
      | none =>
        rw [Column.stored?, Option.map_map]
        exact hvector.map fun zs => Shaped.vector (zs.map (w * ·))
      | some i =>
        rw [Column.stored?, Option.map_bind]
        refine hvector.bind fun zs => ?_
        rw [Function.comp_apply, Option.map_map]
        exact (Fetches.element name zs i).map fun z => Shaped.scalar (w * z)

theorem ColumnRead.value_fetches {c : ColumnRead} (hl : d.laggedRow row c.lag = .ok r) :
    Fetches (c.value d row) (c.stored? d r) := by
  have hread : c.value d row = _ := congrArg (· >>= _) hl
  rw [hread, ColumnRead.stored?]
  dsimp only [bind, Except.bind]
  cases hcategory : c.category with
  | some category => exact (d.label_fetches hd hr c.name).map _
  | none =>
    have hnumber := d.number_fetches hd hr c.name
    have hvector := d.vector_fetches hd hr c.name
    dsimp only
    rw [Dataset.stored?]
    cases hc : d.column? c.name with
    | none =>
      rw [hc] at hnumber
      simpa [Dataset.typeOf?, hc] using hnumber
    | some column =>
      have htype : d.typeOf? c.name = some column.type := congrArg (Option.map Column.type) hc
      rw [hc, Option.bind_some] at hnumber hvector
      rw [htype, Option.bind_some]
      cases column with
      | numbers xs =>
        have hsingle : (xs[r]?.map Shaped.scalar).bind Shaped.single? = xs[r]? := by
          cases xs[r]? <;> rfl
        rw [Column.stored?, hsingle]
        exact hnumber
      | labels xs => exact hnumber
      | vectors xs =>
        cases hindex : c.index with
        | none =>
          have hsingle : (xs[r]?.map Shaped.vector).bind Shaped.single? = none := by
            cases xs[r]? <;> rfl
          rw [Column.stored?, hsingle]
          exact hnumber
        | some i =>
          have hsingle : (xs[r]?.bind fun v => v[i]?.map Shaped.scalar).bind Shaped.single? =
              xs[r]?.bind fun v => v[i]? := by
            rw [Option.bind_assoc]
            congr 1
            funext v
            cases v[i]? <;> rfl
          rw [Column.stored?, hsingle]
          exact hvector.bind fun zs => Fetches.element c.name zs i

end Rows

namespace Dataset

theorem readsAt {d : Dataset α} (hd : d.Inserted) (hn : d.rowCount < 2 ^ 63) {row : Nat}
    {lag p : Int} (hlow : -2 ^ 63 ≤ p) (hhigh : p < 2 ^ 64)
    (hx : row + lag = p ∨ row + lag = p + 2 ^ 64) : d.ReadsAt row lag p := by
  obtain ⟨hiff, heq⟩ := signedRow_within hn hlow hhigh hx
  have hinside : ∀ r : Nat, r = p → r < d.rowCount → d.laggedRow row lag = .ok r := by
    rintro r rfl hr
    have hr' : 0 ≤ (r : Int) ∧ (r : Int) < d.rowCount := ⟨r.cast_nonneg, Int.ofNat_lt.2 hr⟩
    rw [laggedRow, heq hr']
    exact if_pos hr'
  refine ⟨fun r hp hr => Symbol.readColumn_fetches hd hr (hinside r hp hr), ?_, fun hp => ?_⟩
  · rintro r hp hr c rfl
    exact ColumnRead.value_fetches hd hr (hinside r hp hr)
  · have hl : d.laggedRow row lag = .error (.rowOutOfRange (signedRow (row + lag)) d.rowCount) :=
      if_neg fun h => hp (hiff.1 h)
    refine ⟨fun name w index => congrArg (· >>= _) hl, ?_⟩
    rintro c rfl
    exact congrArg (· >>= _) hl

/-- A leaf with a lag and an input with a lag read the row at `row + lag`, if that is one of the
rows, and fail with the same error if not. They do so for every row of 64 bits while `row + lag`
has 64 bits, and beyond that the positions start from the first row again. What is in memory has
fewer than `2 ^ 63` rows. -/
theorem lagged_reads {d : Dataset α} (hd : d.Inserted) (hn : d.rowCount < 2 ^ 63) {row : Nat}
    (hrow : row < 2 ^ 64) {lag : Int} (hlag : -2 ^ 31 ≤ lag ∧ lag < 2 ^ 31) :
    (row + lag < 2 ^ 64 → d.ReadsAt row lag (row + lag)) ∧
      (2 ^ 64 ≤ row + lag → d.ReadsAt row lag (row + lag - 2 ^ 64)) := by
  refine ⟨fun h => readsAt hd hn ?_ h (.inl rfl), fun h => readsAt hd hn ?_ ?_ (.inr ?_)⟩
  · omega
  · omega
  · omega
  · omega

/-- A single row with the number seven. -/
def seven : Dataset Float := ⟨some 1, [("x", .numbers #[7])]⟩

theorem seven_inserted : seven.Inserted := by
  have h : empty.insert "x" (.numbers #[7]) = .ok seven := rfl
  exact .insert .empty h

theorem lagged_reads_seven :
    Symbol.readColumn seven 1 "x" 2 (-1) none = .ok (.scalar (2 * 7)) ∧
      (⟨"x", none, -1, none⟩ : ColumnRead).value seven 1 = .ok 7 := by
  have hrow : 1 < 2 ^ 64 := by decide
  have hlag : -2 ^ 31 ≤ (-1 : Int) ∧ (-1 : Int) < 2 ^ 31 := by decide
  have h := (lagged_reads seven_inserted (by decide) hrow hlag).1 (by decide)
  exact ⟨h.column 0 rfl (by decide) "x" 2 none, h.input 0 rfl (by decide) ⟨"x", none, -1, none⟩ rfl⟩

/-- One row after the last position of 64 bits both reads find the first row of the dataset. -/
theorem lagged_read_wraps :
    (2 ^ 64 - 1 : Nat) < 2 ^ 64 ∧ ¬((2 ^ 64 - 1 : Nat) + (1 : Int) < seven.rowCount) ∧
      Symbol.readColumn seven (2 ^ 64 - 1) "x" 1 1 none = .ok (.scalar (1 * 7)) ∧
      (⟨"x", none, 1, none⟩ : ColumnRead).value seven (2 ^ 64 - 1) = .ok 7 :=
  ⟨by decide, by decide, rfl, rfl⟩

end Dataset

end SymbolicFit
