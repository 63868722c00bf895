import Mathlib
import SymbolicFit.Proofs.FittingLogic
import SymbolicFit.Proofs.LaggedRows

/-!
Datasets as stores. After any sequence of insertions, refused ones among them, all columns have one
length and different names, a name stands for the column last accepted under it, and a typed read
finds an entry exactly within the rows of a column of its type.
-/

namespace SymbolicFit

variable {α β : Type}

namespace Dataset

/-- Inserts a column into the dataset that is held. The number of rows is written before the column
is, and nothing before the column is refused. -/
def add (name : String) (column : Column α) : Fitting (Dataset α) Unit := do
  let d ← get
  if ¬d.rows.all (· = column.length) then
    throw (.columnLengthMismatch name d.rowCount column.length)
  modify fun d => { d with rows := some column.length }
  modify fun d => { d with columns := put name column d.columns }

/-- What is held afterwards is what an insertion makes of the dataset. -/
theorem add_eq_insert (d : Dataset α) (name : String) (column : Column α) :
    add name column d = match d.insert name column with
      | .ok d' => (.ok (), d')
      | .error e => (.error e, d) := by
  have hadd : add name column d = (if ¬d.rows.all (· = column.length) then
      throw (.columnLengthMismatch name d.rowCount column.length) else do
    modify fun d => { d with rows := some column.length }
    modify fun d => { d with columns := put name column d.columns } :
      Fitting (Dataset α) Unit) d := rfl
  rw [hadd, insert]
  by_cases h : d.rows.all (· = column.length) = true
  · rw [if_neg (not_not.2 h), if_pos h]
    rfl
  · rw [if_pos h, if_neg h]
    rfl

/-- The outcome of each insertion, and the dataset they leave. -/
def addAll (cs : List (String × Column α)) : StateM (Dataset α) (List (Except Failure Unit)) :=
  cs.mapM fun c => (add c.1 c.2).run

/-- The columns that were not refused. -/
def accepted (cs : List (String × Column α)) (d : Dataset α) : List (String × Column α) :=
  ((cs.zip (addAll cs d).1).filter (·.2.isOk)).map (·.1)

theorem addAll_append_singleton (cs : List (String × Column α)) (c : String × Column α)
    (d : Dataset α) : addAll (cs ++ [c]) d =
      ((addAll cs d).1 ++ [(add c.1 c.2 (addAll cs d).2).1], (add c.1 c.2 (addAll cs d).2).2) := by
  rw [addAll, List.mapM_append]
  rfl

theorem length_addAll (cs : List (String × Column α)) (d : Dataset α) :
    (addAll cs d).1.length = cs.length := by
  induction cs using List.reverseRecOn with
  | nil => rfl
  | append_singleton cs c ih =>
    rw [addAll_append_singleton, List.length_append, List.length_append, ih]
    rfl

theorem accepted_append_singleton (cs : List (String × Column α)) (c : String × Column α)
    (d : Dataset α) : accepted (cs ++ [c]) d = accepted cs d ++
      if (add c.1 c.2 (addAll cs d).2).1.isOk then [c] else [] := by
  have hlength := (length_addAll cs d).symm
  rw [accepted, addAll_append_singleton, List.zip_append hlength, List.filter_append,
    List.map_append, accepted]
  congr 1
  cases (add c.1 c.2 (addAll cs d).2).1 <;> rfl

/-- What a sequence of insertions leaves. -/
theorem addAll_inserted (cs : List (String × Column α)) : (addAll cs empty).2.Inserted := by
  induction cs using List.reverseRecOn with
  | nil => exact .empty
  | append_singleton cs c ih =>
    rw [addAll_append_singleton, add_eq_insert]
    cases h : (addAll cs empty).2.insert c.1 c.2 with
    | error e => exact ih
    | ok d' => exact .insert ih h

section Put

variable {name : String} {column : Column α}

theorem find?_put (cs : List (String × Column α)) (other : String) :
    ((put name column cs).find? (·.1 = other)).map (·.2) =
      if name = other then some column else (cs.find? (·.1 = other)).map (·.2) := by
  induction cs with
  | nil =>
    rw [put]
    split_ifs with h <;> simp [h]
  | cons c cs ih =>
    rw [put]
    by_cases hc : c.1 = name
    · rw [if_pos hc]
      split_ifs with h <;> simp [h, hc]
    · rw [if_neg hc]
      by_cases ho : c.1 = other
      · have hne : name ≠ other := fun h => hc (ho.trans h.symm)
        simp [ho, hne]
      · rw [List.find?_cons_of_neg (by simpa using ho), List.find?_cons_of_neg (by simpa using ho),
          ih]

theorem nodup_put {cs : List (String × Column α)} (h : (cs.map (·.1)).Nodup) :
    ((put name column cs).map (·.1)).Nodup := by
  induction cs with
  | nil => exact List.nodup_singleton name
  | cons c cs ih =>
    obtain ⟨hc, hcs⟩ := List.nodup_cons.1 h
    rw [put]
    split_ifs with hname
    · rwa [List.map_cons, ← hname]
    · refine List.nodup_cons.2 ⟨fun hmem => ?_, ih hcs⟩
      obtain ⟨c', hc', heq⟩ := List.mem_map.1 hmem
      rcases mem_put hc' with rfl | hc'
      · exact hname heq.symm
      · exact hc (heq ▸ List.mem_map_of_mem hc')

end Put

theorem Inserted.nodup {d : Dataset α} (h : d.Inserted) : (d.columns.map (·.1)).Nodup := by
  induction h with
  | empty => exact List.nodup_nil
  | insert _ hd ih =>
    unfold Dataset.insert at hd
    split_ifs at hd
    cases hd
    exact nodup_put ih

/-- What the columns accepted so far say about a dataset. -/
structure Remembers (d : Dataset α) (cs : List (String × Column α)) : Prop where
  started : cs = [] → d.rows = none
  lengths : ∀ c ∈ cs, d.rows = some c.2.length
  latest : ∀ name, d.column? name = (cs.reverse.find? (·.1 = name)).map (·.2)

namespace Remembers

variable {d d' : Dataset α} {cs : List (String × Column α)} {name : String} {column : Column α}

theorem empty : Remembers (empty : Dataset α) [] where
  started _ := rfl
  lengths := nofun
  latest _ := rfl

/-- A column is refused exactly if one of another length was accepted. -/
theorem refused_iff (h : d.Remembers cs) :
    ¬d.rows.all (· = column.length) ↔ ∃ c ∈ cs, c.2.length ≠ column.length := by
  cases cs with
  | nil => simp [h.started rfl]
  | cons c cs =>
    have hrows := h.lengths c List.mem_cons_self
    have hall : ∀ c' ∈ c :: cs, c'.2.length = c.2.length := fun c' hc' =>
      Option.some.inj ((h.lengths c' hc').symm.trans hrows)
    rw [hrows, Option.all_some, decide_eq_true_eq]
    constructor
    · exact fun hne => ⟨c, List.mem_cons_self, hne⟩
    · rintro ⟨c', hc', hne⟩
      rwa [hall c' hc'] at hne

theorem insert (h : d.Remembers cs) (hd : d.insert name column = .ok d') :
    d'.Remembers (cs ++ [(name, column)]) := by
  unfold Dataset.insert at hd
  split_ifs at hd with hrows
  cases hd
  refine ⟨fun hnil => absurd hnil (by simp), fun c hc => ?_, fun other => ?_⟩
  · rcases List.mem_append.1 hc with hc | hc
    · rw [h.lengths c hc, Option.all_some, decide_eq_true_eq] at hrows
      exact congrArg some hrows.symm
    · rw [List.mem_singleton.1 hc]
  · have hput := @find?_put _ name column d.columns other
    have hlatest := h.latest other
    rw [column?] at hlatest ⊢
    rw [hput, hlatest, List.reverse_append]
    by_cases ho : name = other <;> simp [ho]

end Remembers

theorem addAll_remembers (cs : List (String × Column α)) :
    (addAll cs empty).2.Remembers (accepted cs empty) := by
  induction cs using List.reverseRecOn with
  | nil => exact .empty
  | append_singleton cs c ih =>
    rw [accepted_append_singleton, addAll_append_singleton, add_eq_insert]
    cases h : (addAll cs empty).2.insert c.1 c.2 with
    | error e =>
      rw [if_neg nofun, List.append_nil]
      exact ih
    | ok d' => exact ih.insert h

/-- A read for one type of columns finds the entry at each row of a column of this type, and finds
nothing elsewhere. -/
structure Finds (d : Dataset α) (type : ColumnType) (column : Array β → Column α)
    (read : String → Nat → Except Failure β) : Prop where
  succeeds : ∀ name row,
    (∃ x, read name row = .ok x) ↔ row < d.rowCount ∧ d.typeOf? name = some type
  entry : ∀ name xs, d.column? name = some (column xs) → ∀ row < d.rowCount,
    ∃ h : row < xs.size, read name row = .ok xs[row]

theorem Inserted.finds {d : Dataset α} (hd : d.Inserted) {type : ColumnType}
    {entries : Column α → Option (Array β)} {column : Array β → Column α}
    (hentries : ∀ c xs, entries c = some xs ↔ c = column xs)
    (htype : ∀ c, (entries c).isSome ↔ c.type = type)
    (hsize : ∀ xs, (column xs).length = xs.size) : d.Finds type column (d.read type entries) := by
  have hentry : ∀ name xs, d.column? name = some (column xs) → ∀ row < d.rowCount,
      ∃ h : row < xs.size, d.read type entries name row = .ok xs[row] := by
    intro name xs hc row hrow
    have hlt : row < xs.size := by rwa [← hsize, hd.length_eq hc]
    have hcheck : d.checkRow row = .ok () := if_pos hrow
    have hxs := (hentries _ xs).2 rfl
    refine ⟨hlt, ?_⟩
    simp only [read, hcheck, hc, hxs, Array.getElem?_eq_getElem hlt]
    rfl
  refine ⟨fun name row => ⟨?_, ?_⟩, hentry⟩
  · rintro ⟨x, hx⟩
    obtain ⟨_, hcheck, hx⟩ := bind_eq_ok.1 hx
    have hrow : row < d.rowCount := by
      unfold checkRow at hcheck
      split_ifs at hcheck with h
      exact h
    refine ⟨hrow, ?_⟩
    cases hc : d.column? name with
    | none =>
      rw [hc] at hx
      cases hx
    | some c =>
      cases hxs : entries c with
      | none =>
        rw [hc] at hx
        simp only [hxs] at hx
        cases hx
      | some xs => rw [typeOf?, hc, Option.map_some, (htype c).1 (hxs ▸ rfl)]
  · rintro ⟨hrow, hname⟩
    obtain ⟨c, hc, hctype⟩ := Option.map_eq_some_iff.1 hname
    obtain ⟨xs, hxs⟩ := Option.isSome_iff_exists.1 ((htype c).2 hctype)
    obtain rfl := (hentries c xs).1 hxs
    obtain ⟨hlt, hx⟩ := hentry name xs hc row hrow
    exact ⟨xs[row], hx⟩

/-- A rectangular store of the columns accepted so far. -/
structure Stores (d : Dataset α) (cs : List (String × Column α)) : Prop where
  rectangular : ∀ c ∈ d.columns, c.2.length = d.rowCount
  unique : (d.columns.map (·.1)).Nodup
  latest : ∀ name, d.column? name = (cs.reverse.find? (·.1 = name)).map (·.2)
  refuses : ∀ name column,
    (∃ e, d.insert name column = .error e) ↔ ∃ c ∈ cs, c.2.length ≠ column.length
  unchanged : ∀ name column e, d.insert name column = .error e →
    e = .columnLengthMismatch name d.rowCount column.length ∧ add name column d = (.error e, d)
  others : ∀ name column d', d.insert name column = .ok d' →
    add name column d = (.ok (), d') ∧ ∀ other ≠ name, d'.column? other = d.column? other
  numbers : d.Finds .number .numbers d.number
  labels : d.Finds .label .labels d.label
  vectors : d.Finds .vector .vectors d.vector

/-- After any insertions, refused ones among them, a dataset is the store of the columns that were
accepted, whatever is inserted or read next. -/
theorem addAll_stores (cs : List (String × Column α)) :
    (addAll cs empty).2.Stores (accepted cs empty) := by
  have hinserted := addAll_inserted cs
  have hremembers := addAll_remembers cs
  generalize (addAll cs empty).2 = d at hinserted hremembers
  constructor
  case rectangular =>
    intro c hc
    rw [rowCount, hinserted.rows_eq c hc, Option.getD_some]
  case unique => exact hinserted.nodup
  case latest => exact hremembers.latest
  case refuses =>
    intro name column
    rw [← hremembers.refused_iff, insert]
    split_ifs with h <;> simp [h]
  case unchanged =>
    intro name column e he
    rw [add_eq_insert, he]
    rw [insert] at he
    split_ifs at he
    exact ⟨(Except.error.inj he).symm, rfl⟩
  case others =>
    intro name column d' hd
    rw [add_eq_insert, hd]
    rw [insert] at hd
    split_ifs at hd
    cases hd
    refine ⟨rfl, fun other hne => ?_⟩
    exact (find?_put d.columns other).trans (if_neg hne.symm)
  case numbers | labels | vectors =>
    refine hinserted.finds (fun c xs => ?_) (fun c => ?_) fun xs => rfl
    · cases c <;> simp
    · cases c <;> simp [Column.type]

end Dataset

end SymbolicFit
