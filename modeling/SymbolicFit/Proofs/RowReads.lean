import Mathlib
import SymbolicFit.Evaluation
import SymbolicFit.DesignMatrix
import SymbolicFit.Proofs.ExactArithmetic

/-!
What is read on a row, by a leaf of a tree and by an input of a compiled tree. A leaf is a weight
times what its inputs read, and a row of the tabulated matrix lists what the inputs read on it.
-/

namespace SymbolicFit

theorem bind_eq_ok {β γ : Type} {x : Except Failure β} {f : β → Except Failure γ} {c : γ} :
    x >>= f = .ok c ↔ ∃ b, x = .ok b ∧ f b = .ok c := by
  cases x <;> simp [bind, Except.bind]

theorem map_eq_ok {β γ : Type} {x : Except Failure β} {f : β → γ} {c : γ} :
    x.map f = .ok c ↔ ∃ b, x = .ok b ∧ f b = c := by
  cases x <;> simp [Except.map]

theorem forall₂_of_mapM {β γ : Type} {f : β → Except Failure γ} {bs : List β} {cs : List γ}
    (h : bs.mapM f = .ok cs) : List.Forall₂ (fun b c => f b = .ok c) bs cs := by
  induction bs generalizing cs with
  | nil =>
    cases h
    exact .nil
  | cons b bs ih =>
    rw [List.mapM_cons] at h
    obtain ⟨c, hc, h⟩ := bind_eq_ok.1 h
    obtain ⟨cs', hcs, h⟩ := bind_eq_ok.1 h
    cases h
    exact .cons hc (ih hcs)

theorem exists_mapM_ok {β γ : Type} {f : β → Except Failure γ} {bs : List β}
    (h : ∀ b ∈ bs, ∃ c, f b = .ok c) : ∃ cs, bs.mapM f = .ok cs := by
  induction bs with
  | nil => exact ⟨[], rfl⟩
  | cons b bs ih =>
    rw [List.forall_mem_cons] at h
    obtain ⟨c, hc⟩ := h.1
    obtain ⟨cs, hcs⟩ := ih h.2
    exact ⟨c :: cs, by rw [List.mapM_cons, hc, hcs]; rfl⟩

theorem forall_length_of_mapM {β γ δ : Type} {f : β → γ → Except Failure δ} {bs : List β}
    {cs : List γ} {ess : List (List δ)} (h : (bs.mapM fun b => cs.mapM (f b)) = .ok ess) :
    ∀ es ∈ ess, es.length = cs.length := by
  have hall := forall₂_of_mapM h
  intro es hes
  obtain ⟨k, hk, rfl⟩ := List.getElem_of_mem hes
  exact (forall₂_of_mapM (hall.get (hall.length_eq ▸ hk) hk)).length_eq.symm

theorem length_flatten_of_forall {β : Type} {bss : List (List β)} {n : Nat}
    (h : ∀ bs ∈ bss, bs.length = n) : bss.flatten.length = bss.length * n := by
  rw [List.length_flatten, List.map_eq_replicate_iff.2 h, List.sum_replicate, smul_eq_mul]

variable {α : Type} [Scalar α]

namespace DesignMatrix

omit [Scalar α]

theorem ofData_eq_ok {data : Array α} {m n : Nat} {x : DesignMatrix α} :
    ofData data m n = .ok x ↔ data.size = m * n ∧ x = ⟨data, m, n⟩ := by
  unfold ofData
  split_ifs with h <;> simp [h, eq_comm]

/-- Laying rows of one length end to end and cutting them out again. -/
theorem row_of_ofData {rows : List (List α)} {n m : Nat} {x : DesignMatrix α}
    (h : ofData rows.flatten.toArray m n = .ok x) (hn : ∀ r ∈ rows, r.length = n) {i : Nat}
    (hi : i < rows.length) : x.row i = rows[i] := by
  obtain ⟨-, rfl⟩ := ofData_eq_ok.1 h
  have hlen : rows.map List.length = List.replicate rows.length n :=
    List.map_eq_replicate_iff.2 hn
  have hsum : ∀ k ≤ rows.length, ((rows.map List.length).take k).sum = k * n := by
    intro k hk
    rw [hlen, List.take_replicate, List.sum_replicate, Nat.min_eq_left hk, smul_eq_mul]
  have hr := List.drop_take_succ_flatten_eq_getElem rows i hi
  rw [hsum i hi.le, hsum (i + 1) hi] at hr
  rw [row, ← hr]
  simp [List.drop_take]

end DesignMatrix

namespace Dataset

/-- A matrix of what the inputs read on each of some rows, beside the target on these rows. -/
structure Tabulates (d : Dataset α) (inputs : List ColumnRead) (target : String) (rows : List Nat)
    (x : DesignMatrix α) (y : List α) : Prop where
  nonempty : rows ≠ []
  rows_eq : x.rows = rows.length
  cols_eq : x.cols = inputs.length
  reads : ∀ i (hi : i < rows.length),
    List.Forall₂ (fun r z => r.value d rows[i] = .ok z) inputs (x.row i)
  targets : d.numbers target rows = .ok y

variable {d : Dataset α} {inputs : List ColumnRead} {target : String} {rows : List Nat}
  {x : DesignMatrix α} {y : List α}

theorem tabulates_of_ok (h : d.tabulate inputs target rows = .ok (x, y)) :
    d.Tabulates inputs target rows x y := by
  unfold tabulate at h
  split_ifs at h with he
  obtain ⟨entries, hentries, h⟩ := bind_eq_ok.1 h
  obtain ⟨x', hx, h⟩ := bind_eq_ok.1 h
  obtain ⟨y', hy, h⟩ := bind_eq_ok.1 h
  cases h
  have hread := forall₂_of_mapM hentries
  have hrow := fun i => DesignMatrix.row_of_ofData (i := i) hx (forall_length_of_mapM hentries)
  obtain ⟨-, rfl⟩ := DesignMatrix.ofData_eq_ok.1 hx
  refine ⟨by simpa using he, rfl, rfl, fun i hi => ?_, hy⟩
  have hi' : i < entries.length := hread.length_eq ▸ hi
  rw [hrow i hi']
  exact forall₂_of_mapM (hread.get hi hi')

theorem Tabulates.length_eq (h : d.Tabulates inputs target rows x y) : y.length = rows.length :=
  (forall₂_of_mapM h.targets).length_eq.symm

theorem row_of_tabulate (h : d.tabulate inputs target rows = .ok (x, y)) {i : Nat}
    (hi : i < rows.length) {c : Nat} {r : ColumnRead} (hr : inputs[c]? = some r) :
    r.value d rows[i] = .ok ((x.row i).getD c 0) := by
  have hreads := (tabulates_of_ok h).reads i hi
  obtain ⟨hc, rfl⟩ := List.getElem?_eq_some_iff.1 hr
  have hc' : c < (x.row i).length := hreads.length_eq ▸ hc
  rw [List.getD_eq_getElem _ _ hc']
  exact hreads.get hc hc'

end Dataset

theorem Dataset.signedRow_of_nonneg {row : Nat} (hrow : row < UInt64.size)
    (h : 0 ≤ signedRow row) : signedRow row = row := by
  unfold signedRow at h ⊢
  have hm : (row : Int) % (UInt64.size : Nat) = row := Int.emod_eq_of_lt (by omega) (by omega)
  rw [Int.bmod_def, hm] at h ⊢
  split_ifs at h ⊢
  · rfl
  · omega

omit [Scalar α] in
theorem Dataset.laggedRow_zero {d : Dataset α} {row r : Nat} (hrow : row < UInt64.size)
    (h : d.laggedRow row 0 = .ok r) : r = row := by
  unfold laggedRow at h
  rw [Int.add_zero] at h
  generalize hs : signedRow row = i at h
  dsimp only at h
  split_ifs at h with hi
  rw [← hs] at hi
  rw [signedRow_of_nonneg hrow hi.1] at hs
  have := Except.ok.inj h
  omega

namespace Symbol

/-- A column at a row is a weight times what the inputs of the column read there, whatever the
weight. -/
theorem readColumn_ok {d : Dataset α} {row : Nat} {name : String} {w : α} {lag : Int}
    {index : Option Nat} {v : Shaped α} (h : readColumn d row name w lag index = .ok v) :
    ∃ raw : Shaped α, raw.shape = v.shape ∧
      (∀ w', readColumn d row name w' lag index = .ok (raw.map (w' * ·))) ∧
      match raw with
      | .scalar z => (⟨name, none, lag, index⟩ : ColumnRead).value d row = .ok z
      | .vector zs => index = none ∧ d.hasType name .vector = true ∧ ∀ k (hk : k < zs.length),
          (⟨name, none, lag, some k⟩ : ColumnRead).value d row = .ok zs[k] := by
  obtain ⟨r, hr, h⟩ := bind_eq_ok.1 h
  cases ht : d.typeOf? name with
  | none => simp [ht] at h
  | some type =>
    cases type with
    | label => simp [ht] at h
    | number =>
      simp only [ht] at h
      obtain ⟨z, hz, h⟩ := bind_eq_ok.1 h
      cases h
      refine ⟨.scalar z, rfl, fun w' => ?_, ?_⟩
      · simp [readColumn, hr, ht, hz, bind, Except.bind, pure, Except.pure, Shaped.map]
      · simp [ColumnRead.value, hr, ht, hz, bind, Except.bind]
    | vector =>
      simp only [ht] at h
      obtain ⟨zs, hzs, h⟩ := bind_eq_ok.1 h
      cases index with
      | none =>
        cases h
        refine ⟨.vector zs, by simp [Shaped.shape], fun w' => ?_, rfl,
          by simp [Dataset.hasType, ht], fun k hk => ?_⟩
        · simp [readColumn, hr, ht, hzs, bind, Except.bind, pure, Except.pure, Shaped.map]
        · simp [ColumnRead.value, Dataset.element, hr, ht, hzs, hk, bind, Except.bind]
      | some k =>
        obtain ⟨z, hz, h⟩ := bind_eq_ok.1 h
        cases h
        refine ⟨.scalar z, rfl, fun w' => ?_, ?_⟩
        · simp [readColumn, hr, ht, hzs, hz, bind, Except.bind, pure, Except.pure, Shaped.map]
        · simp [ColumnRead.value, hr, ht, hzs, hz, bind, Except.bind]

/-- A label on a row is what the inputs of its categories look for. -/
theorem label_value {d : Dataset α} {row : Nat} (hrow : row < UInt64.size) {name label : String}
    (h : d.label name row = .ok label) {category : String} {z : α}
    (hz : (⟨name, some category, 0, none⟩ : ColumnRead).value d row = .ok z) :
    z = if label = category then 1 else 0 := by
  unfold ColumnRead.value at hz
  obtain ⟨r, hr, hz⟩ := bind_eq_ok.1 hz
  have hl := Dataset.laggedRow_zero hrow hr
  rw [hl] at hz
  dsimp only at hz
  obtain ⟨label', hl', hz⟩ := bind_eq_ok.1 hz
  rw [Except.ok.inj (h.symm.trans hl')]
  exact (Except.ok.inj hz).symm

/-- The weights listed for a category. -/
def listed {α : Type} (ws : List (String × α)) (category : String) : List α :=
  (ws.filter (·.1 = category)).map (·.2)

omit [Scalar α] in
theorem head?_listed (ws : List (String × α)) (category : String) :
    (listed ws category).head? = (ws.find? (·.1 = category)).map (·.2) := by
  rw [listed, List.head?_map, List.head?_filter]

omit [Scalar α] in
/-- Among distinct categories at most one is the label. -/
theorem tail_listed {ws : List (String × α)} (h : (ws.map (·.1)).Nodup) (category : String) :
    (listed ws category).tail = [] := by
  have hcategories : ((ws.filter (·.1 = category)).map (·.1)) =
      List.replicate (ws.filter (·.1 = category)).length category := by
    refine List.map_eq_replicate_iff.2 fun cw hcw => ?_
    simpa using (List.mem_filter.1 hcw).2
  have hnodup : ((ws.filter (·.1 = category)).map (·.1)).Nodup :=
    h.sublist (List.filter_sublist.map _)
  rw [hcategories, List.nodup_replicate] at hnodup
  rw [← List.length_eq_zero_iff, List.length_tail, listed, List.length_map]
  omega

/-- The indicators select the weights listed for the label. -/
theorem sum_listed {α : Type} [ExactRing α] (label : String) (ws : List (String × α)) :
    (ws.map fun cw => cw.2 * if label = cw.1 then 1 else 0).sum = (listed ws label).sum := by
  induction ws with
  | nil => rfl
  | cons cw ws ih =>
    rw [List.map_cons, List.sum_cons, ih, listed, listed]
    by_cases hc : cw.1 = label
    · rw [List.filter_cons_of_pos (by simpa using hc), List.map_cons, List.sum_cons,
        if_pos hc.symm, mul_one]
    · rw [List.filter_cons_of_neg (by simpa using hc), if_neg (Ne.symm hc), mul_zero, zero_add]

theorem sum_indicator {α : Type} [ExactRing α] (label : String) {ws : List (String × α)}
    (h : (ws.map (·.1)).Nodup) :
    (listed ws label).sum = ((ws.find? (·.1 = label)).map (·.2)).getD 0 := by
  have htail := tail_listed h label
  rw [← head?_listed]
  cases hl : listed ws label with
  | nil => rfl
  | cons v vs =>
    rw [hl] at htail
    obtain rfl : vs = [] := htail
    simp

end Symbol

end SymbolicFit
