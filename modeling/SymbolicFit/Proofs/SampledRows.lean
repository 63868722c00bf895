import Mathlib
import SymbolicFit.Proofs.DrawnPositions
import SymbolicFit.Proofs.FittingLogic
import SymbolicFit.Proofs.FloatMultiples

/-!
Which rows are selected by a fraction. They stand at different positions of the given rows, there
are as many as the fraction stands for, and a full fraction selects them all.
-/

namespace SymbolicFit.Sampling

variable {γ : Type}

theorem one_le_size (fraction : Float) (n : Nat) : 1 ≤ size fraction n := le_max_left _ _

theorem size_le (fraction : Float) {n : Nat} (hn : 0 < n) : size fraction n ≤ n := by
  rw [size, Nat.max_eq_left hn]
  exact max_le hn (min_le_right _ _)

/-- A full fraction stands for all rows, however their number is rounded. -/
theorem size_of_one_le {fraction : Float} (h : 1 ≤ fraction) {n : Nat} (hn : 0 < n)
    (hle : n ≤ 2 ^ 53) : size fraction n = n := by
  have hproduct := FloatOrder.le_toUInt64_mul h hn hle
  rw [size, Nat.max_eq_left hn, Nat.min_eq_right hproduct, Nat.max_eq_right hn]

/-- Rows in ascending order, from different positions of the given ones, as many as the fraction
stands for. -/
structure Selects (all : List Nat) (fraction : Float) (rows : List Nat) : Prop where
  ascending : rows.Pairwise (· ≤ ·)
  length_eq : rows.length = size fraction all.length
  drawn : ∃ ps : List (Fin all.length), ps.Nodup ∧ rows.Perm (ps.map all.get)
  whole : 1 ≤ fraction → rows = all.mergeSort

variable {all : List Nat} {fraction : Float}

theorem selects_all (h : size fraction all.length = all.length) :
    Selects all fraction all.mergeSort where
  ascending := List.pairwise_mergeSort' (· ≤ ·) all
  length_eq := by rw [List.length_mergeSort, h]
  drawn := by
    refine ⟨List.finRange all.length, List.nodup_finRange _, ?_⟩
    rw [List.map_get_finRange]
    exact List.mergeSort_perm _ _
  whole _ := rfl

theorem Positions.selects {ps : List Nat} (h : Positions all.length (size fraction all.length) ps)
    (hpart : ¬1 ≤ fraction) : Selects all fraction (ps.map (all.getD · 0)).mergeSort where
  ascending := List.pairwise_mergeSort' (· ≤ ·) _
  length_eq := by rw [List.length_mergeSort, List.length_map, h.length_eq]
  drawn := by
    have hget : (ps.pmap Fin.mk h.lt).map all.get = ps.map (all.getD · 0) := by
      rw [List.map_pmap, ← List.pmap_eq_map h.lt]
      exact List.pmap_congr_left ps fun p _ hp _ => (List.getD_eq_getElem all 0 hp).symm
    refine ⟨ps.pmap Fin.mk h.lt, h.nodup.pmap fun p _ q _ => Fin.mk.inj, ?_⟩
    rw [hget]
    exact List.mergeSort_perm _ _
  whole hfull := absurd hfull hpart

/-- The sampler with a list of the numbers of rows and of positions it is given. -/
def noting (sample : Nat → Nat → StateM γ (List Nat)) (length amount : Nat) :
    StateM (γ × List (Nat × Nat)) (List Nat) := fun s =>
  ((sample length amount s.1).1, ((sample length amount s.1).2, s.2 ++ [(length, amount)]))

variable {sample : Nat → Nat → StateM γ (List Nat)}

theorem rowsBy_of_size_ge (hne : all ≠ []) (h : all.length ≤ size fraction all.length) (g : γ) :
    (rowsBy sample all fraction).run g = (.ok all.mergeSort, g) := by
  unfold rowsBy
  rw [if_neg (by simpa using hne)]
  dsimp only
  rw [if_pos h]
  rfl

theorem rowsBy_of_size_lt (hne : all ≠ []) (h : size fraction all.length < all.length) (g : γ) :
    (rowsBy sample all fraction).run g =
      (.ok ((sample all.length (size fraction all.length) g).1.map (all.getD · 0)).mergeSort,
        (sample all.length (size fraction all.length) g).2) := by
  unfold rowsBy
  rw [if_neg (by simpa using hne)]
  dsimp only
  rw [if_neg (Nat.not_le.2 h)]
  rfl

/-- Some of the rows are selected, and the sampler is asked for positions only if it is for some of
them but not for all. -/
theorem rowsBy_selects (hs : Samples sample) (hne : all ≠ []) (hle : all.length ≤ 2 ^ 53)
    (fraction : Float) (g : γ) :
    ∃ rows g' calls, (rowsBy sample all fraction).run g = (.ok rows, g') ∧
      (rowsBy (noting sample) all fraction).run (g, []) = (.ok rows, (g', calls)) ∧
      Selects all fraction rows ∧
      1 ≤ size fraction all.length ∧ size fraction all.length ≤ all.length ∧
      ∀ c ∈ calls, c.1 = all.length ∧ 1 ≤ c.2 ∧ c.2 < all.length := by
  have hpos := List.length_pos_of_ne_nil hne
  have hmin := one_le_size fraction all.length
  have hmax := size_le fraction hpos
  rcases hmax.lt_or_eq with hlt | heq
  · have hpart : ¬1 ≤ fraction := fun hfull => hlt.ne (size_of_one_le hfull hpos hle)
    refine ⟨_, _, [(all.length, size fraction all.length)], rowsBy_of_size_lt hne hlt g,
      rowsBy_of_size_lt hne hlt (g, []), (hs _ _ g hmax).selects hpart, hmin, hmax, ?_⟩
    intro c hc
    rw [List.mem_singleton.1 hc]
    exact ⟨rfl, hmin, hlt⟩
  · exact ⟨_, _, [], rowsBy_of_size_ge hne heq.ge g, rowsBy_of_size_ge hne heq.ge (g, []),
      selects_all heq, hmin, hmax, nofun⟩

/-- Half of four rows, which are not in order and not all different. -/
theorem rows_selects_half :
    ∃ rs g', (rowsBy positions [7, 3, 3, 9] 0.5).run (⟨0⟩ : SplitMix) = (.ok rs, g') ∧
      rs.length = 2 ∧ Selects [7, 3, 3, 9] 0.5 rs := by
  obtain ⟨rs, g', calls, h, -, hselects, -⟩ := rowsBy_selects
    (@positions_samples SplitMix _) (List.cons_ne_nil 7 [3, 3, 9]) (by decide) 0.5 ⟨0⟩
  have hsize : size 0.5 [7, 3, 3, 9].length = 2 := by decide
  exact ⟨rs, g', h, hselects.length_eq.trans hsize, hselects⟩

end SymbolicFit.Sampling
