import Mathlib
import SymbolicFit.Correlation
import SymbolicFit.Proofs.ExactArithmetic

/-!
The one-pass correlation over the reals. The running moments are the means and the sums of products
of deviations that two passes give, so the squared correlation is Pearson's: at most one, and blind
to the order of the pairs and to an affine change of one side.
-/

namespace SymbolicFit

section Codeviation

variable {β γ : Type}

noncomputable def average (xs : List ℝ) : ℝ := xs.sum / xs.length

/-- The products of the deviations of two features of some items from their means, summed. -/
noncomputable def codeviation (f g : β → ℝ) (ps : List β) : ℝ :=
  (ps.map fun p => (f p - average (ps.map f)) * (g p - average (ps.map g))).sum

theorem length_mul_average (f : β → ℝ) (ps : List β) :
    ps.length * average (ps.map f) = (ps.map f).sum := by
  cases ps with
  | nil => simp
  | cons p ps =>
    have hn : (((p :: ps).length : ℕ) : ℝ) ≠ 0 := Nat.cast_ne_zero.2 (Nat.succ_ne_zero _)
    rw [average, List.length_map, mul_div_cancel₀ _ hn]

theorem sum_map_mul_sub (f g : β → ℝ) (a b : ℝ) (ps : List β) :
    (ps.map fun p => (f p - a) * (g p - b)).sum =
      (ps.map fun p => f p * g p).sum - b * (ps.map f).sum - a * (ps.map g).sum +
        ps.length * (a * b) := by
  induction ps with
  | nil => simp
  | cons p ps ih =>
    simp only [List.map_cons, List.sum_cons, List.length_cons, ih]
    push_cast
    ring

/-- The codeviation from sums alone. -/
theorem codeviation_eq (f g : β → ℝ) (ps : List β) :
    codeviation f g ps =
      (ps.map fun p => f p * g p).sum -
        ps.length * (average (ps.map f) * average (ps.map g)) := by
  rw [codeviation, sum_map_mul_sub, ← length_mul_average f, ← length_mul_average g]
  ring

/-- One more item moves the mean towards it. -/
theorem average_append_singleton (f : β → ℝ) (ps : List β) (p : β) :
    average ((ps ++ [p]).map f) =
      average (ps.map f) + (f p - average (ps.map f)) / (ps.length + 1) := by
  have hn : (ps.length : ℝ) + 1 ≠ 0 := by positivity
  rw [average, List.length_map, List.map_append, List.sum_append, ← length_mul_average,
    List.length_append]
  simp only [List.map_cons, List.map_nil, List.sum_singleton, List.length_singleton, Nat.cast_add,
    Nat.cast_one]
  field_simp
  ring

/-- One more item adds its deviation from the old mean of one feature times that from the new mean
of the other. -/
theorem codeviation_append_singleton (f g : β → ℝ) (ps : List β) (p : β) :
    codeviation f g (ps ++ [p]) =
      codeviation f g ps +
        (f p - average (ps.map f)) * (g p - average ((ps ++ [p]).map g)) := by
  have hn : (ps.length : ℝ) + 1 ≠ 0 := by positivity
  rw [codeviation_eq, codeviation_eq, average_append_singleton f, average_append_singleton g]
  simp only [List.map_append, List.sum_append, List.map_cons, List.map_nil, List.sum_singleton,
    List.length_append, List.length_singleton, Nat.cast_add, Nat.cast_one]
  field_simp
  ring

theorem codeviation_comm (f g : β → ℝ) (ps : List β) : codeviation f g ps = codeviation g f ps := by
  rw [codeviation, codeviation]
  simp only [mul_comm]

theorem codeviation_map (f g : γ → ℝ) (h : β → γ) (ps : List β) :
    codeviation f g (ps.map h) = codeviation (f ∘ h) (g ∘ h) ps := by
  simp only [codeviation, List.map_map, Function.comp_def]

theorem codeviation_perm (f g : β → ℝ) {ps qs : List β} (h : ps.Perm qs) :
    codeviation f g ps = codeviation f g qs := by
  have haverage : ∀ f : β → ℝ, average (ps.map f) = average (qs.map f) := fun f => by
    rw [average, average, (h.map f).sum_eq, (h.map f).length_eq]
  rw [codeviation_eq, codeviation_eq, haverage, haverage, (h.map fun p => f p * g p).sum_eq,
    h.length_eq]

theorem average_affine (f : β → ℝ) (a b : ℝ) {ps : List β} (h : ps ≠ []) :
    average (ps.map fun p => a * f p + b) = a * average (ps.map f) + b := by
  have hn : (ps.length : ℝ) ≠ 0 := Nat.cast_ne_zero.2 (List.length_eq_zero_iff.not.2 h)
  have hsum : (ps.map fun p => a * f p + b).sum = a * (ps.map f).sum + ps.length * b := by
    rw [List.sum_map_add, List.sum_map_mul_left, List.map_const', List.sum_replicate, nsmul_eq_mul]
  rw [average, average, hsum, List.length_map, List.length_map]
  field_simp

theorem codeviation_affine (f g : β → ℝ) (a b : ℝ) (ps : List β) :
    codeviation (fun p => a * f p + b) g ps = a * codeviation f g ps := by
  cases ps with
  | nil => simp [codeviation]
  | cons p ps =>
    rw [codeviation, average_affine f a b (List.cons_ne_nil p ps), codeviation,
      ← List.sum_map_mul_left]
    congr 1
    refine List.map_congr_left fun q _ => ?_
    ring

theorem codeviation_self_nonneg (f : β → ℝ) (ps : List β) : 0 ≤ codeviation f f ps := by
  refine List.sum_nonneg fun x hx => ?_
  obtain ⟨p, -, rfl⟩ := List.mem_map.1 hx
  exact mul_self_nonneg _

/-- Only a constant feature does not deviate from its mean. -/
theorem codeviation_self_eq_zero (f : β → ℝ) {ps : List β} (h : ps ≠ []) :
    codeviation f f ps = 0 ↔ ∃ c, ∀ p ∈ ps, f p = c := by
  constructor
  · intro hzero
    refine ⟨average (ps.map f), fun p hp => ?_⟩
    have hnonneg : ∀ x ∈ ps.map fun p =>
        (f p - average (ps.map f)) * (f p - average (ps.map f)), 0 ≤ x := by
      intro x hx
      obtain ⟨q, -, rfl⟩ := List.mem_map.1 hx
      exact mul_self_nonneg _
    have hp' := List.all_zero_of_le_zero_le_of_sum_eq_zero hnonneg hzero
      (List.mem_map.2 ⟨p, hp, rfl⟩)
    exact sub_eq_zero.1 (mul_self_eq_zero.1 hp')
  · rintro ⟨c, hc⟩
    have hmean : average (ps.map f) = c := by
      have hn : (ps.length : ℝ) ≠ 0 := Nat.cast_ne_zero.2 (List.length_eq_zero_iff.not.2 h)
      rw [average, List.length_map, List.map_congr_left hc, List.map_const', List.sum_replicate,
        nsmul_eq_mul, mul_div_cancel_left₀ _ hn]
    refine List.sum_eq_zero fun x hx => ?_
    obtain ⟨p, hp, rfl⟩ := List.mem_map.1 hx
    rw [hmean, hc p hp, sub_self, zero_mul]

/-- The inequality of Cauchy and Schwarz for the deviations of two features. -/
theorem codeviation_sq_le (f g : β → ℝ) (ps : List β) :
    codeviation f g ps * codeviation f g ps ≤ codeviation f f ps * codeviation g g ps := by
  have hsum : ∀ F : β → ℝ, ∑ i : Fin ps.length, F ps[i] = (ps.map F).sum :=
    Fin.sum_univ_fun_getElem ps
  have h := Finset.sum_mul_sq_le_sq_mul_sq (Finset.univ : Finset (Fin ps.length))
    (fun i => f ps[i] - average (ps.map f)) (fun i => g ps[i] - average (ps.map g))
  simp only [sq] at h
  rwa [hsum fun p => (f p - average (ps.map f)) * (g p - average (ps.map g)),
    hsum fun p => (f p - average (ps.map f)) * (f p - average (ps.map f)),
    hsum fun p => (g p - average (ps.map g)) * (g p - average (ps.map g))] at h

end Codeviation

namespace Moments

/-- The moments of all pairs, from their means. -/
noncomputable def twoPass (ps : List (ℝ × ℝ)) : Moments ℝ where
  count := ps.length
  meanEstimated := average (ps.map Prod.fst)
  meanObserved := average (ps.map Prod.snd)
  spreadEstimated := codeviation Prod.fst Prod.fst ps
  spreadObserved := codeviation Prod.snd Prod.snd ps
  covariation := codeviation Prod.fst Prod.snd ps

theorem twoPass_append_singleton (ps : List (ℝ × ℝ)) (p : ℝ × ℝ) :
    twoPass (ps ++ [p]) = (twoPass ps).add p.1 p.2 := by
  rw [twoPass, codeviation_append_singleton, codeviation_append_singleton,
    codeviation_append_singleton, average_append_singleton, average_append_singleton]
  simp only [List.length_append, List.length_singleton, Nat.cast_add, Nat.cast_one]
  rfl

/-- One pass over the pairs gives the moments of two passes. -/
theorem ofPairs_eq_twoPass (ps : List (ℝ × ℝ)) : ofPairs ps = twoPass ps := by
  induction ps using List.reverseRecOn with
  | nil => simp [ofPairs, twoPass, empty, average, codeviation]
  | append_singleton ps p ih =>
    rw [twoPass_append_singleton, ← ih, ofPairs, List.foldl_append]
    rfl

variable (ps : List (ℝ × ℝ))

/-- The square of the correlation needs no roots. -/
theorem correlation_mul_self : (twoPass ps).correlation * (twoPass ps).correlation =
    (codeviation Prod.fst Prod.snd ps * codeviation Prod.fst Prod.snd ps) /
      (codeviation Prod.fst Prod.fst ps * codeviation Prod.snd Prod.snd ps) := by
  change codeviation Prod.fst Prod.snd ps / (√(codeviation Prod.fst Prod.fst ps) *
      √(codeviation Prod.snd Prod.snd ps)) * (codeviation Prod.fst Prod.snd ps /
        (√(codeviation Prod.fst Prod.fst ps) * √(codeviation Prod.snd Prod.snd ps))) = _
  rw [div_mul_div_comm, mul_mul_mul_comm √_, Real.mul_self_sqrt (codeviation_self_nonneg _ ps),
    Real.mul_self_sqrt (codeviation_self_nonneg _ ps)]

theorem correlation_mul_self_le_one :
    (twoPass ps).correlation * (twoPass ps).correlation ≤ 1 := by
  rw [correlation_mul_self]
  exact div_le_one_of_le₀ (codeviation_sq_le _ _ ps)
    (mul_nonneg (codeviation_self_nonneg _ ps) (codeviation_self_nonneg _ ps))

/-- The cap at one is never reached from above. -/
theorem squaredCorrelation?_twoPass : (twoPass ps).squaredCorrelation? =
    if codeviation Prod.fst Prod.fst ps = 0 ∨ codeviation Prod.snd Prod.snd ps = 0 then none
    else some ((twoPass ps).correlation * (twoPass ps).correlation) := by
  have hspread : (twoPass ps).spreadEstimated ≤ 0 ∨ (twoPass ps).spreadObserved ≤ 0 ↔
      codeviation Prod.fst Prod.fst ps = 0 ∨ codeviation Prod.snd Prod.snd ps = 0 :=
    or_congr (codeviation_self_nonneg Prod.fst ps).ge_iff_eq'
      (codeviation_self_nonneg Prod.snd ps).ge_iff_eq'
  have hcap : Scalar.lesser ((twoPass ps).correlation * (twoPass ps).correlation) 1 =
      (twoPass ps).correlation * (twoPass ps).correlation :=
    if_neg (not_lt.2 (correlation_mul_self_le_one ps))
  rw [squaredCorrelation?, hcap]
  exact if_congr hspread rfl rfl

end Moments

/-- The squared deviations from the mean, summed. -/
noncomputable def sumOfSquares (xs : List ℝ) : ℝ := (xs.map fun x => (x - average xs) ^ 2).sum

/-- The products of the deviations from the two means, summed. -/
noncomputable def sumOfProducts (xs ys : List ℝ) : ℝ :=
  (List.zipWith (fun x y => (x - average xs) * (y - average ys)) xs ys).sum

/-- Pearson's correlation coefficient by its definition. -/
noncomputable def pearson (xs ys : List ℝ) : ℝ :=
  sumOfProducts xs ys / (√(sumOfSquares xs) * √(sumOfSquares ys))

section

variable {e o : List ℝ}

theorem codeviation_id (xs : List ℝ) : codeviation id id xs = sumOfSquares xs := by
  simp only [codeviation, sumOfSquares, List.map_id, id, sq]

theorem codeviation_fst_zip (h : e.length = o.length) :
    codeviation Prod.fst Prod.fst (e.zip o) = sumOfSquares e := by
  have hmap := codeviation_map id id Prod.fst (e.zip o)
  rw [List.map_fst_zip h.le, codeviation_id] at hmap
  exact hmap.symm

theorem codeviation_snd_zip (h : e.length = o.length) :
    codeviation Prod.snd Prod.snd (e.zip o) = sumOfSquares o := by
  have hmap := codeviation_map id id Prod.snd (e.zip o)
  rw [List.map_snd_zip h.ge, codeviation_id] at hmap
  exact hmap.symm

theorem codeviation_zip (h : e.length = o.length) :
    codeviation Prod.fst Prod.snd (e.zip o) = sumOfProducts e o := by
  rw [codeviation, List.map_fst_zip h.le, List.map_snd_zip h.ge, sumOfProducts,
    ← List.map_uncurry_zip_eq_zipWith]
  rfl

theorem sumOfSquares_eq_zero {xs : List ℝ} (h : xs ≠ []) :
    sumOfSquares xs = 0 ↔ ∃ c, ∀ x ∈ xs, x = c := by
  rw [← codeviation_id]
  exact codeviation_self_eq_zero id h

theorem twoPass_zip (h : e.length = o.length) : Moments.twoPass (e.zip o) =
    ⟨e.length, average e, average o, sumOfSquares e, sumOfSquares o, sumOfProducts e o⟩ := by
  rw [Moments.twoPass, codeviation_fst_zip h, codeviation_snd_zip h, codeviation_zip h,
    List.map_fst_zip h.le, List.map_snd_zip h.ge, List.length_zip, h, min_self]

/-- On lists of one length the squared correlation is that of their pairs. -/
theorem squaredCorrelation?_real (h : e.length = o.length) (he : e ≠ []) :
    squaredCorrelation? e o = (Moments.twoPass (e.zip o)).squaredCorrelation? := by
  have hlists : ¬(e.isEmpty = true ∨ e.length ≠ o.length) := by simp [h, he]
  have hfinite : ((e.zip o).all fun p => Scalar.isFinite p.1 && Scalar.isFinite p.2) = true :=
    List.all_eq_true.2 fun _ _ => rfl
  rw [squaredCorrelation?, if_neg hlists, if_pos hfinite, Moments.ofPairs_eq_twoPass]

/-- Features with proportional deviations correlate alike. -/
theorem squaredCorrelation?_congr {ps qs : List (ℝ × ℝ)} {a : ℝ} (ha : a ≠ 0)
    (hfst : codeviation Prod.fst Prod.fst qs = a * a * codeviation Prod.fst Prod.fst ps)
    (hsnd : codeviation Prod.snd Prod.snd qs = codeviation Prod.snd Prod.snd ps)
    (hboth : codeviation Prod.fst Prod.snd qs = a * codeviation Prod.fst Prod.snd ps) :
    (Moments.twoPass qs).squaredCorrelation? = (Moments.twoPass ps).squaredCorrelation? := by
  rw [Moments.squaredCorrelation?_twoPass, Moments.squaredCorrelation?_twoPass,
    Moments.correlation_mul_self, Moments.correlation_mul_self, hfst, hsnd, hboth]
  have haa : a * a ≠ 0 := mul_self_ne_zero.2 ha
  simp only [mul_eq_zero, haa, false_or]
  rw [mul_mul_mul_comm, mul_assoc (a * a), mul_div_mul_left _ _ haa]

theorem squaredCorrelation?_swap (h : e.length = o.length) (he : e ≠ []) :
    squaredCorrelation? o e = squaredCorrelation? e o := by
  have ho : o ≠ [] := fun ho => he (List.eq_nil_of_length_eq_zero (by rw [h, ho, List.length_nil]))
  rw [squaredCorrelation?_real h he, squaredCorrelation?_real h.symm ho,
    Moments.squaredCorrelation?_twoPass, Moments.squaredCorrelation?_twoPass,
    Moments.correlation_mul_self, Moments.correlation_mul_self, codeviation_fst_zip h,
    codeviation_snd_zip h, codeviation_fst_zip h.symm, codeviation_snd_zip h.symm,
    ← List.zip_swap e o, codeviation_map, codeviation_comm, mul_comm (sumOfSquares o)]
  simp only [or_comm]
  rfl

theorem squaredCorrelation?_perm {e' o' : List ℝ} (h : e.length = o.length) (he : e ≠ [])
    (h' : e'.length = o'.length) (hp : (e'.zip o').Perm (e.zip o)) :
    squaredCorrelation? e' o' = squaredCorrelation? e o := by
  have hlen : e'.length = e.length := by
    have := hp.length_eq
    simpa [h, h'] using this
  have he' : e' ≠ [] := fun hn => he (List.eq_nil_of_length_eq_zero (by rw [← hlen, hn]; rfl))
  rw [squaredCorrelation?_real h he, squaredCorrelation?_real h' he']
  refine squaredCorrelation?_congr one_ne_zero ?_ ?_ ?_
  · rw [codeviation_perm _ _ hp, mul_one, one_mul]
  · exact codeviation_perm _ _ hp
  · rw [codeviation_perm _ _ hp, one_mul]

theorem squaredCorrelation?_affine {a : ℝ} (ha : a ≠ 0) (b : ℝ) (h : e.length = o.length)
    (he : e ≠ []) :
    squaredCorrelation? (e.map fun x => a * x + b) o = squaredCorrelation? e o := by
  have he' : (e.map fun x => a * x + b) ≠ [] := List.map_eq_nil_iff.not.2 he
  have hmap : ((e.map fun x => a * x + b).zip o) =
      (e.zip o).map (Prod.map (fun x => a * x + b) id) := List.zip_map_left
  rw [squaredCorrelation?_real h he, squaredCorrelation?_real ((List.length_map _).trans h) he',
    hmap]
  -- the estimates deviate by a factor, the observations do not change
  have hfst : ∀ (g : ℝ × ℝ → ℝ) (ps : List (ℝ × ℝ)),
      codeviation (Prod.fst ∘ Prod.map (fun x => a * x + b) id) g ps =
        a * codeviation Prod.fst g ps :=
    fun g ps => codeviation_affine Prod.fst g a b ps
  refine squaredCorrelation?_congr ha ?_ ?_ ?_
  · rw [codeviation_map, hfst, codeviation_comm, hfst, mul_assoc]
  · rw [codeviation_map]
    rfl
  · rw [codeviation_map, hfst]
    rfl

end

/-- The one-pass squared correlation is Pearson's. The moments are those of two passes; the result
is missing exactly for a constant list and otherwise the square of Pearson's coefficient, which is
at most one before it is capped; swapping the lists, reordering the pairs and an affine change of
the estimates do not matter. -/
theorem squaredCorrelation_pearson (e o : List ℝ) (h : e.length = o.length) (he : e ≠ []) :
    Moments.ofPairs (e.zip o) =
      ⟨e.length, average e, average o, sumOfSquares e, sumOfSquares o, sumOfProducts e o⟩ ∧
    (squaredCorrelation? e o = none ↔ (∃ c, ∀ x ∈ e, x = c) ∨ ∃ c, ∀ y ∈ o, y = c) ∧
    (¬((∃ c, ∀ x ∈ e, x = c) ∨ ∃ c, ∀ y ∈ o, y = c) →
      squaredCorrelation? e o = some (pearson e o * pearson e o)) ∧
    (Moments.ofPairs (e.zip o)).correlation = pearson e o ∧
    0 ≤ pearson e o * pearson e o ∧ pearson e o * pearson e o ≤ 1 ∧
    squaredCorrelation? o e = squaredCorrelation? e o ∧
    (∀ e' o', e'.length = o'.length → (e'.zip o').Perm (e.zip o) →
      squaredCorrelation? e' o' = squaredCorrelation? e o) ∧
    ∀ a b : ℝ, a ≠ 0 →
      squaredCorrelation? (e.map fun x => a * x + b) o = squaredCorrelation? e o := by
  have ho : o ≠ [] := fun ho => he (List.eq_nil_of_length_eq_zero (by rw [h, ho, List.length_nil]))
  have hr : (Moments.twoPass (e.zip o)).correlation = pearson e o := by
    rw [twoPass_zip h]
    rfl
  have hvalue : squaredCorrelation? e o =
      if sumOfSquares e = 0 ∨ sumOfSquares o = 0 then none
      else some (pearson e o * pearson e o) := by
    rw [squaredCorrelation?_real h he, Moments.squaredCorrelation?_twoPass, codeviation_fst_zip h,
      codeviation_snd_zip h, hr]
  have hle := Moments.correlation_mul_self_le_one (e.zip o)
  rw [hr] at hle
  rw [← sumOfSquares_eq_zero he, ← sumOfSquares_eq_zero ho]
  refine ⟨(Moments.ofPairs_eq_twoPass _).trans (twoPass_zip h), ?_, fun hconstant => ?_,
    (congrArg _ (Moments.ofPairs_eq_twoPass _)).trans hr, mul_self_nonneg _, hle,
    squaredCorrelation?_swap h he, fun e' o' h' hp => squaredCorrelation?_perm h he h' hp,
    fun a b ha => squaredCorrelation?_affine ha b h he⟩
  · rw [hvalue]
    split_ifs with hconstant
    · exact iff_of_true rfl hconstant
    · exact iff_of_false nofun hconstant
  · rw [hvalue, if_neg hconstant]

theorem squaredCorrelation_pearson_quarter :
    squaredCorrelation? ([0, 1, 1] : List ℝ) [0, 1, 0] = some (1 / 4) ∧
      squaredCorrelation? (([0, 1, 1] : List ℝ).map fun x => -2 * x + 5) [0, 1, 0] =
        some (1 / 4) := by
  have hsquares : sumOfSquares [0, 1, 1] = 2 / 3 ∧ sumOfSquares [0, 1, 0] = 2 / 3 ∧
      sumOfProducts [0, 1, 1] [0, 1, 0] = 1 / 3 := by
    norm_num [sumOfSquares, sumOfProducts, average]
  have hr : pearson [0, 1, 1] [0, 1, 0] = 1 / 2 := by
    rw [pearson, hsquares.1, hsquares.2.1, hsquares.2.2, Real.mul_self_sqrt (by norm_num)]
    norm_num
  have hconstant : ¬((∃ c : ℝ, ∀ x ∈ [0, 1, 1], x = c) ∨ ∃ c : ℝ, ∀ y ∈ [0, 1, 0], y = c) := by
    rintro (⟨c, hc⟩ | ⟨c, hc⟩)
    · exact zero_ne_one ((hc 0 (by simp)).trans (hc 1 (by simp)).symm)
    · exact zero_ne_one ((hc 0 (by simp)).trans (hc 1 (by simp)).symm)
  obtain ⟨-, -, hvalue, -, -, -, -, -, haffine⟩ :=
    squaredCorrelation_pearson [0, 1, 1] [0, 1, 0] rfl (List.cons_ne_nil _ _)
  have hquarter : squaredCorrelation? ([0, 1, 1] : List ℝ) [0, 1, 0] = some (1 / 4) := by
    rw [hvalue hconstant, hr]
    norm_num
  exact ⟨hquarter, (haffine (-2) 5 (by norm_num)).trans hquarter⟩

end SymbolicFit
