import Mathlib
import SymbolicFit.Configuration
import SymbolicFit.Proofs.FloatSquares
import SymbolicFit.Proofs.RowReads

/-!
Policies from sequences of settings. A sequence fails by a repetition exactly if a setting is given
twice, and the last one given again is named; otherwise each setting fills its own place, whatever
the order, and a policy is built exactly if every value is valid and there is a target.
-/

namespace SymbolicFit

open FloatOrder

namespace Setting

def name : Setting → String
  | probability _ => "probability"
  | budget _ => "iterations"
  | tuningFraction _ => "optimization_rows_percentage"
  | scoringFraction _ => "evaluation_rows_percentage"
  | tuneWeights _ => "update_variable_weights"
  | rescale _ => "linear_scaling"
  | keepTuned _ => "update_constants_in_tree"
  | limits .. => "estimation_limits"
  | verify _ => "gradient_check"
  | countPasses _ => "count_evaluations"
  | trainingRows _ => "training_rows"
  | target _ => "target"
  | excluded _ => "excluded_nodes"

/-- The names that settings are given under. -/
def names (ss : List Setting) : List String := ss.map name

theorem names_append_singleton (ss : List Setting) (s : Setting) :
    names (ss ++ [s]) = names ss ++ [s.name] := List.map_append

/-- What the value of a setting has to satisfy. -/
def Valid : Setting → Prop
  | probability p => 0 ≤ p ∧ p ≤ 1
  | budget n => n ≤ 10000
  | tuningFraction x | scoringFraction x => 0 < x ∧ x ≤ 1
  | limits lower upper => lower.isNaN = false ∧ upper.isNaN = false ∧ lower ≤ upper
  | trainingRows rows => rows ≠ []
  | _ => True

end Setting

namespace Configuration

open Setting (names names_append_singleton)

theorem note_eq {β : Type} (c : Configuration) (name : String) (earlier : Option β) :
    c.note name earlier =
      { c with repeated := if earlier.isSome then some name else c.repeated } := by
  unfold note
  split_ifs <;> rfl

/-- A place of a configuration, with the settings that fill it. -/
structure Slot (β : Type) where
  name : String
  get : Configuration → Option β
  give : β → Setting
  get_empty : get {} = none := by rfl
  name_give : ∀ x, (give x).name = name := by exact fun _ => rfl
  exists_give : ∀ s : Setting, s.name = name → ∃ x, s = give x := by
    intro s h
    cases s <;> first | exact ⟨_, rfl⟩ | simp [Setting.name] at h
  get_give : ∀ (c : Configuration) x, get (c.set (give x)) = some x := by exact fun _ _ => rfl
  get_other : ∀ (c : Configuration) (s : Setting), s.name ≠ name → get (c.set s) = get c := by
    intro c s h
    cases s <;> first | exact absurd rfl h | simp only [set, note_eq]
  repeated_give : ∀ (c : Configuration) x,
    (c.set (give x)).repeated = if (get c).isSome then some name else c.repeated := by
    intro c x
    simp only [set, note_eq]

namespace Slot

def probability : Slot Float where
  name := "probability"
  get := Configuration.probability
  give := .probability

def budget : Slot Nat where
  name := "iterations"
  get := Configuration.budget
  give := .budget

def tuningFraction : Slot Float where
  name := "optimization_rows_percentage"
  get := Configuration.tuningFraction
  give := .tuningFraction

def scoringFraction : Slot Float where
  name := "evaluation_rows_percentage"
  get := Configuration.scoringFraction
  give := .scoringFraction

def tuneWeights : Slot Bool where
  name := "update_variable_weights"
  get := Configuration.tuneWeights
  give := .tuneWeights

def rescale : Slot Bool where
  name := "linear_scaling"
  get := Configuration.rescale
  give := .rescale

def keepTuned : Slot Bool where
  name := "update_constants_in_tree"
  get := Configuration.keepTuned
  give := .keepTuned

def limits : Slot (Float × Float) where
  name := "estimation_limits"
  get := Configuration.limits
  give l := .limits l.1 l.2
  exists_give s h := by
    cases s <;> first | exact ⟨(_, _), rfl⟩ | simp [Setting.name] at h

def verify : Slot Bool where
  name := "gradient_check"
  get := Configuration.verify
  give := .verify

def countPasses : Slot Bool where
  name := "count_evaluations"
  get := Configuration.countPasses
  give := .countPasses

def trainingRows : Slot (List Nat) where
  name := "training_rows"
  get := Configuration.trainingRows
  give := .trainingRows

def target : Slot String where
  name := "target"
  get := Configuration.target
  give := .target

def excluded : Slot (List Nat) where
  name := "excluded_nodes"
  get := Configuration.excluded
  give := .excluded

end Slot

/-- Every setting fills a slot. -/
theorem exists_slot (s : Setting) : ∃ (β : Type) (slot : Slot β) (x : β), s = slot.give x := by
  cases s with
  | probability p => exact ⟨_, .probability, p, rfl⟩
  | budget n => exact ⟨_, .budget, n, rfl⟩
  | tuningFraction x => exact ⟨_, .tuningFraction, x, rfl⟩
  | scoringFraction x => exact ⟨_, .scoringFraction, x, rfl⟩
  | tuneWeights b => exact ⟨_, .tuneWeights, b, rfl⟩
  | rescale b => exact ⟨_, .rescale, b, rfl⟩
  | keepTuned b => exact ⟨_, .keepTuned, b, rfl⟩
  | limits lower upper => exact ⟨_, .limits, (lower, upper), rfl⟩
  | verify b => exact ⟨_, .verify, b, rfl⟩
  | countPasses b => exact ⟨_, .countPasses, b, rfl⟩
  | trainingRows rows => exact ⟨_, .trainingRows, rows, rfl⟩
  | target name => exact ⟨_, .target, name, rfl⟩
  | excluded nodes => exact ⟨_, .excluded, nodes, rfl⟩

/-- A configuration is the contents of its slots and the name of a repetition. -/
theorem ext_slots {c c' : Configuration}
    (hget : ∀ {β : Type} (slot : Slot β), slot.get c = slot.get c')
    (hrepeated : c.repeated = c'.repeated) : c = c' := by
  cases c
  cases c'
  obtain rfl := hget .probability
  obtain rfl := hget .budget
  obtain rfl := hget .tuningFraction
  obtain rfl := hget .scoringFraction
  obtain rfl := hget .tuneWeights
  obtain rfl := hget .rescale
  obtain rfl := hget .keepTuned
  obtain rfl := hget .limits
  obtain rfl := hget .verify
  obtain rfl := hget .countPasses
  obtain rfl := hget .trainingRows
  obtain rfl := hget .target
  obtain rfl := hget .excluded
  obtain rfl := hrepeated
  rfl

theorem ofSettings_append_singleton (ss : List Setting) (s : Setting) :
    ofSettings (ss ++ [s]) = (ofSettings ss).set s := by
  rw [ofSettings, List.foldl_append]
  rfl

namespace Slot

variable {β : Type} (slot : Slot β)

/-- A slot is filled once a setting was given under its name. -/
theorem isSome_get_ofSettings (ss : List Setting) :
    (slot.get (ofSettings ss)).isSome ↔ slot.name ∈ names ss := by
  induction ss using List.reverseRecOn with
  | nil => simp [ofSettings, slot.get_empty, names]
  | append_singleton ss s ih =>
    rw [ofSettings_append_singleton, names_append_singleton, List.mem_append,
      List.mem_singleton]
    by_cases hs : s.name = slot.name
    · obtain ⟨x, rfl⟩ := slot.exists_give s hs
      simp [slot.get_give, hs]
    · rw [slot.get_other _ s hs, ih]
      simp [Ne.symm hs]

/-- Where no setting is given twice, a slot holds what was given for it. -/
theorem get_ofSettings_iff {ss : List Setting} (hn : (names ss).Nodup) (x : β) :
    slot.get (ofSettings ss) = some x ↔ slot.give x ∈ ss := by
  induction ss using List.reverseRecOn with
  | nil => simp [ofSettings, slot.get_empty]
  | append_singleton ss s ih =>
    rw [names_append_singleton, List.nodup_append] at hn
    obtain ⟨hss, -, hfresh⟩ := hn
    rw [ofSettings_append_singleton, List.mem_append, List.mem_singleton]
    by_cases hs : s.name = slot.name
    · have hbefore : slot.give x ∉ ss := fun hmem =>
        hfresh _ (List.mem_map_of_mem hmem) _ (List.mem_singleton_self _)
          ((slot.name_give x).trans hs.symm)
      obtain ⟨y, rfl⟩ := slot.exists_give s hs
      have hinj : slot.give x = slot.give y ↔ x = y := by
        refine ⟨fun h => ?_, congrArg slot.give⟩
        have hget := slot.get_give {} x
        rw [h, slot.get_give] at hget
        exact (Option.some.inj hget).symm
      rw [slot.get_give, Option.some_inj, hinj, eq_comm]
      simp [hbefore]
    · have hne : slot.give x ≠ s := fun h => hs (h ▸ slot.name_give x)
      rw [slot.get_other _ s hs, ih hss]
      simp [hne]

end Slot

/-- The setting at a place was given before under the same name. -/
def RepeatsAt (ss : List Setting) (i : Nat) : Prop :=
  ∃ s, ss[i]? = some s ∧ s.name ∈ names (ss.take i)

theorem RepeatsAt.lt_length {ss : List Setting} {i : Nat} (h : RepeatsAt ss i) : i < ss.length := by
  obtain ⟨s, hs, -⟩ := h
  exact (List.getElem?_eq_some_iff.1 hs).1

theorem repeatsAt_append_singleton {ss : List Setting} {s : Setting} {i : Nat} :
    RepeatsAt (ss ++ [s]) i ↔ RepeatsAt ss i ∨ i = ss.length ∧ s.name ∈ names ss := by
  unfold RepeatsAt
  rcases Nat.lt_trichotomy i ss.length with hi | rfl | hi
  · rw [List.getElem?_append_left hi, List.take_append_of_le_length hi.le]
    simp [hi.ne]
  · simp
  · have hi' : (ss ++ [s]).length ≤ i := by
      rw [List.length_append]
      exact hi
    simp [List.getElem?_eq_none hi', List.getElem?_eq_none hi.le, hi.ne']

/-- The last setting that was given before too has this name. -/
def LastRepeated (ss : List Setting) (name : String) : Prop :=
  ∃ i s, IsGreatest {i | RepeatsAt ss i} i ∧ ss[i]? = some s ∧ s.name = name

theorem lastRepeated_of_mem {ss : List Setting} {s : Setting} (hs : s.name ∈ names ss)
    (name : String) : LastRepeated (ss ++ [s]) name ↔ s.name = name := by
  have hlast : (ss ++ [s])[ss.length]? = some s := by simp
  have hgreatest : IsGreatest {i | RepeatsAt (ss ++ [s]) i} ss.length := by
    refine ⟨repeatsAt_append_singleton.2 (.inr ⟨rfl, hs⟩), fun i hi => ?_⟩
    have hlt := RepeatsAt.lt_length hi
    rw [List.length_append, List.length_singleton] at hlt
    omega
  constructor
  · rintro ⟨i, s', hi, hs', rfl⟩
    obtain rfl := hi.unique hgreatest
    rw [Option.some.inj (hlast.symm.trans hs')]
  · exact fun h => ⟨ss.length, s, hgreatest, hlast, h⟩

theorem lastRepeated_of_not_mem {ss : List Setting} {s : Setting} (hs : s.name ∉ names ss)
    (name : String) : LastRepeated (ss ++ [s]) name ↔ LastRepeated ss name := by
  have hsame : {i | RepeatsAt (ss ++ [s]) i} = {i | RepeatsAt ss i} := by
    ext i
    simp [repeatsAt_append_singleton, hs]
  unfold LastRepeated
  rw [hsame]
  refine exists_congr fun i => exists_congr fun s' => and_congr_right fun hi => ?_
  rw [List.getElem?_append_left hi.1.lt_length]

/-- The name of the last repetition is kept. -/
theorem repeated_ofSettings (ss : List Setting) (name : String) :
    (ofSettings ss).repeated = some name ↔ LastRepeated ss name := by
  induction ss using List.reverseRecOn with
  | nil =>
    refine ⟨nofun, ?_⟩
    rintro ⟨i, s, -, hs, -⟩
    cases hs
  | append_singleton ss s ih =>
    obtain ⟨β, slot, x, rfl⟩ := exists_slot s
    have hfilled := slot.isSome_get_ofSettings ss
    rw [← slot.name_give x] at hfilled
    rw [ofSettings_append_singleton, slot.repeated_give]
    split_ifs with h
    · rw [lastRepeated_of_mem (hfilled.1 h), Option.some_inj, slot.name_give]
    · rw [lastRepeated_of_not_mem (mt hfilled.2 h), ih]

theorem repeated_eq_none_iff (ss : List Setting) :
    (ofSettings ss).repeated = none ↔ (names ss).Nodup := by
  induction ss using List.reverseRecOn with
  | nil => exact iff_of_true rfl List.nodup_nil
  | append_singleton ss s ih =>
    obtain ⟨β, slot, x, rfl⟩ := exists_slot s
    have hfilled := slot.isSome_get_ofSettings ss
    rw [← slot.name_give x] at hfilled
    rw [ofSettings_append_singleton, slot.repeated_give, names_append_singleton,
      ← List.concat_eq_append, List.nodup_concat]
    split_ifs with h
    · simp [hfilled.1 h]
    · simp [mt hfilled.2 h, ih]

/-- The policy of a configuration with this target, defaults filled in. -/
def filled (c : Configuration) (target : String) : ScoringPolicy where
  probability := c.probability.getD 1
  budget := c.budget.getD 10
  tuningFraction := c.tuningFraction.getD 1
  scoringFraction := c.scoringFraction.getD 1
  tuneWeights := c.tuneWeights.getD true
  rescale := c.rescale.getD true
  keepTuned := c.keepTuned.getD true
  limits := (c.limits.map fun l => ⟨l.1, l.2⟩).getD .finite
  verify := c.verify.getD false
  countPasses := c.countPasses.getD false
  trainingRows := c.trainingRows
  target
  excluded := sortedSet (c.excluded.getD [])

end Configuration

section Checks

theorem checkProbability_eq_ok {x : Float} : checkProbability x = .ok () ↔ 0 ≤ x ∧ x ≤ 1 := by
  unfold checkProbability
  split_ifs with h
  · exact iff_of_true rfl h
  · exact iff_of_false nofun h

theorem checkBudget_eq_ok {n : Nat} : checkBudget n = .ok () ↔ n ≤ 10000 := by
  unfold checkBudget
  split_ifs with h
  · exact iff_of_true rfl h
  · exact iff_of_false nofun h

/-- A number between zero and one is finite. -/
theorem isFinite_of_fraction {x : Float} (h0 : 0 < x) (h1 : x ≤ 1) : x.isFinite = true := by
  rw [lt_iff] at h0
  rw [le_iff] at h1
  change x.toModel.unpack.isFinite = true
  cases hu : x.toModel.unpack with
  | notANumber =>
    rw [hu] at h1
    cases h1
  | infinity s =>
    rw [hu] at h0 h1
    cases s
    · cases h0
    · cases h1
  | zero | finite => rfl

theorem isNaN_of_isFinite {x : Float} (h : x.isFinite = true) : x.isNaN = false := by
  change x.toModel.unpack.isFinite = true at h
  change x.toModel.unpack.isNaN = false
  cases hu : x.toModel.unpack with
  | notANumber =>
    rw [hu] at h
    cases h
  | infinity | zero | finite => rfl

theorem checkFraction_eq_ok {name : String} {x : Float} :
    checkFraction name x = .ok () ↔ 0 < x ∧ x ≤ 1 := by
  unfold checkFraction
  split_ifs with h
  · obtain ⟨hfinite, hpos, hone⟩ := h
    have hx := isNaN_of_isFinite hfinite
    refine iff_of_true rfl ⟨?_, le_of_not_lt hx (by decide) hone⟩
    by_contra hle
    exact hpos (le_of_not_lt hx (by decide) hle)
  · refine iff_of_false nofun fun ⟨h0, h1⟩ => h ⟨isFinite_of_fraction h0 h1, ?_, ?_⟩
    · exact fun hle => not_lt_of_le hle h0
    · exact not_lt_of_le h1

theorem checkLimits_eq_ok {lower upper : Float} : checkLimits lower upper = .ok () ↔
    lower.isNaN = false ∧ upper.isNaN = false ∧ lower ≤ upper := by
  unfold checkLimits
  split_ifs with h
  · refine iff_of_false nofun fun ⟨hl, hu, hle⟩ => ?_
    rw [hl, hu] at h
    exact not_lt_of_le hle (by simpa using h)
  · simp only [not_or, Bool.not_eq_true] at h
    obtain ⟨hl, hu, hlt⟩ := h
    exact iff_of_true rfl ⟨hl, hu, le_of_not_lt hl hu hlt⟩

theorem checkRepeated_eq_ok {repeated : Option String} :
    checkRepeated repeated = .ok () ↔ repeated = none := by
  cases repeated with
  | none => exact iff_of_true rfl rfl
  | some name => exact iff_of_false nofun nofun

theorem check_bind_eq_ok {β : Type} {x : Except Failure Unit} {f : Unit → Except Failure β}
    {b : β} : (x >>= f) = .ok b ↔ x = .ok () ∧ f () = .ok b :=
  bind_eq_ok.trans ⟨fun ⟨_, h⟩ => h, fun h => ⟨(), h⟩⟩

theorem check_bind_ne_error {β : Type} {x : Except Failure Unit} {f : Unit → Except Failure β}
    {e : Failure} (hx : x ≠ .error e) (hf : f () ≠ .error e) : (x >>= f) ≠ .error e := by
  cases x with
  | error e' => exact fun h => hx (congrArg Except.error (Except.error.inj h))
  | ok u => exact hf

end Checks

/-- Every value of a policy is valid. -/
structure ScoringPolicy.Sound (p : ScoringPolicy) : Prop where
  probability : 0 ≤ p.probability ∧ p.probability ≤ 1
  budget : p.budget ≤ 10000
  tuningFraction : 0 < p.tuningFraction ∧ p.tuningFraction ≤ 1
  scoringFraction : 0 < p.scoringFraction ∧ p.scoringFraction ≤ 1
  limits : p.limits.lower.isNaN = false ∧ p.limits.upper.isNaN = false ∧
    p.limits.lower ≤ p.limits.upper
  trainingRows : p.trainingRows ≠ some []

namespace Configuration

/-- The checks in their order; the default limits pass theirs. -/
theorem build_eq (c : Configuration) : c.build = (do
    checkRepeated c.repeated
    checkProbability (c.probability.getD 1)
    checkBudget (c.budget.getD 10)
    checkFraction "optimization_rows_percentage" (c.tuningFraction.getD 1)
    checkFraction "evaluation_rows_percentage" (c.scoringFraction.getD 1)
    let limits := (c.limits.map fun l => ⟨l.1, l.2⟩).getD Limits.finite
    checkLimits limits.lower limits.upper
    if c.trainingRows.any List.isEmpty then .error .emptyRows
    else (c.target.map c.filled).elim (.error (.missingSetting "target")) .ok) := by
  have hdefault : checkLimits Limits.finite.lower Limits.finite.upper = .ok () := by
    decide +kernel
  unfold build filled
  cases c.limits with
  | none =>
    simp only [Option.map_none, Option.getD_none, hdefault]
    cases c.target <;> rfl
  | some l => cases c.target <;> rfl

/-- A policy is built where no setting was given twice, every value is valid and there is a
target. -/
theorem build_eq_ok {c : Configuration} {p : ScoringPolicy} : c.build = .ok p ↔
    c.repeated = none ∧ p.Sound ∧ ∃ target, c.target = some target ∧ c.filled target = p := by
  have hrows : c.trainingRows.any List.isEmpty = true ↔ c.trainingRows = some [] := by
    cases c.trainingRows <;> simp
  rw [build_eq]
  simp only [check_bind_eq_ok, checkRepeated_eq_ok, checkProbability_eq_ok, checkBudget_eq_ok,
    checkFraction_eq_ok, checkLimits_eq_ok]
  constructor
  · rintro ⟨hrepeated, hprobability, hbudget, htuning, hscoring, hlimits, h⟩
    split_ifs at h with hempty
    cases ht : c.target with
    | none =>
      rw [ht] at h
      cases h
    | some target =>
      rw [ht] at h
      cases h
      exact ⟨hrepeated, ⟨hprobability, hbudget, htuning, hscoring, hlimits, mt hrows.2 hempty⟩,
        target, rfl, rfl⟩
  · rintro ⟨hrepeated, h, target, htarget, rfl⟩
    refine ⟨hrepeated, h.probability, h.budget, h.tuningFraction, h.scoringFraction, h.limits, ?_⟩
    rw [if_neg (mt hrows.1 h.trainingRows), htarget]
    rfl

/-- Only a repetition fails as one. -/
theorem build_eq_repeated {c : Configuration} {name : String} :
    c.build = .error (.repeatedSetting name) ↔ c.repeated = some name := by
  rw [build_eq]
  cases c.repeated with
  | some name' =>
    refine ⟨fun h => ?_, fun h => ?_⟩
    · cases h
      rfl
    · cases h
      rfl
  | none =>
    refine iff_of_false ?_ nofun
    refine check_bind_ne_error nofun (check_bind_ne_error ?_ (check_bind_ne_error ?_
      (check_bind_ne_error ?_ (check_bind_ne_error ?_ (check_bind_ne_error ?_ ?_)))))
    · unfold checkProbability
      split_ifs <;> exact nofun
    · unfold checkBudget
      split_ifs <;> exact nofun
    · unfold checkFraction
      split_ifs <;> exact nofun
    · unfold checkFraction
      split_ifs <;> exact nofun
    · unfold checkLimits
      split_ifs <;> exact nofun
    · cases c.target <;> split_ifs <;> exact nofun

end Configuration

/-- A value is what was given with a setting of this kind, or the default if nothing was. -/
def Fills {β : Type} (ss : List Setting) (give : β → Setting) (default value : β) : Prop :=
  (∀ x, give x ∈ ss → value = x) ∧ ((∀ x, give x ∉ ss) → value = default)

/-- A property of the default holds of the value exactly if it holds of what was given. -/
theorem Fills.iff {β : Type} {ss : List Setting} {give : β → Setting} {default value : β}
    {P : β → Prop} (h : Fills ss give default value) (hdefault : P default) :
    P value ↔ ∀ x, give x ∈ ss → P x := by
  constructor
  · intro hvalue x hx
    rwa [← h.1 x hx]
  · intro hgiven
    by_cases hx : ∃ x, give x ∈ ss
    · obtain ⟨x, hx⟩ := hx
      rw [h.1 x hx]
      exact hgiven x hx
    · rwa [h.2 (not_exists.1 hx)]

namespace ScoringPolicy

/-- A policy holds what was given and the defaults for the rest. -/
structure Holds (p : ScoringPolicy) (ss : List Setting) : Prop where
  probability : Fills ss .probability 1 p.probability
  budget : Fills ss .budget 10 p.budget
  tuningFraction : Fills ss .tuningFraction 1 p.tuningFraction
  scoringFraction : Fills ss .scoringFraction 1 p.scoringFraction
  tuneWeights : Fills ss .tuneWeights true p.tuneWeights
  rescale : Fills ss .rescale true p.rescale
  keepTuned : Fills ss .keepTuned true p.keepTuned
  limits : Fills ss (fun l : Limits Float => .limits l.lower l.upper) .finite p.limits
  verify : Fills ss .verify false p.verify
  countPasses : Fills ss .countPasses false p.countPasses
  trainingRows : ∀ rows, p.trainingRows = some rows ↔ .trainingRows rows ∈ ss
  target : .target p.target ∈ ss
  excluded : ∃ nodes, Fills ss .excluded [] nodes ∧ ∀ id, id ∈ p.excluded ↔ id ∈ nodes

/-- The defaults are valid, so a policy is as valid as what was given for it. -/
theorem Holds.sound_iff {p : ScoringPolicy} {ss : List Setting} (h : p.Holds ss) :
    p.Sound ↔ ∀ s ∈ ss, s.Valid := by
  have hprobability := h.probability.iff (P := fun x => 0 ≤ x ∧ x ≤ 1) ⟨by decide, by decide⟩
  have hbudget := h.budget.iff (P := fun n => n ≤ 10000) (by decide)
  have htuning := h.tuningFraction.iff (P := fun x => 0 < x ∧ x ≤ 1) ⟨by decide, by decide⟩
  have hscoring := h.scoringFraction.iff (P := fun x => 0 < x ∧ x ≤ 1) ⟨by decide, by decide⟩
  have hlimits := h.limits.iff (P := fun l => l.lower.isNaN = false ∧ l.upper.isNaN = false ∧
    l.lower ≤ l.upper) ⟨by decide +kernel, by decide +kernel, by decide +kernel⟩
  constructor
  · intro hp s hs
    cases s with
    | probability x => exact hprobability.1 hp.probability x hs
    | budget n => exact hbudget.1 hp.budget n hs
    | tuningFraction x => exact htuning.1 hp.tuningFraction x hs
    | scoringFraction x => exact hscoring.1 hp.scoringFraction x hs
    | limits lower upper => exact hlimits.1 hp.limits ⟨lower, upper⟩ hs
    | trainingRows rows =>
      rintro rfl
      exact hp.trainingRows ((h.trainingRows []).2 hs)
    | _ => trivial
  · intro hs
    constructor
    case probability => exact hprobability.2 fun x hx => hs _ hx
    case budget => exact hbudget.2 fun n hn => hs _ hn
    case tuningFraction => exact htuning.2 fun x hx => hs _ hx
    case scoringFraction => exact hscoring.2 fun x hx => hs _ hx
    case limits => exact hlimits.2 fun l hl => hs _ hl
    case trainingRows => exact fun hempty => hs _ ((h.trainingRows []).1 hempty) rfl

end ScoringPolicy

theorem mem_eraseRepsBy_loop (id m : Nat) (ns kept : List Nat) :
    id ∈ List.eraseRepsBy.loop (· == ·) m ns kept ↔ id = m ∨ id ∈ ns ∨ id ∈ kept := by
  induction ns generalizing m kept with
  | nil => simp [List.eraseRepsBy.loop, or_comm]
  | cons n ns ih =>
    rw [List.eraseRepsBy.loop]
    split
    · rename_i heq
      obtain rfl := eq_of_beq heq
      rw [ih, List.mem_cons]
      tauto
    · rw [ih, List.mem_cons, List.mem_cons]
      tauto

namespace Configuration

open Setting (names)

theorem mem_sortedSet (id : Nat) (nodes : List Nat) : id ∈ sortedSet nodes ↔ id ∈ nodes := by
  have hsort : id ∈ nodes.mergeSort ↔ id ∈ nodes := List.mem_mergeSort
  rw [← hsort, sortedSet, List.eraseReps]
  cases nodes.mergeSort with
  | nil => rfl
  | cons n ns => simp [List.eraseRepsBy, mem_eraseRepsBy_loop]

section Once

variable {ss : List Setting} (hn : (names ss).Nodup)
include hn

theorem Slot.fills {β : Type} (slot : Slot β) (default : β) :
    Fills ss slot.give default ((slot.get (ofSettings ss)).getD default) := by
  constructor
  · intro x hx
    rw [(slot.get_ofSettings_iff hn x).2 hx, Option.getD_some]
  · intro hnone
    have hget : slot.get (ofSettings ss) = none :=
      Option.eq_none_iff_forall_ne_some.2 fun x hx => hnone x ((slot.get_ofSettings_iff hn x).1 hx)
    rw [hget, Option.getD_none]

theorem holds_filled {target : String} (ht : .target target ∈ ss) :
    ((ofSettings ss).filled target).Holds ss where
  probability := Slot.probability.fills hn 1
  budget := Slot.budget.fills hn 10
  tuningFraction := Slot.tuningFraction.fills hn 1
  scoringFraction := Slot.scoringFraction.fills hn 1
  tuneWeights := Slot.tuneWeights.fills hn true
  rescale := Slot.rescale.fills hn true
  keepTuned := Slot.keepTuned.fills hn true
  limits := by
    have hgiven := Slot.limits.get_ofSettings_iff hn
    change Fills ss _ _ (((ofSettings ss).limits.map fun l => ⟨l.1, l.2⟩).getD Limits.finite)
    constructor
    · intro l hl
      rw [show (ofSettings ss).limits = some (l.lower, l.upper) from (hgiven _).2 hl]
      rfl
    · intro hnone
      have hget : (ofSettings ss).limits = none :=
        Option.eq_none_iff_forall_ne_some.2 fun l hl => hnone ⟨l.1, l.2⟩ ((hgiven l).1 hl)
      rw [hget]
      rfl
  verify := Slot.verify.fills hn false
  countPasses := Slot.countPasses.fills hn false
  trainingRows := Slot.trainingRows.get_ofSettings_iff hn
  target := ht
  excluded := ⟨_, Slot.excluded.fills hn [], fun id => mem_sortedSet id _⟩

/-- The order of the settings does not matter. -/
theorem ofSettings_perm {ss' : List Setting} (hp : ss.Perm ss') :
    ofSettings ss = ofSettings ss' := by
  have hn' : (names ss').Nodup := (hp.map Setting.name).nodup_iff.1 hn
  refine ext_slots (fun slot => ?_) ?_
  · ext x
    rw [slot.get_ofSettings_iff hn, slot.get_ofSettings_iff hn', hp.mem_iff]
  · rw [(repeated_eq_none_iff ss).2 hn, (repeated_eq_none_iff ss').2 hn']

end Once

/-- Building from a sequence of settings fails by a repetition exactly if a setting was given twice,
and then names the last one given again. Otherwise it succeeds exactly if every value is valid and a
target was given, with a sound policy that holds what was given and the defaults for the rest, and
the order of the settings does not matter. -/
theorem build_given (ss : List Setting) :
    (∀ name, (ofSettings ss).build = .error (.repeatedSetting name) ↔ LastRepeated ss name) ∧
    ((∃ name, (ofSettings ss).build = .error (.repeatedSetting name)) ↔ ¬(names ss).Nodup) ∧
    ((names ss).Nodup →
      ((∃ p, (ofSettings ss).build = .ok p) ↔
        (∀ s ∈ ss, s.Valid) ∧ ∃ target, .target target ∈ ss) ∧
      (∀ p, (ofSettings ss).build = .ok p → p.Holds ss ∧ p.Sound) ∧
      ∀ ss', ss.Perm ss' → (ofSettings ss').build = (ofSettings ss).build) := by
  refine ⟨fun name => build_eq_repeated.trans (repeated_ofSettings ss name), ?_, fun hn => ?_⟩
  · simp only [build_eq_repeated]
    rw [← repeated_eq_none_iff, ← ne_eq, Option.ne_none_iff_exists']
  have hrepeated := (repeated_eq_none_iff ss).2 hn
  have htarget := Slot.target.get_ofSettings_iff hn
  refine ⟨⟨?_, ?_⟩, ?_, fun ss' hp => by rw [ofSettings_perm hn hp]⟩
  · rintro ⟨p, hp⟩
    obtain ⟨-, hsound, target, ht, rfl⟩ := build_eq_ok.1 hp
    have hgiven := (htarget target).1 ht
    exact ⟨(holds_filled hn hgiven).sound_iff.1 hsound, target, hgiven⟩
  · rintro ⟨hvalid, target, hgiven⟩
    have hsound := (holds_filled hn hgiven).sound_iff.2 hvalid
    exact ⟨_, build_eq_ok.2 ⟨hrepeated, hsound, target, (htarget target).2 hgiven, rfl⟩⟩
  · intro p hp
    obtain ⟨-, hsound, target, ht, rfl⟩ := build_eq_ok.1 hp
    exact ⟨holds_filled hn ((htarget target).1 ht), hsound⟩

/-- Three settings, each of them given once. -/
def threeSettings : List Setting := [.target "y", .probability 0.5, .budget 20]

theorem build_given_three : (names threeSettings).Nodup ∧
    ∃ p, (ofSettings threeSettings).build = .ok p ∧ p.target = "y" ∧ p.probability = 0.5 ∧
      p.budget = 20 ∧ p.tuningFraction = 1 ∧ p.trainingRows = none := by
  have hn : (names threeSettings).Nodup := by decide
  obtain ⟨-, -, hbuild⟩ := build_given threeSettings
  obtain ⟨hok, hholds, -⟩ := hbuild hn
  have hvalid : ∀ s ∈ threeSettings, s.Valid := by
    simp only [threeSettings, List.forall_mem_cons]
    exact ⟨trivial, ⟨by decide, by decide⟩, (by decide : 20 ≤ 10000), List.forall_mem_nil _⟩
  obtain ⟨p, hp⟩ := hok.2 ⟨hvalid, "y", by simp [threeSettings]⟩
  obtain ⟨h, -⟩ := hholds p hp
  have htarget := h.target
  have hrows : ∀ rows, p.trainingRows ≠ some rows := fun rows => by
    simp [h.trainingRows, threeSettings]
  refine ⟨hn, p, hp, ?_, h.probability.1 0.5 (by simp [threeSettings]),
    h.budget.1 20 (by simp [threeSettings]), h.tuningFraction.2 (by simp [threeSettings]),
    Option.eq_none_iff_forall_ne_some.2 hrows⟩
  simpa [threeSettings] using htarget

end Configuration

end SymbolicFit
