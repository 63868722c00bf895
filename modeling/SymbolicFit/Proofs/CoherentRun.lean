import SymbolicFit.Proofs.FloatOrder
import SymbolicFit.Proofs.RecordedRun
import SymbolicFit.Orthogonal

/-!
The state of a least-squares run belongs to the parameters accepted last: their residuals, their
cost, and every system that is solved. This survives rejected and unsolvable steps, the comparison
of the Jacobian with differences, and failing callbacks.
-/

namespace SymbolicFit.LeastSquares

open Fitting

variable {σ α : Type}

/-- Callbacks that, when they succeed, answer with functions of the parameters. -/
structure Computes (p : LeastSquares σ α) (r : List α → List α) (J : List α → List (List α)) :
    Prop where
  residuals : ∀ c s out s', p.residuals c s = (.ok out, s') → out = r c
  jacobian : ∀ c s out s', p.jacobian c s = (.ok out, s') → out = J c

/-- The parameters accepted last. -/
def current : List (Event α) → Option (List α)
  | [] => none
  | .accepted params :: _ => some params
  | .solved _ :: events => current events

/-- Every system solved is that of the Jacobian and the residuals at the parameters accepted last
before. -/
def Coherent (solver : LinearSolver α) (r : List α → List α) (J : List α → List (List α))
    (n : Nat) : List (Event α) → Prop
  | [] => True
  | .accepted _ :: events => Coherent solver r J n events
  | .solved system :: events =>
    (∃ c, current events = some c ∧ system = solver.products n (J c) (r c)) ∧
      Coherent solver r J n events

section

variable {p : LeastSquares σ α} {r : List α → List α} {J : List α → List (List α)}
  {P E : List (Event α) → Prop}

/-- A callback answers with its function and leaves the record alone. -/
theorem Computes.triple_residuals (hp : p.Computes r J) (c : List α) (hE : ∀ es, P es → E es) :
    Triple (fun t => P t.2) (p.besideRecord.residuals c) (fun out t => out = r c ∧ P t.2)
      (fun t => E t.2) := by
  rintro ⟨s, events⟩ h
  rcases hs : p.residuals c s with ⟨_ | out, s'⟩
  · simpa [besideRecord, hs] using hE _ h
  · simpa [besideRecord, hs] using ⟨hp.residuals _ _ _ _ hs, h⟩

theorem Computes.triple_jacobian (hp : p.Computes r J) (c : List α) (hE : ∀ es, P es → E es) :
    Triple (fun t => P t.2) (p.besideRecord.jacobian c) (fun out t => out = J c ∧ P t.2)
      (fun t => E t.2) := by
  rintro ⟨s, events⟩ h
  rcases hs : p.jacobian c s with ⟨_ | out, s'⟩
  · simpa [besideRecord, hs] using hE _ h
  · simpa [besideRecord, hs] using ⟨hp.jacobian _ _ _ _ hs, h⟩

theorem triple_record {β : Type} {e : Event α} {f : Unit → Recording σ α β}
    {Q : β → σ × List (Event α) → Prop} {F : List (Event α) → Prop}
    (he : ∀ es, P es → F (e :: es)) (hf : Triple (fun t => F t.2) (f ()) Q fun t => E t.2) :
    Triple (fun t => P t.2) (record e >>= f) Q fun t => E t.2 :=
  fun t ht => hf (t.1, e :: t.2) (he _ ht)

/-- The comparison with differences leaves the record alone. -/
theorem Computes.triple_wrongAmong [Scalar α] (hp : p.Computes r J) (c : List α)
    (jacobian : List (List α)) (hE : ∀ es, P es → E es) (js : List Nat) :
    Triple (fun t => P t.2) (p.besideRecord.wrongAmong c jacobian js) (fun _ t => P t.2)
      (fun t => E t.2) := by
  induction js with
  | nil => exact .pure fun _ h => h
  | cons j js ih =>
    refine .bind (hp.triple_residuals _ hE) fun up => .of_and fun _ => ?_
    refine .bind (hp.triple_residuals _ hE) fun down => .of_and fun _ => ?_
    split_ifs
    · exact .pure fun _ h => h
    · exact .bind ih fun _ => .pure fun _ h => h

end

variable [Scalar α]

/-- Where a run stands when everything belongs to the parameters accepted last. -/
structure OnTrack (solver : LinearSolver α) (r : List α → List α) (J : List α → List (List α))
    (n : Nat) (initial : List α) (s : Progress α) (events : List (Event α)) : Prop where
  current : current events = some s.params
  residuals : s.residuals = r s.params
  finite : allFinite (r s.params) = true
  cost : s.cost = costOf (r s.params)
  descends : s.params = initial ∨ s.cost < costOf (r initial)
  coherent : Coherent solver r J n events

variable {p : LeastSquares σ α} {r : List α → List α} {J : List α → List (List α)}
  {n : Nat} {initial : List α} {s : Progress α}

/-- The run goes on from new parameters when their residuals are finite and cheaper. -/
theorem OnTrack.accept [IsTrans α (· < ·)] {events : List (Event α)}
    (h : OnTrack solver r J n initial s events) {c : List α} (hf : allFinite (r c) = true)
    (hc : costOf (r c) < s.cost) {s' : Progress α} (hp : s'.params = c)
    (hr : s'.residuals = r c) (hs : s'.cost = costOf (r c)) :
    OnTrack solver r J n initial s' (.accepted c :: events) where
  current := by rw [hp]; rfl
  residuals := by rw [hp, hr]
  finite := by rw [hp, hf]
  cost := by rw [hp, hs]
  coherent := h.coherent
  descends := by
    right
    rcases h.descends with he | hlt
    · rw [hs, ← he, ← h.cost]
      exact hc
    · rw [hs]
      exact IsTrans.trans _ _ _ hc hlt

/-- What only changes the damping and the counts changes nothing else. -/
theorem OnTrack.congr {events : List (Event α)} (h : OnTrack solver r J n initial s events)
    {s' : Progress α} (hp : s'.params = s.params) (hr : s'.residuals = s.residuals)
    (hs : s'.cost = s.cost) : OnTrack solver r J n initial s' events where
  current := by rw [hp, h.current]
  residuals := by rw [hp, hr, h.residuals]
  finite := by rw [hp, h.finite]
  cost := by rw [hp, hs, h.cost]
  descends := by rw [hp, hs]; exact h.descends
  coherent := h.coherent

theorem OnTrack.solve {events : List (Event α)} (h : OnTrack solver r J n initial s events) :
    OnTrack solver r J n initial s
      (.solved (solver.products n (J s.params) (r s.params)) :: events) where
  current := h.current
  residuals := h.residuals
  finite := h.finite
  cost := h.cost
  descends := h.descends
  coherent := ⟨⟨_, h.current, rfl⟩, h.coherent⟩

theorem triple_tryStep [IsTrans α (· < ·)] (hp : p.Computes r J) (solver : LinearSolver α)
    {system : NormalSystem α} (k : Nat)
    (hs : system = solver.products p.parameterCount (J s.params) (r s.params)) :
    Triple (fun t => OnTrack solver r J p.parameterCount initial s t.2)
      (p.tryStepRecorded solver system k s)
      (fun b t => OnTrack solver r J p.parameterCount initial b.1 t.2)
      (fun t => Coherent solver r J p.parameterCount t.2) := by
  induction k generalizing s with
  | zero => exact .pure fun _ h => h
  | succ k ih =>
    refine triple_record (F := OnTrack solver r J p.parameterCount initial s)
      (fun _ h => hs ▸ h.solve) ?_
    cases solver.step system s.damping with
    | none => exact .mono (ih hs) fun _ h => OnTrack.congr h rfl rfl rfl
    | some step =>
      -- the trial residuals `out` reach the state only when the step is accepted
      refine .bind (hp.triple_residuals _ fun _ h => h.coherent) fun out => .of_and ?_
      rintro rfl
      dsimp only
      split_ifs with h
      · exact triple_record (fun _ ht => ht.accept h.1 h.2 rfl rfl rfl) (.pure fun _ h => h)
      · exact .mono (ih hs) fun _ h => OnTrack.congr h rfl rfl rfl

theorem triple_iterate [IsTrans α (· < ·)] (hp : p.Computes r J) (solver : LinearSolver α)
    (tolerance : α) (budget : Nat) :
    Triple (fun t => OnTrack solver r J p.parameterCount initial s t.2)
      (p.iterateRecorded solver tolerance budget s)
      (fun b t => OnTrack solver r J p.parameterCount initial b.1 t.2)
      (fun t => Coherent solver r J p.parameterCount t.2) := by
  induction budget generalizing s with
  | zero => exact .pure fun _ h => h
  | succ budget ih =>
    refine .bind (hp.triple_jacobian _ fun _ h => h.coherent) fun out => .of_and ?_
    rintro rfl
    dsimp only
    split_ifs
    · exact .pure fun _ h => h.congr rfl rfl rfl
    · exact .pure fun _ h => h.congr rfl rfl rfl
    · refine .bind (R := fun b t => OnTrack solver r J p.parameterCount initial b.1 t.2) ?_
        fun ⟨s', accepted⟩ => ?_
      · intro t h
        exact triple_tryStep hp solver maxTrials (by rw [h.residuals]) t (h.congr rfl rfl rfl)
      · cases accepted with
        | none => exact .pure fun _ h => h.congr rfl rfl rfl
        | some reduction =>
          dsimp only
          split_ifs
          · exact .pure fun _ h => h.congr rfl rfl rfl
          · exact ih.mono fun _ h => h.congr rfl rfl rfl

theorem triple_run [IsTrans α (· < ·)] (hp : p.Computes r J) (solver : LinearSolver α)
    (settings : Settings α) :
    Triple (fun t => OnTrack solver r J p.parameterCount initial s t.2)
      (p.runRecorded solver settings s)
      (fun b t => OnTrack solver r J p.parameterCount initial b.1 t.2)
      (fun t => Coherent solver r J p.parameterCount t.2) := by
  unfold runRecorded
  split_ifs
  · refine .bind (hp.triple_jacobian _ fun _ h => h.coherent) fun out => .of_and fun _ => ?_
    dsimp only
    split_ifs
    · exact .pure fun _ h => h.congr rfl rfl rfl
    · refine .bind (hp.triple_wrongAmong _ _ (fun _ h => h.coherent) _) fun ⟨wrong, k⟩ => ?_
      dsimp only
      split_ifs
      · exact .pure fun _ h => h.congr rfl rfl rfl
      · exact (triple_iterate hp solver _ _).mono fun _ h => h.congr rfl rfl rfl
  · exact triple_iterate hp solver _ _

/-- What a report says about the initial residuals and the parameters it returns. -/
structure Report.Sound (r : List α → List α) (initial : List α) (report : Report α) : Prop where
  nonFinite : allFinite (r initial) = false → report.ending = .nonFinite ∧ report.params = initial
  finite : allFinite (r initial) = true → allFinite (r report.params) = true
  cost : allFinite (r initial) = true → report.cost = costOf (r report.params)
  descends : allFinite (r initial) = true →
    report.params = initial ∨ report.cost < costOf (r initial)

theorem triple_solve [IsTrans α (· < ·)] (hp : p.Computes r J) (solver : LinearSolver α)
    {settings : Settings α} (hb : settings.budget ≠ 0) (hn : p.parameterCount ≠ 0) :
    Triple (fun t => Coherent solver r J p.parameterCount t.2)
      (p.solveRecorded solver settings initial)
      (fun report t => report.Sound r initial ∧ current t.2 = some report.params ∧
        Coherent solver r J p.parameterCount t.2)
      (fun t => Coherent solver r J p.parameterCount t.2) := by
  let F := fun es => current es = some initial ∧ Coherent solver r J p.parameterCount es
  refine triple_record (F := F) (fun _ h => ⟨rfl, h⟩) ?_
  split_ifs with hl hz
  · exact .throw fun _ h => h.2
  · exact absurd hz (not_or.2 ⟨hb, hn⟩)
  · refine .bind (hp.triple_residuals (P := F) _ fun _ h => h.2) fun out => .of_and ?_
    rintro rfl
    split_ifs with hf
    · have hf' : allFinite (r initial) = false := by simpa using hf
      exact .pure fun t h => ⟨⟨fun _ => ⟨rfl, rfl⟩, by simp [hf'], by simp [hf'],
        by simp [hf']⟩, h⟩
    · have hf' : allFinite (r initial) = true := by simpa using hf
      refine .bind (R := fun b t => OnTrack solver r J p.parameterCount initial b.1 t.2) ?_
        fun ⟨s, ending⟩ => .pure fun t h => ?_
      · exact fun t h => triple_run hp solver settings t ⟨h.1, rfl, hf', rfl, .inl rfl, h.2⟩
      · exact ⟨⟨by simp [hf'], fun _ => h.finite, fun _ => h.cost, fun _ => h.descends⟩,
          h.current, h.coherent⟩

end SymbolicFit.LeastSquares
