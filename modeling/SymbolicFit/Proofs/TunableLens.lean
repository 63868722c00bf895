import Mathlib.Data.List.Forall2
import SymbolicFit.Proofs.TunableSlots

/-!
Reading and writing the tunable numbers of a tree. What is written is read again, writing what was
read changes nothing, a second write hides the first, and a write changes nothing but the tunable
numbers.
-/

namespace SymbolicFit

variable {α : Type}

namespace Symbol

theorem refill_snd (ws : List (String × α)) (ps : List α) :
    (refill ws ps).2 = ps.drop ws.length := by
  induction ws generalizing ps with
  | nil => simp [refill]
  | cons cw ws ih => cases ps <;> simp [refill, ih]

theorem refill_categories (ws : List (String × α)) (ps : List α) :
    List.Forall₂ (fun v w => w.1 = v.1) ws (refill ws ps).1 := by
  induction ws generalizing ps with
  | nil => simp [refill]
  | cons cw ws ih =>
    cases ps with
    | nil => simp [refill]
    | cons p ps => simpa [refill] using ih ps

theorem map_fst_refill (ws : List (String × α)) (ps : List α) :
    (refill ws ps).1.map (·.1) = ws.map (·.1) := by
  rw [← List.forall₂_eq_eq_eq, List.forall₂_map_left_iff, List.forall₂_map_right_iff]
  exact (refill_categories ws ps).flip

theorem weights_refill {ws : List (String × α)} {ps : List α} (h : ws.length ≤ ps.length) :
    (refill ws ps).1.map (·.2) = ps.take ws.length := by
  induction ws generalizing ps with
  | nil => simp [refill]
  | cons cw ws ih => cases ps <;> simp_all [refill]

theorem refill_self (ws : List (String × α)) (ps : List α) :
    refill ws (ws.map (·.2) ++ ps) = (ws, ps) := by
  induction ws with
  | nil => simp [refill]
  | cons cw ws ih => simp [refill, ih]

theorem refill_refill {ws : List (String × α)} (ps : List α) {qs : List α}
    (h : ws.length ≤ qs.length) : refill (refill ws ps).1 qs = refill ws qs := by
  induction ws generalizing ps qs with
  | nil => simp [refill]
  | cons cw ws ih =>
    cases qs with
    | nil => cases h
    | cons q qs =>
      cases ps with
      | nil => rfl
      | cons p ps =>
        have hrest := ih ps (Nat.le_of_succ_le_succ h)
        rw [refill, refill, refill, hrest]

variable (o : FitOptions) (id : Nat) (s : Symbol α) (ps : List α)

theorem assign_of_not_isLeaf (hs : s.isLeaf = false) : s.assign o id ps = (s, ps) := by
  cases s <;> simp_all [isLeaf, assign]

theorem assign_snd : (s.assign o id ps).2 = ps.drop (s.tunable o id).length := by
  cases ht : o.tunes id <;> cases hw : o.tunesWeights id <;> cases s <;> cases ps <;>
    simp [assign, tunable, ht, hw, refill_snd]

theorem tunable_assign (h : (s.tunable o id).length ≤ ps.length) :
    (s.assign o id ps).1.tunable o id = ps.take (s.tunable o id).length := by
  cases ht : o.tunes id <;> cases hw : o.tunesWeights id <;> cases s <;> cases ps <;>
    simp_all [assign, tunable, weights_refill]

theorem assign_tunable : s.assign o id (s.tunable o id ++ ps) = (s, ps) := by
  cases ht : o.tunes id <;> cases hw : o.tunesWeights id <;> cases s <;>
    simp [assign, tunable, ht, hw, refill_self]

/-- A number that is written again is the one written last. -/
theorem assign_assign {qs : List α} (h : (s.tunable o id).length ≤ qs.length) :
    (s.assign o id ps).1.assign o id qs = s.assign o id qs := by
  cases ht : o.tunes id <;> cases hw : o.tunesWeights id <;> cases s <;> cases ps <;> cases qs <;>
    simp_all [assign, tunable, refill_refill]

theorem assign_constant (v : α) :
    ((constant v).assign o id ps).1 = constant (if o.tunes id then ps.headD v else v) := by
  cases h : o.tunes id <;> cases ps <;> simp [assign, h]

theorem assign_column (name : String) (v : α) (lag : Int) (index : Option Nat) :
    ((column name v lag index).assign o id ps).1 =
      column name (if o.tunesWeights id then ps.headD v else v) lag index := by
  cases h : o.tunesWeights id <;> cases ps <;> simp [assign, h]

theorem assign_indicator (name category : String) (v : α) :
    ((indicator name category v).assign o id ps).1 =
      indicator name category (if o.tunesWeights id then ps.headD v else v) := by
  cases h : o.tunesWeights id <;> cases ps <;> simp [assign, h]

theorem assign_factor (name : String) (ws : List (String × α)) :
    ((factor name ws).assign o id ps).1 =
      factor name (if o.tunesWeights id then (refill ws ps).1 else ws) := by
  cases h : o.tunesWeights id <;> simp [assign, h]

@[simp] theorem isLeaf_assign : (s.assign o id ps).1.isLeaf = s.isLeaf := by
  cases ht : o.tunes id <;> cases hw : o.tunesWeights id <;> cases s <;> cases ps <;>
    simp [assign, isLeaf, ht, hw]

@[simp] theorem takesExponent_assign :
    (s.assign o id ps).1.takesExponent = s.takesExponent := by
  cases ht : o.tunes id <;> cases hw : o.tunesWeights id <;> cases s <;> cases ps <;>
    simp [assign, takesExponent, ht, hw]

end Symbol

namespace Tree

variable (o : FitOptions) (id : Nat)

theorem tunable_exponent {s : Symbol α} (hs : s.takesExponent = true) (base exponent : Tree α) :
    (node s [base, exponent]).tunable o id = base.tunable o (id + 1) := by
  simp [tunable, hs, Symbol.tunable_eq_slots,
    Symbol.slots_of_not_isLeaf (Symbol.isLeaf_of_takesExponent hs)]

theorem tunable_other {s : Symbol α} {cs : List (Tree α)}
    (h : s.takesExponent = true → cs.length ≠ 2) :
    (node s cs).tunable o id = s.tunable o id ++ tunableAmong o (id + 1) cs := by
  rw [tunable]
  intro base exponent hs hc
  exact h hs (congrArg List.length hc)

theorem assign_exponent {s : Symbol α} (hs : s.takesExponent = true) (base exponent : Tree α)
    (ps : List α) :
    (node s [base, exponent]).assign o id ps =
      (node s [(base.assign o (id + 1) ps).1, exponent], (base.assign o (id + 1) ps).2) := by
  simp [assign, hs, Symbol.assign_of_not_isLeaf o id s _ (Symbol.isLeaf_of_takesExponent hs)]

theorem assign_other {s : Symbol α} {cs : List (Tree α)}
    (h : s.takesExponent = true → cs.length ≠ 2) (ps : List α) :
    (node s cs).assign o id ps =
      (node (s.assign o id ps).1 (assignAmong o (id + 1) cs (s.assign o id ps).2).1,
        (assignAmong o (id + 1) cs (s.assign o id ps).2).2) := by
  rw [assign]
  dsimp only
  split
  · rename_i hs
    exact absurd rfl (h hs)
  · rfl

theorem assignAmong_cons (t : Tree α) (ts : List (Tree α)) (ps : List α) :
    assignAmong o id (t :: ts) ps =
      ((t.assign o id ps).1 :: (assignAmong o (id + t.size) ts (t.assign o id ps).2).1,
        (assignAmong o (id + t.size) ts (t.assign o id ps).2).2) := by
  rw [assignAmong]

mutual

theorem tunable_eq_slotsFrom : ∀ (t : Tree α) (id : Nat),
    t.tunable o id = (slotsFrom o id [t]).map (·.initial)
  | node s cs, id => by
    rcases exponent_cases s cs with ⟨hs, base, exponent, rfl⟩ | hs
    · -- the exponent has no slots and is not tuned
      rw [tunable_exponent o id hs, slotsFrom_exponent o id hs]
      exact tunable_eq_slotsFrom base (id + 1)
    · rw [tunable_other o id hs, slotsFrom_other o id hs, List.map_append,
        Symbol.tunable_eq_slots, tunableAmong_eq_slotsFrom cs (id + 1)]

theorem tunableAmong_eq_slotsFrom : ∀ (ts : List (Tree α)) (id : Nat),
    tunableAmong o id ts = (slotsFrom o id ts).map (·.initial)
  | [], _ => by rw [tunableAmong, slotsFrom_nil, List.map_nil]
  | t :: ts, id => by
    rw [tunableAmong, slotsFrom_cons, List.map_append, tunable_eq_slotsFrom t id,
      tunableAmong_eq_slotsFrom ts (id + t.size)]

end

mutual

theorem assign_tunable : ∀ (t : Tree α) (id : Nat) (ps : List α),
    t.assign o id (t.tunable o id ++ ps) = (t, ps)
  | node s cs, id, ps => by
    rcases exponent_cases s cs with ⟨hs, base, exponent, rfl⟩ | hs
    · rw [tunable_exponent o id hs, assign_exponent o id hs, assign_tunable base (id + 1) ps]
    · rw [tunable_other o id hs, assign_other o id hs, List.append_assoc, Symbol.assign_tunable,
        assignAmong_tunable cs (id + 1) ps]

theorem assignAmong_tunable : ∀ (ts : List (Tree α)) (id : Nat) (ps : List α),
    assignAmong o id ts (tunableAmong o id ts ++ ps) = (ts, ps)
  | [], _, _ => rfl
  | t :: ts, id, ps => by
    rw [tunableAmong, List.append_assoc, assignAmong_cons, assign_tunable t id,
      assignAmong_tunable ts (id + t.size) ps]

end

mutual

theorem assign_snd : ∀ (t : Tree α) (id : Nat) (ps : List α),
    (t.assign o id ps).2 = ps.drop (t.tunable o id).length
  | node s cs, id, ps => by
    rcases exponent_cases s cs with ⟨hs, base, exponent, rfl⟩ | hs
    · rw [tunable_exponent o id hs, assign_exponent o id hs, assign_snd base (id + 1) ps]
    · rw [tunable_other o id hs, assign_other o id hs, assignAmong_snd cs (id + 1),
        Symbol.assign_snd, List.drop_drop, List.length_append]

theorem assignAmong_snd : ∀ (ts : List (Tree α)) (id : Nat) (ps : List α),
    (assignAmong o id ts ps).2 = ps.drop (tunableAmong o id ts).length
  | [], _, _ => rfl
  | t :: ts, id, ps => by
    rw [tunableAmong, assignAmong_cons, assignAmong_snd ts (id + t.size), assign_snd t id,
      List.drop_drop, List.length_append]

end

mutual

@[simp] theorem size_assign : ∀ (t : Tree α) (id : Nat) (ps : List α),
    (t.assign o id ps).1.size = t.size
  | node s cs, id, ps => by
    rcases exponent_cases s cs with ⟨hs, base, exponent, rfl⟩ | hs
    · simp only [assign_exponent o id hs, size, sizes, size_assign base (id + 1) ps]
    · rw [assign_other o id hs, size, size, sizes_assignAmong cs (id + 1)]

@[simp] theorem sizes_assignAmong : ∀ (ts : List (Tree α)) (id : Nat) (ps : List α),
    sizes (assignAmong o id ts ps).1 = sizes ts
  | [], _, _ => rfl
  | t :: ts, id, ps => by
    rw [assignAmong_cons, sizes, sizes, size_assign t id, sizes_assignAmong ts (id + t.size)]

end

@[simp] theorem length_assignAmong (ts : List (Tree α)) (id : Nat) (ps : List α) :
    (assignAmong o id ts ps).1.length = ts.length := by
  induction ts generalizing id ps with
  | nil => rfl
  | cons t ts ih => rw [assignAmong_cons, List.length_cons, List.length_cons, ih]

mutual

theorem tunable_assign : ∀ (t : Tree α) (id : Nat) (ps : List α),
    (t.tunable o id).length ≤ ps.length →
      (t.assign o id ps).1.tunable o id = ps.take (t.tunable o id).length
  | node s cs, id, ps, h => by
    rcases exponent_cases s cs with ⟨hs, base, exponent, rfl⟩ | hs
    · rw [tunable_exponent o id hs] at h ⊢
      rw [assign_exponent o id hs, tunable_exponent o id hs, tunable_assign base (id + 1) ps h]
    · rw [tunable_other o id hs, List.length_append] at h ⊢
      rw [assign_other o id hs, tunable_other o id (by
          rwa [Symbol.takesExponent_assign, length_assignAmong]),
        Symbol.tunable_assign o id s ps (by omega), Symbol.assign_snd,
        tunableAmong_assignAmong cs (id + 1) _ (by simp; omega), List.take_add]

theorem tunableAmong_assignAmong : ∀ (ts : List (Tree α)) (id : Nat) (ps : List α),
    (tunableAmong o id ts).length ≤ ps.length →
      tunableAmong o id (assignAmong o id ts ps).1 = ps.take (tunableAmong o id ts).length
  | [], _, _, _ => by simp [assignAmong, tunableAmong]
  | t :: ts, id, ps, h => by
    rw [tunableAmong, List.length_append] at h
    rw [assignAmong_cons, tunableAmong, tunableAmong, size_assign, List.length_append,
      tunable_assign t id ps (by omega), assign_snd,
      tunableAmong_assignAmong ts (id + t.size) _ (by simp; omega), List.take_add]

end

mutual

theorem assign_assign : ∀ (t : Tree α) (id : Nat) (ps : List α) {qs : List α},
    (t.tunable o id).length ≤ qs.length →
      (t.assign o id ps).1.assign o id qs = t.assign o id qs
  | node s cs, id, ps, qs, h => by
    rcases exponent_cases s cs with ⟨hs, base, exponent, rfl⟩ | hs
    · rw [tunable_exponent o id hs] at h
      rw [assign_exponent o id hs, assign_exponent o id hs, assign_exponent o id hs,
        assign_assign base (id + 1) ps h]
    · have hs' : (s.assign o id ps).1.takesExponent = true →
          (assignAmong o (id + 1) cs (s.assign o id ps).2).1.length ≠ 2 := by
        rwa [Symbol.takesExponent_assign, length_assignAmong]
      rw [tunable_other o id hs, List.length_append] at h
      have hrest : (tunableAmong o (id + 1) cs).length ≤ (s.assign o id qs).2.length := by
        rw [Symbol.assign_snd, List.length_drop]
        omega
      rw [assign_other o id hs, assign_other o id hs, assign_other o id hs',
        Symbol.assign_assign o id s ps (by omega), assignAmong_assignAmong cs (id + 1) _ hrest]

theorem assignAmong_assignAmong : ∀ (ts : List (Tree α)) (id : Nat) (ps : List α) {qs : List α},
    (tunableAmong o id ts).length ≤ qs.length →
      assignAmong o id (assignAmong o id ts ps).1 qs = assignAmong o id ts qs
  | [], _, _, _, _ => rfl
  | t :: ts, id, ps, qs, h => by
    rw [tunableAmong, List.length_append] at h
    have hrest : (tunableAmong o (id + t.size) ts).length ≤ (t.assign o id qs).2.length := by
      rw [assign_snd, List.length_drop]
      omega
    rw [assignAmong_cons, assignAmong_cons, assignAmong_cons, size_assign,
      assign_assign t id ps (by omega), assignAmong_assignAmong ts (id + t.size) _ hrest]

end

mutual

theorem leavesBare_assign : ∀ (t : Tree α) (id : Nat) (ps : List α),
    t.LeavesBare → (t.assign o id ps).1.LeavesBare
  | node s cs, id, ps, h => by
    obtain ⟨hl, hc⟩ := leavesBare_node.1 h
    rcases exponent_cases s cs with ⟨hs, base, exponent, rfl⟩ | hs
    · rw [assign_exponent o id hs]
      simp only [List.forall_mem_cons] at hc
      refine leavesBare_node.2 ⟨fun hs' => absurd (hl hs') (by simp), ?_⟩
      simpa only [List.forall_mem_cons] using
        ⟨leavesBare_assign base (id + 1) ps hc.1, hc.2⟩
    · rw [assign_other o id hs]
      refine leavesBare_node.2 ⟨fun hs' => ?_, leavesBare_assignAmong cs (id + 1) _ hc⟩
      rw [Symbol.isLeaf_assign] at hs'
      rw [hl hs', assignAmong]

theorem leavesBare_assignAmong : ∀ (ts : List (Tree α)) (id : Nat) (ps : List α),
    (∀ t ∈ ts, t.LeavesBare) → ∀ t ∈ (assignAmong o id ts ps).1, t.LeavesBare
  | [], _, _, h => h
  | t :: ts, id, ps, h => by
    rw [List.forall_mem_cons] at h
    rw [assignAmong_cons, List.forall_mem_cons]
    exact ⟨leavesBare_assign t id ps h.1, leavesBare_assignAmong ts (id + t.size) _ h.2⟩

end

theorem tunable_eq_slots (t : Tree α) : t.tunable o 0 = (t.slots o).map (·.initial) :=
  tunable_eq_slotsFrom o t 0

theorem withParameters_eq {t : Tree α} {p : List α} (hp : p.length = o.offset + t.tunableCount o) :
    t.withParameters o p = .ok ((t.assign o 0 (p.drop o.offset)).1, p.length) := by
  have hr : (t.assign o 0 (p.drop o.offset)).2 = [] := by
    rw [assign_snd, List.drop_drop]
    exact List.drop_eq_nil_iff.2 (Nat.le_of_eq hp)
  unfold withParameters
  rw [if_pos hp]
  change Except.ok (_, p.length - (t.assign o 0 (p.drop o.offset)).2.length) = _
  rw [hr, List.length_nil, Nat.sub_zero]

end Tree

end SymbolicFit
