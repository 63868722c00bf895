import Mathlib
import SymbolicFit.Proofs.CursorWalks
import SymbolicFit.Proofs.WrittenLeaves

/-!
Writing a whole parameter vector into a tree held in memory. A write takes every parameter once and
in order, and changes nothing but the numbers that were counted for it. Nothing of it is left after
the next one.
-/

namespace SymbolicFit

variable {α : Type}

section Frames

/-- What a write keeps of a node at a position. -/
structure Tree.Kept (o : FitOptions) (id : Nat) (n n' : Tree α) : Prop where
  arity : n'.children.length = n.children.length
  symbol : n'.symbol = n.symbol ∨ n.symbol.Renumbered n'.symbol
  fixed : ∀ v, n.symbol = .fixed v → n'.symbol = .fixed v
  excluded : id ∈ o.excluded → n'.symbol = n.symbol
  weights : o.weights = false → (∀ v, n.symbol ≠ .constant v) → n'.symbol = n.symbol
  exponent : n.symbol.takesExponent = true → ∀ base exponent, n.children = [base, exponent] →
    ∃ base', n'.children = [base', exponent]

variable {o : FitOptions} {id : Nat}

theorem Symbol.assign_excluded (h : id ∈ o.excluded) (s : Symbol α) (ps : List α) :
    (s.assign o id ps).1 = s := by
  refine (s.assign_renumbered o id ps).resolve_right fun hr => ?_
  obtain ⟨q, hq, -⟩ := List.mem_map.1 hr.1
  have ht := (mem_slots hq).2
  rw [FitOptions.tunes, List.contains_iff_mem.2 h] at ht
  cases ht

theorem Symbol.assign_weights (h : o.weights = false) {s : Symbol α} (hs : ∀ v, s ≠ constant v)
    (ps : List α) : (s.assign o id ps).1 = s := by
  have ht : o.tunesWeights id = false := by rw [FitOptions.tunesWeights, h, Bool.false_and]
  cases s with
  | constant v => exact absurd rfl (hs v)
  | column name w lag index => rw [assign_column, ht]; rfl
  | indicator name category w => rw [assign_indicator, ht]; rfl
  | factor name ws => rw [assign_factor, ht]; rfl
  | _ => rfl

namespace Tree

theorem Kept.refl (o : FitOptions) (id : Nat) (n : Tree α) : n.Kept o id n where
  arity := rfl
  symbol := .inl rfl
  fixed _ h := h
  excluded _ := rfl
  weights _ _ := rfl
  exponent _ base _ h := ⟨base, h⟩

theorem assign_kept (o : FitOptions) (id : Nat) (n : Tree α) (ps : List α) :
    n.Kept o id (n.assign o id ps).1 := by
  obtain ⟨s, cs⟩ := n
  rcases exponent_cases s cs with ⟨hs, base, exponent, rfl⟩ | hs
  · rw [assign_exponent o id hs]
    refine ⟨rfl, .inl rfl, fun _ h => h, fun _ => rfl, fun _ _ => rfl, fun _ b e h => ?_⟩
    cases h
    exact ⟨_, rfl⟩
  · rw [assign_other o id hs]
    constructor
    case arity => exact length_assignAmong o cs _ _
    case symbol => exact (s.assign_renumbered o id ps).imp_right And.right
    case fixed =>
      rintro v rfl
      rfl
    case excluded => exact fun h => s.assign_excluded h ps
    case weights => exact fun h hc => s.assign_weights h hc ps
    case exponent => exact fun h b e hc => absurd (congrArg List.length hc) (hs h)

theorem assign_kept_all (o : FitOptions) (t : Tree α) (ps : List α) :
    Nodewise (Kept o) 0 [t] [(t.assign o 0 ps).1] :=
  assign_nodewise (Kept.refl o) (assign_kept o) t 0 ps

end Tree

end Frames

section Rewrites

variable (o : FitOptions)

namespace Symbol

theorem slots_refill (id : Nat) {ws : List (String × α)} {ps : List α}
    (h : ws.length ≤ ps.length) :
    (refill ws ps).1.map (fun cw => (⟨id, .categoryWeight cw.1, cw.2⟩ : Parameter α)) =
      List.zipWith Parameter.reset (ws.map fun cw => ⟨id, .categoryWeight cw.1, cw.2⟩)
        (ps.take ws.length) := by
  induction ws generalizing ps with
  | nil => rfl
  | cons cw ws ih =>
    cases ps with
    | nil => cases h
    | cons p ps =>
      have hrest := ih (Nat.le_of_succ_le_succ h)
      rw [refill, List.map_cons, List.map_cons, hrest]
      rfl

theorem slots_assign_eq (id : Nat) (s : Symbol α) {ps : List α}
    (h : (s.slots o id).length ≤ ps.length) :
    (s.assign o id ps).1.slots o id =
      List.zipWith Parameter.reset (s.slots o id) (ps.take (s.slots o id).length) := by
  cases ht : o.tunes id <;> cases hw : o.tunesWeights id <;> cases s <;> cases ps <;>
    simp_all [assign, slots, Parameter.reset, slots_refill]

end Symbol

namespace Tree

/-- Writes a parameter vector into the tree that is held and returns how many were used. -/
def overwrite (o : FitOptions) (params : List α) : Fitting (Tree α) Nat := do
  let (t', used) ← (← get).withParameters o params
  set t'
  return used

/-- The parameters of two lists of places, each with its value. -/
theorem zipWith_reset_append (qs rs : List (Parameter α)) (ps : List α)
    (h : qs.length + rs.length ≤ ps.length) :
    List.zipWith Parameter.reset (qs ++ rs) (ps.take (qs.length + rs.length)) =
      List.zipWith Parameter.reset qs (ps.take qs.length) ++
        List.zipWith Parameter.reset rs ((ps.drop qs.length).take rs.length) := by
  rw [List.take_add, List.zipWith_append]
  rw [List.length_take]
  omega

mutual

/-- A write gives the parameters the written values in order, each in its place. -/
theorem slotsFrom_assign : ∀ (t : Tree α) (id : Nat) (ps : List α),
    (slotsFrom o id [t]).length ≤ ps.length →
      slotsFrom o id [(t.assign o id ps).1] =
        List.zipWith Parameter.reset (slotsFrom o id [t]) (ps.take (slotsFrom o id [t]).length)
  | node s cs, id, ps, h => by
    rcases exponent_cases s cs with ⟨hs, base, exponent, rfl⟩ | hs
    · rw [slotsFrom_exponent o id hs] at h ⊢
      rw [assign_exponent o id hs, slotsFrom_exponent o id hs]
      exact slotsFrom_assign base (id + 1) ps h
    · have hs' : (s.assign o id ps).1.takesExponent = true →
          (assignAmong o (id + 1) cs (s.assign o id ps).2).1.length ≠ 2 := by
        rwa [Symbol.takesExponent_assign, length_assignAmong]
      rw [slotsFrom_other o id hs, List.length_append] at h ⊢
      have hcs := slotsFrom_assignAmong cs (id + 1) (s.assign o id ps).2 (by
        rw [Symbol.assign_snd, Symbol.tunable_eq_slots, List.length_map, List.length_drop]
        omega)
      rw [assign_other o id hs, slotsFrom_other o id hs', hcs,
        Symbol.slots_assign_eq o id s (by omega), zipWith_reset_append _ _ _ h,
        Symbol.assign_snd, Symbol.tunable_eq_slots, List.length_map]

theorem slotsFrom_assignAmong : ∀ (ts : List (Tree α)) (id : Nat) (ps : List α),
    (slotsFrom o id ts).length ≤ ps.length →
      slotsFrom o id (assignAmong o id ts ps).1 =
        List.zipWith Parameter.reset (slotsFrom o id ts) (ps.take (slotsFrom o id ts).length)
  | [], id, ps, _ => by
    rw [assignAmong, slotsFrom_nil, List.zipWith_nil_left]
  | t :: ts, id, ps, h => by
    rw [slotsFrom_cons, List.length_append] at h ⊢
    have hts := slotsFrom_assignAmong ts (id + t.size) (t.assign o id ps).2 (by
      rw [assign_snd, tunable_eq_slotsFrom, List.length_map, List.length_drop]
      omega)
    rw [assignAmong_cons, slotsFrom_cons, size_assign, hts, slotsFrom_assign t id ps (by omega),
      zipWith_reset_append _ _ _ h, assign_snd, tunable_eq_slotsFrom, List.length_map]

end

theorem overwrite_apply (p : List α) (t : Tree α) :
    overwrite o p t = match t.withParameters o p with
      | .ok (t', used) => (.ok used, t')
      | .error e => (.error e, t) := by
  change ((liftM (t.withParameters o p) >>= fun r => set r.1 >>= fun _ => pure r.2 :
    Fitting (Tree α) Nat)) t = _
  rw [Fitting.bind_apply]
  cases t.withParameters o p with
  | ok r => rfl
  | error e => rfl

variable {o} {t : Tree α} {p : List α}

theorem overwrite_of_count (hp : p.length = o.offset + t.tunableCount o) :
    overwrite o p t = (.ok p.length, (t.assign o 0 (p.drop o.offset)).1) := by
  rw [overwrite_apply, withParameters_eq o hp]

theorem overwrite_of_mismatch (hp : p.length ≠ o.offset + t.tunableCount o) :
    overwrite o p t =
      (.error (.parameterCountMismatch (o.offset + t.tunableCount o) p.length), t) := by
  have hw : t.withParameters o p =
      .error (.parameterCountMismatch (o.offset + t.tunableCount o) p.length) := if_neg hp
  rw [overwrite_apply, hw]

theorem tunableCount_assign (t : Tree α) {ps : List α} (h : t.tunableCount o ≤ ps.length) :
    (t.assign o 0 ps).1.tunableCount o = t.tunableCount o := by
  rw [tunableCount, tunable_assign o t 0 ps h, List.length_take]
  exact Nat.min_eq_left h

/-- A vector of the right length is written as a whole, by a walk that ends where the vector and the
tree end. The tunable numbers are then the written ones in node order, every node keeps all that is
not tuned, and a later write hides this one. Any other vector is refused and the tree stays as it
is. -/
theorem overwrite_exact (t : Tree α) (o : FitOptions) (p : List α) :
    (p.length = o.offset + t.tunableCount o → ∃ t', overwrite o p t = (.ok p.length, t') ∧
      t.write o p ⟨o.offset, 0⟩ = some (t', ⟨p.length, t.size⟩) ∧
      (t'.slots o).map (·.initial) = p.drop o.offset ∧
      t'.slots o = List.zipWith Parameter.reset (t.slots o) (p.drop o.offset) ∧
      t'.size = t.size ∧
      (∀ id n, t.node? id = some n → ∃ n', t'.node? id = some n' ∧ n.Kept o id n') ∧
      ∀ q : List α, q.length = p.length → overwrite o q t' = overwrite o q t) ∧
    (p.length ≠ o.offset + t.tunableCount o →
      overwrite o p t =
        (.error (.parameterCountMismatch (o.offset + t.tunableCount o) p.length), t)) := by
  refine ⟨fun hp => ?_, overwrite_of_mismatch⟩
  have hdrop : (p.drop o.offset).length = t.tunableCount o := by
    rw [List.length_drop]
    omega
  have hslots : (t.slots o).length = t.tunableCount o := by
    rw [tunableCount, tunable_eq_slots, List.length_map]
  have hkept := assign_kept_all o t (p.drop o.offset)
  refine ⟨_, overwrite_of_count hp, ?_, ?_, ?_, size_assign o t 0 _,
    fun id n hn => hkept.exists_node? hn, fun q hq => ?_⟩
  · have hwalk := write_apply o p t o.offset 0 (Nat.le_of_eq hp.symm)
    rw [hwalk, ← tunableCount, ← hp, Nat.zero_add]
  · rw [← tunable_eq_slots, tunable_assign o t 0 _ (Nat.le_of_eq hdrop.symm)]
    exact List.take_of_length_le (Nat.le_of_eq hdrop)
  · have h := slotsFrom_assign o t 0 (p.drop o.offset) (by rw [hdrop]; exact Nat.le_of_eq hslots)
    rw [List.take_of_length_le (by rw [hdrop]; exact Nat.le_of_eq hslots.symm)] at h
    exact h
  · have hcount := tunableCount_assign t (Nat.le_of_eq hdrop.symm)
    have hq' : q.length = o.offset + t.tunableCount o := hq.trans hp
    rw [overwrite_of_count hq', overwrite_of_count (by rw [hcount]; exact hq'),
      assign_assign o t 0 _ (by rw [List.length_drop, ← tunableCount]; omega)]

/-- The tree `(w x)^2 + c`. -/
def squareTree (w c : Nat) : Tree Nat :=
  .node (.fold .add) [
    .node .power [.node (.column "x" w 0 none) [], .node (.constant 2) []],
    .node (.constant c) []]

theorem overwrite_exact_squareTree :
    overwrite { rescale := true } [8, 9, 5, 6] (squareTree 1 3) = (.ok 4, squareTree 5 6) ∧
    (squareTree 1 3).write { rescale := true } [8, 9, 5, 6] ⟨2, 0⟩ =
      some (squareTree 5 6, ⟨4, 5⟩) ∧
    overwrite { rescale := true } [8, 9, 5] (squareTree 1 3) =
      (.error (.parameterCountMismatch 4 3), squareTree 1 3) := by
  obtain ⟨t', hwritten, hwalk, -⟩ :=
    (overwrite_exact (squareTree 1 3) { rescale := true } [8, 9, 5, 6]).1 rfl
  have ht : overwrite { rescale := true } [8, 9, 5, 6] (squareTree 1 3) =
      (.ok 4, squareTree 5 6) := rfl
  obtain rfl : t' = squareTree 5 6 := congrArg Prod.snd (hwritten.symm.trans ht)
  exact ⟨hwritten, hwalk,
    (overwrite_exact (squareTree 1 3) { rescale := true } [8, 9, 5]).2 (by decide)⟩

end Tree

end Rewrites

end SymbolicFit
