import Mathlib
import SymbolicFit.CompiledTree.Compile
import SymbolicFit.Proofs.DraftLogic
import SymbolicFit.Proofs.ExactArithmetic
import SymbolicFit.Proofs.TunableLens

/-!
The parameters of a compiled tree are its tunable numbers, and writing other numbers into the tree
changes nothing in the compiled tree but the initial values of its parameters.
-/

namespace SymbolicFit

variable {α : Type}

open Drafting

/-- The parameters of the rescaling, which come first. -/
def FitOptions.scaling [Zero α] [One α] (o : FitOptions) : List (Parameter α) :=
  if o.rescale then [⟨0, .offset, 0⟩, ⟨0, .factor, 1⟩] else []

namespace Symbol

theorem compileLeaf?_of_not_isLeaf {s : Symbol α} (hs : s.isLeaf = false) (o : FitOptions)
    (shape : Shape) (id : Nat) : s.compileLeaf? o shape id = none := by
  cases s <;> simp_all [isLeaf, compileLeaf?]

theorem compileLeaf?_of_isLeaf {s : Symbol α} (hs : s.isLeaf = true) (o : FitOptions)
    (shape : Shape) (id : Nat) : ∃ x, s.compileLeaf? o shape id = some x := by
  cases s <;> first | exact ⟨_, rfl⟩ | cases hs

theorem categoryWeight_follows (o : FitOptions) (id : Nat) (name category : String) (v w : α)
    (h : o.tunesWeights id = false → w = v) :
    Follows (if o.tunesWeights id then [⟨id, .categoryWeight category, v⟩] else [])
      (weight o id (.categoryWeight category) v >>= weighted ⟨name, some category, 0, none⟩)
      (weight o id (.categoryWeight category) w >>= weighted ⟨name, some category, 0, none⟩) := by
  rw [← List.append_nil (ite _ _ _)]
  exact (Follows.weight o id _ v w h).bind (Follows.weighted _)

theorem compileLeaf_follows {o : FitOptions} {shape : Shape} {id : Nat} {s : Symbol α}
    {x : Drafting α (Shaped Nat)} (hx : s.compileLeaf? o shape id = some x) (ps : List α) :
    ∃ y, (s.assign o id ps).1.compileLeaf? o shape id = some y ∧ Follows (s.slots o id) x y := by
  cases s with
  | constant v =>
    rw [assign_constant]
    cases hx
    refine ⟨_, rfl, Follows.map _ ?_⟩
    cases ht : o.tunes id
    · simpa [slots, ht] using Follows.emit (.literal v)
    · simpa [slots, ht] using Follows.parameter id .constant v _
  | fixed v =>
    cases hx
    exact ⟨_, rfl, (Follows.emit _).map _⟩
  | column name v lag index =>
    rw [assign_column]
    cases hx
    refine ⟨_, rfl, ?_⟩
    rw [slots, ← List.append_nil (ite _ _ _)]
    refine (Follows.weight o id .columnWeight v _ fun h => by simp [h]).bind fun i => ?_
    split
    · exact (Follows.listMapM (fun k => Follows.weighted _ i) _).map _
    · exact (Follows.weighted _ i).map _
  | indicator name category v =>
    rw [assign_indicator]
    cases hx
    refine ⟨_, rfl, ?_⟩
    rw [slots, ← List.append_nil (ite _ _ _)]
    exact (Follows.weight o id .columnWeight v _ fun h => by simp [h]).bind fun i =>
      (Follows.weighted _ i).map _
  | factor name vs =>
    rw [assign_factor]
    cases hx
    refine ⟨_, rfl, ?_⟩
    have hs : (factor name vs).slots o id = vs.flatMap fun cw =>
        if o.tunesWeights id then [⟨id, .categoryWeight cw.1, cw.2⟩] else [] := by
      cases ht : o.tunesWeights id <;> simp [slots, ht, List.map_eq_flatMap]
    have hws : List.Forall₂ (fun v w => w.1 = v.1 ∧ (o.tunesWeights id = false → w.2 = v.2)) vs
        (if o.tunesWeights id then (refill vs ps).1 else vs) := by
      cases o.tunesWeights id
      · exact List.forall₂_same.2 fun _ _ => ⟨rfl, fun _ => rfl⟩
      · exact (refill_categories vs ps).imp fun _ _ h => ⟨h, fun ht => absurd ht (by simp)⟩
    -- the written weights keep the categories, so both sides read the same inputs
    rw [hs, ← List.append_nil (List.flatMap _ _)]
    refine Follows.bind (Follows.mapM (hws.imp fun v w hvw => ?_)) fun is => (Follows.emit _).map _
    exact hvw.1 ▸ categoryWeight_follows o id name v.1 v.2 w.2 hvw.2
  | _ => cases hx

theorem assemble_follows [Scalar α] (id : Nat) (s : Symbol α) (args : List (Shaped Nat)) :
    Follows [] (s.assemble id args) (s.assemble id args) := by
  unfold assemble
  split
  · split
    · exact Follows.pure _
    · exact Follows.shapedMapM (fun _ => Follows.emit _) _
    · exact Follows.foldlM (Follows.combine id _) _ _
    · exact Follows.unsupported _ _ _
  · exact Follows.combine id _ _ _
  · exact Follows.shapedMapM (fun _ => Follows.emit _) _
  · exact (Follows.aggregate _ _).map _
  · exact Follows.pure _
  · exact Follows.unsupported _ _ _

end Symbol

namespace Tree

variable [Scalar α] {o : FitOptions} {trace : Option Trace} {id : Nat} {s : Symbol α}
  {cs : List (Tree α)}

theorem compileAt_leaf {x : Drafting α (Shaped Nat)}
    (hx : s.compileLeaf? o (Trace.shapeOf trace id) id = some x) :
    (node s cs).compileAt o trace id = x := by
  unfold compileAt
  simp only [hx]

theorem compileAt_rejected (hl : s.isLeaf = false)
    (ha : ¬ s.accepts (Trace.shapeOf trace (id + 1)) cs.length = true) :
    (node s cs).compileAt o trace id = unsupported id s := by
  unfold compileAt
  simp only [Symbol.compileLeaf?_of_not_isLeaf hl, ha]
  rfl

theorem compileAt_exponent (hs : s.takesExponent = true) (base exponent : Tree α) :
    (node s [base, exponent]).compileAt o trace id = (do
      let x ← base.compileAt o trace (id + 1)
      match s.exponentOp? exponent with
      | some op => x.mapM (unary op)
      | none => unsupported id s) := by
  conv_lhs => unfold compileAt
  cases s <;> cases hs <;> rfl

theorem compileAt_other (hl : s.isLeaf = false) (hs : s.takesExponent = true → cs.length ≠ 2)
    (ha : s.accepts (Trace.shapeOf trace (id + 1)) cs.length = true) :
    (node s cs).compileAt o trace id =
      compileAllAt o trace (id + 1) cs >>= s.assemble id := by
  conv_lhs => unfold compileAt
  simp only [Symbol.compileLeaf?_of_not_isLeaf hl, ha, if_true]
  split
  · rename_i h
    exact absurd rfl (hs h)
  · rfl

mutual

/-- Compilation adds the parameters of a tree, whatever their values. -/
theorem compileAt_follows : ∀ (t : Tree α) (id : Nat) (ps : List α), t.LeavesBare →
    Follows (slotsFrom o id [t]) (t.compileAt o trace id)
      ((t.assign o id ps).1.compileAt o trace id)
  | node s cs, id, ps, h => by
    obtain ⟨hl, hc⟩ := leavesBare_node.1 h
    cases hs : s.isLeaf
    · by_cases ha : s.accepts (Trace.shapeOf trace (id + 1)) cs.length = true
      · rcases exponent_cases s cs with ⟨he, base, exponent, rfl⟩ | he
        · simp only [List.forall_mem_cons] at hc
          rw [assign_exponent o id he, slotsFrom_exponent o id he, compileAt_exponent he,
            compileAt_exponent he, ← List.append_nil (slotsFrom _ _ _)]
          refine (compileAt_follows base (id + 1) ps hc.1).bind fun x => ?_
          split
          · exact Follows.shapedMapM (fun _ => Follows.emit _) x
          · exact Follows.unsupported _ _ _
        · -- writing keeps the number of children, so both sides take the same branch
          rw [assign_other o id he, slotsFrom_other o id he,
            Symbol.assign_of_not_isLeaf o id s ps hs,
            Symbol.slots_of_not_isLeaf hs, compileAt_other hs he ha,
            compileAt_other hs (by rwa [length_assignAmong]) (by rwa [length_assignAmong]),
            List.nil_append, ← List.append_nil (slotsFrom _ _ _)]
          exact (compileAllAt_follows cs (id + 1) ps hc).bind (Symbol.assemble_follows id s)
      · rw [compileAt_rejected hs ha]
        exact Follows.unsupported _ _ _
    · obtain rfl := hl hs
      have he : s.takesExponent = true → ([] : List (Tree α)).length ≠ 2 := fun _ => nofun
      obtain ⟨x, hx⟩ := Symbol.compileLeaf?_of_isLeaf hs o (Trace.shapeOf trace id) id
      obtain ⟨y, hy, hxy⟩ := Symbol.compileLeaf_follows hx ps
      rw [assign_other o id he, slotsFrom_other o id he, compileAt_leaf hx, compileAt_leaf hy,
        slotsFrom_nil, List.append_nil]
      exact hxy

theorem compileAllAt_follows : ∀ (ts : List (Tree α)) (id : Nat) (ps : List α),
    (∀ t ∈ ts, t.LeavesBare) → Follows (slotsFrom o id ts) (compileAllAt o trace id ts)
      (compileAllAt o trace id (assignAmong o id ts ps).1)
  | [], id, ps, _ => by
    rw [slotsFrom_nil]
    exact Follows.pure _
  | t :: ts, id, ps, h => by
    obtain ⟨ht, hts⟩ := List.forall_mem_cons.1 h
    rw [assignAmong_cons, slotsFrom_cons, compileAllAt, compileAllAt, reach_eq_size _ ht,
      reach_eq_size _ (leavesBare_assign o t id ps ht), size_assign]
    exact (compileAt_follows t id ps ht).bind fun x =>
      (compileAllAt_follows ts (id + t.size) _ hts).map (x :: ·)

end

theorem compileOutput_follows {t : Tree α} (h : t.LeavesBare) (ps : List α) :
    Follows (o.scaling ++ t.slots o) (t.compileOutput o trace)
      ((t.assign o 0 ps).1.compileOutput o trace) := by
  have hs : ∀ x : Shaped Nat, Follows [] (compileOutput.scalar (α := α) x)
      (compileOutput.scalar x)
    | .scalar x => Follows.pure x
    | .vector _ => fun _ _ _ _ _ hx => nomatch hx
  rw [← List.append_nil (t.slots o)]
  unfold compileOutput FitOptions.scaling
  split_ifs
  · exact (Follows.parameter 0 .offset 0 0).bind fun _ =>
      (Follows.parameter 0 .factor 1 1).bind fun _ =>
        (compileAt_follows t 0 ps h).bind fun x => (hs x).bind fun _ =>
          (Follows.emit _).bind fun _ => Follows.emit _
  · exact (compileAt_follows t 0 ps h).bind hs

theorem compile_ok {t : Tree α} {c : CompiledTree α} :
    t.compile o trace = .ok c ↔ ∃ out d, t.compileOutput o trace .empty = .ok (out, d) ∧
      c = ⟨⟨d.entries, some out⟩, d.parameters, d.inputs, o.rescale⟩ := by
  unfold compile
  rcases h : t.compileOutput o trace .empty with e | ⟨out, d⟩
  · simp [StateT.run, h, bind, Except.bind]
  · simp [StateT.run, h, bind, Except.bind, pure, Except.pure, eq_comm]

theorem compile_error {t : Tree α} {e : Failure} :
    t.compile o trace = .error e ↔ t.compileOutput o trace .empty = .error e := by
  unfold compile
  rcases h : t.compileOutput o trace .empty with e' | ⟨out, d⟩
  · simp [StateT.run, h, bind, Except.bind]
  · simp [StateT.run, h, bind, Except.bind, pure, Except.pure]

theorem length_scaling (o : FitOptions) : (o.scaling (α := α)).length = o.offset := by
  unfold FitOptions.scaling FitOptions.offset
  split_ifs <;> rfl

theorem parameters_of_compile {t : Tree α} {c : CompiledTree α} (h : t.LeavesBare)
    (hc : t.compile o trace = .ok c) : c.parameters = o.scaling ++ t.slots o := by
  obtain ⟨out, d, hd, rfl⟩ := compile_ok.1 hc
  exact (compileOutput_follows h [] _ _ (.refl _) _ _ hd).1.parameters

theorem parameterCount_of_compile {t : Tree α} {c : CompiledTree α} (h : t.LeavesBare)
    (hc : t.compile o trace = .ok c) : c.parameterCount = o.offset + t.tunableCount o := by
  rw [CompiledTree.parameterCount, parameters_of_compile h hc, List.length_append, length_scaling,
    tunableCount, tunable_eq_slots, List.length_map]

theorem initial_of_compile {t : Tree α} {c : CompiledTree α} (h : t.LeavesBare)
    (hc : t.compile o trace = .ok c) : c.initial.drop o.offset = t.tunable o 0 := by
  rw [CompiledTree.initial, parameters_of_compile h hc, List.map_append, tunable_eq_slots,
    List.drop_left' (by rw [List.length_map, length_scaling])]

/-- The parameters of a compiled tree and its tunable numbers determine each other: the parameters
list the tunable numbers after those of the rescaling, putting the initial values back gives the
tree again, and a tree with other numbers compiles to the same tape with these as initial values. -/
theorem compile_parameters_lens (t : Tree α) (ht : t.LeavesBare) (o : FitOptions)
    (trace : Option Trace) (c : CompiledTree α) (hc : t.compile o trace = .ok c) :
    c.parameterCount = o.offset + t.tunableCount o ∧
    c.parameters = o.scaling ++ t.slots o ∧
    t.withParameters o c.initial = .ok (t, c.parameterCount) ∧
    ∀ p : List α, p.length = c.parameterCount → ∃ t' c',
      t.withParameters o p = .ok (t', p.length) ∧ t'.compile o trace = .ok c' ∧
      c'.tape = c.tape ∧ c'.inputs = c.inputs ∧ c'.rescaled = c.rescaled ∧
      c'.parameters.map (·.place) = c.parameters.map (·.place) ∧
      c'.initial.drop o.offset = p.drop o.offset := by
  have hcount := parameterCount_of_compile ht hc
  refine ⟨hcount, parameters_of_compile ht hc, ?_, fun p hp => ?_⟩
  · have hi : c.initial.length = c.parameterCount := List.length_map _
    have hself := assign_tunable o t 0 []
    rw [List.append_nil] at hself
    rw [withParameters_eq o (hi.trans hcount), initial_of_compile ht hc, hself, hi]
  · obtain ⟨out, d, hd, rfl⟩ := compile_ok.1 hc
    -- the written tree follows the run of the tree step by step
    obtain ⟨-, d', hd', ha⟩ :=
      compileOutput_follows ht (p.drop o.offset) _ _ (.refl _) _ _ hd
    have hc' := compile_ok.2 ⟨out, d', hd', rfl⟩
    have hl : (t.tunable o 0).length = (p.drop o.offset).length := by
      rw [List.length_drop, hp, hcount, tunableCount, Nat.add_sub_cancel_left]
    refine ⟨_, _, withParameters_eq o (hp.trans hcount), hc', ?_, ha.inputs.symm, rfl,
      ha.places.symm, ?_⟩
    · simp only [ha.entries]
    · rw [initial_of_compile (leavesBare_assign o t 0 _ ht) hc',
        tunable_assign o t 0 _ (Nat.le_of_eq hl), hl, List.take_length]

end Tree

section Quadratic

theorem integerExponent?_intCast {n : Int32} (hn : n.toInt.natAbs ≤ 2147483647) :
    Symbol.integerExponent? (n.toInt : ℝ) = some n := by
  unfold Symbol.integerExponent?
  rw [Int32.toInt_inj.1 (toInt32_intCast hn)]
  exact if_pos ⟨(ExactRing.beq_iff_eq _ _).2 rfl, hn⟩

/-- The tree `a * (b x) ^ 2`. -/
noncomputable def quadraticTree (a b : ℝ) : Tree ℝ :=
  .node .program [.node (.fold .mul) [.node (.constant a) [],
    .node .power [.node (.column "x" b 0 none) [], .node (.constant (2 : Int)) []]]]

noncomputable def quadraticCompiled (a b : ℝ) : CompiledTree ℝ where
  tape := {
    entries := #[.param 0, .param 1, .param 2, .param 3, .input 0, .binary .mul 4 3,
      .unary (.power 2) 5, .binary .mul 2 6, .binary .mul 1 7, .binary .add 8 0]
    output := some 9 }
  parameters := [⟨0, .offset, 0⟩, ⟨0, .factor, 1⟩, ⟨2, .constant, a⟩, ⟨4, .columnWeight, b⟩]
  inputs := [⟨"x", none, 0, none⟩]
  rescaled := true

theorem quadraticTree_compile (a b : ℝ) :
    (quadraticTree a b).compile { rescale := true } none = .ok (quadraticCompiled a b) := by
  have he : Symbol.power.exponentOp? (.node (.constant (2 : Int)) [] : Tree ℝ) =
      some (.power 2) := by
    have htwo : Symbol.integerExponent? (((2 : Int32).toInt : ℤ) : ℝ) = some 2 :=
      integerExponent?_intCast (by decide)
    exact congrArg (Option.map UnaryOp.power) htwo
  unfold quadraticTree Tree.compile Tree.compileOutput
  rw [Tree.compileAt_other rfl (by simp [Symbol.takesExponent]) rfl, Tree.compileAllAt,
    Tree.compileAt_other rfl (by simp [Symbol.takesExponent]) rfl]
  -- the exponent is the one step that does not compute
  simp only [Tree.compileAllAt, Tree.compileAt_exponent (s := Symbol.power) rfl, he]
  cbv

theorem compile_parameters_lens_quadratic :
    ∃ t' c', (quadraticTree 3 2).withParameters { rescale := true } [10, 11, 12, 13] =
        .ok (t', 4) ∧
      t'.compile { rescale := true } none = .ok c' ∧
      c'.tape = (quadraticCompiled 3 2).tape ∧ c'.inputs = (quadraticCompiled 3 2).inputs ∧
      c'.initial.drop 2 = [12, 13] := by
  have hb : (quadraticTree 3 2).LeavesBare := by
    simp [quadraticTree, Tree.leavesBare_node, Symbol.isLeaf]
  obtain ⟨t', c', hw, hc, ht, hi, -, -, hp⟩ := (Tree.compile_parameters_lens
    (quadraticTree 3 2) hb _ _ _ (quadraticTree_compile 3 2)).2.2.2 [10, 11, 12, 13] rfl
  exact ⟨t', c', hw, hc, ht, hi, hp⟩

end Quadratic

end SymbolicFit
