import SymbolicFit.Proofs.ExactArithmetic
import SymbolicFit.Proofs.TapeValues

/-!
Forward-mode differentiation of a tape, and its agreement with the backward pass: while adjoints
move towards the front, the gradient so far plus the adjoints paired with the tangents stays the
tangent of the output.
-/

namespace SymbolicFit.Tape

variable {α : Type}

section

variable [Scalar α]

/-- The value and the tangent of an entry along parameter `p`. -/
def entryDual (params inputs : List α) (p : Nat) (duals : Scratch (α × α)) : Entry α → α × α
  | .param i => (params.getD i 0, if i = p then 1 else 0)
  | .input c => (inputs.getD c 0, 0)
  | .literal v => (v, 0)
  | .unary op a =>
    let x := duals.getD a (0, 0)
    (op.apply x.1, op.derivative x.1 (op.apply x.1) * x.2)
  | .binary op a b =>
    let x := duals.getD a (0, 0)
    let y := duals.getD b (0, 0)
    (op.apply x.1 y.1, (op.partials x.1 y.1).1 * x.2 + (op.partials x.1 y.1).2 * y.2)
  | .sum as =>
    (Scalar.sum (as.map fun a => (duals.getD a (0, 0)).1),
      Scalar.sum (as.map fun a => (duals.getD a (0, 0)).2))

/-- The values and tangents of all entries, propagated forward along parameter `p`. -/
def duals (t : Tape α) (params inputs : List α) (p : Nat) : Scratch (α × α) :=
  pass (entryDual params inputs p) t.entries.toList

/-- The derivative of the output by parameter `p` in forward mode. -/
def tangent (t : Tape α) (params inputs : List α) (p : Nat) : α :=
  match t.output with
  | some out => ((t.duals params inputs p).getD out (0, 0)).2
  | none => Scalar.undefined

theorem entryDual_local (params inputs : List α) (p : Nat) :
    Local (entryDual params inputs p) (0, 0) := by
  intro s s' e h
  cases e with
  | param | input | literal => rfl
  | unary op a => simp [entryDual, h a (by simp [Entry.operands])]
  | binary op a b =>
    simp [entryDual, h a (by simp [Entry.operands]), h b (by simp [Entry.operands])]
  | sum as =>
    simp only [entryDual]
    congr 2 <;> exact List.map_congr_left fun a ha => by rw [h a ha]

/-- The tangent of an entry from the tangents of its operands. -/
def entryTangent (values : Scratch α) (y : α) (T : Nat → α) (p : Nat) : Entry α → α
  | .param i => if i = p then 1 else 0
  | .input _ | .literal _ => 0
  | .unary op a => op.derivative (values.getD a 0) y * T a
  | .binary op a b =>
    (op.partials (values.getD a 0) (values.getD b 0)).1 * T a +
      (op.partials (values.getD a 0) (values.getD b 0)).2 * T b
  | .sum as => Scalar.sum (as.map T)

/-- Forward mode carries the values of the plain evaluation. -/
theorem duals_fst (es : List (Entry α)) (params inputs : List α) (p i : Nat) :
    ((pass (entryDual params inputs p) es).getD i (0, 0)).1 =
      (pass (entryValue params inputs) es).getD i 0 := by
  induction es using List.reverseRecOn generalizing i with
  | nil => simp [pass, Scratch.getD, Scratch.empty]
  | append_singleton es e ih =>
    simp only [pass_append_singleton, Scratch.getD_push, size_pass]
    split_ifs with h
    · cases e <;> simp [entryDual, entryValue, ih]
    · exact ih i

theorem entryDual_snd (params inputs : List α) (p : Nat) (duals : Scratch (α × α))
    (values : Scratch α) (h : ∀ a, (duals.getD a (0, 0)).1 = values.getD a 0) (e : Entry α) :
    (entryDual params inputs p duals e).2 =
      entryTangent values (entryValue params inputs values e)
        (fun a => (duals.getD a (0, 0)).2) p e := by
  cases e <;> simp [entryDual, entryTangent, entryValue, h]

/-- The tangents of a tape solve one linear equation for each entry. -/
theorem tangent_equation {t : Tape α} {n m : Nat} (hw : t.WellFormed n m)
    (params inputs : List α) (p : Nat) {i : Nat} {e : Entry α} (he : t.entries[i]? = some e) :
    ((t.duals params inputs p).getD i (0, 0)).2 =
      entryTangent (t.forward params inputs .empty) ((t.forward params inputs .empty).getD i 0)
        (fun a => ((t.duals params inputs p).getD a (0, 0)).2) p e := by
  have he' : t.entries.toList[i]? = some e := by simpa using he
  have ho : ∀ a ∈ e.operands, a < i := by
    obtain ⟨hi, rfl⟩ := Array.getElem?_eq_some_iff.1 he
    exact hw.operands i hi
  rw [forward_eq_pass, getD_pass (entryValue_local params inputs) _ he' ho, duals,
    getD_pass (entryDual_local params inputs p) _ he' ho]
  exact entryDual_snd _ _ _ _ _ (duals_fst _ _ _ _) e

theorem size_propagate (values : Scratch α) (c y : α) (e : Entry α) (s : Scratch α × List α) :
    (propagate values c y e s).1.size = s.1.size := by
  cases e with
  | sum as =>
    suffices ∀ A : Scratch α, (as.foldl (fun B a => B.modify a (· + c)) A).size = A.size from
      this s.1
    induction as with
    | nil => exact fun _ => rfl
    | cons a as ih => exact fun A => (ih _).trans (Scratch.size_modify A a _)
  | _ => simp [propagate]

theorem length_propagate (values : Scratch α) (c y : α) (e : Entry α)
    (s : Scratch α × List α) : (propagate values c y e s).2.length = s.2.length := by
  cases e <;> simp [propagate]

end

section

variable [ExactRing α]

/-- The adjoints of the first `k` entries paired with their tangents. -/
def pairing (adjoints : Scratch α) (T : Nat → α) (k : Nat) : α :=
  ∑ i ∈ Finset.range k, adjoints.getD i 0 * T i

theorem pairing_modify (A : Scratch α) (T : Nat → α) (c : α) {a k : Nat} (ha : a < k)
    (hk : k ≤ A.size) : pairing (A.modify a (· + c)) T k = pairing A T k + c * T a := by
  have h : ∀ i ∈ Finset.range k, (A.modify a (· + c)).getD i 0 * T i =
      A.getD i 0 * T i + if a = i then c * T i else 0 := by
    intro i hi
    rw [Scratch.getD_modify _ _ _ (by have := Finset.mem_range.1 hi; omega)]
    split_ifs <;> ring
  rw [pairing, Finset.sum_congr rfl h, Finset.sum_add_distrib, Finset.sum_ite_eq,
    if_pos (Finset.mem_range.2 ha), pairing]

theorem pairing_foldl_modify (A : Scratch α) (T : Nat → α) (c : α) {k : Nat} (as : List Nat)
    (ha : ∀ a ∈ as, a < k) (hk : k ≤ A.size) :
    pairing (as.foldl (fun B a => B.modify a (· + c)) A) T k =
      pairing A T k + c * (as.map T).sum := by
  induction as generalizing A with
  | nil => simp
  | cons a as ih =>
    rw [List.foldl_cons, ih _ (fun b hb => ha b (by simp [hb])) (by simpa using hk),
      pairing_modify A T c (ha a (by simp)) hk, List.map_cons, List.sum_cons]
    ring

/-- One entry hands its adjoint on to its operands or to the gradient, and nothing is lost. -/
theorem propagate_conserves (values : Scratch α) (c y : α) (T : Nat → α) {e : Entry α}
    {k p : Nat} {s : Scratch α × List α} (ho : ∀ a ∈ e.operands, a < k) (hk : k ≤ s.1.size)
    (hp : p < s.2.length) :
    (propagate values c y e s).2.getD p 0 + pairing (propagate values c y e s).1 T k =
      s.2.getD p 0 + pairing s.1 T k + c * entryTangent values y T p e := by
  cases e with
  | param i =>
    simp only [propagate, entryTangent, List.getD_eq_getElem?_getD, List.getElem?_modify]
    rw [List.getElem?_eq_getElem hp]
    by_cases h : i = p
    · simp [h]
      ring
    · simp [h]
  | input | literal => simp [propagate, entryTangent]
  | unary op a =>
    simp only [propagate, entryTangent]
    rw [pairing_modify _ _ _ (ho a (by simp [Entry.operands])) hk]
    ring
  | binary op a b =>
    have ha := ho a (by simp [Entry.operands])
    have hb := ho b (by simp [Entry.operands])
    simp only [propagate, entryTangent]
    rw [pairing_modify _ _ _ hb (by simpa using hk), pairing_modify _ _ _ ha hk]
    ring
  | sum as =>
    simp only [propagate, entryTangent]
    rw [pairing_foldl_modify _ _ _ as ho hk, ExactRing.sum_eq]
    ring

/-- The backward pass collects in the gradient all that the first `k` adjoints are worth. -/
theorem getD_backward {t : Tape α} {n m : Nat} (hw : t.WellFormed n m) (values : Scratch α)
    (T : Nat → α) {p : Nat}
    (hT : ∀ i e, t.entries[i]? = some e → T i = entryTangent values (values.getD i 0) T p e)
    {k : Nat} (hk : k ≤ t.size) {s : Scratch α × List α} (hs : s.1.size = t.size)
    (hp : p < s.2.length) :
    (t.backward values k s).2.getD p 0 = s.2.getD p 0 + pairing s.1 T k := by
  induction k generalizing s with
  | zero => simp [backward, pairing]
  | succ k ih =>
    have hkt : k < t.entries.size := hk
    have he : t.entries[k]? = some t.entries[k] := by simp [hkt]
    have hsucc : pairing s.1 T (k + 1) = pairing s.1 T k + s.1.getD k 0 * T k := by
      simp [pairing, Finset.sum_range_succ]
    simp only [backward, he]
    split_ifs with h
    -- a zero adjoint is skipped, and its term of the pairing is zero
    · rw [ih (by omega) hs hp, hsucc, (ExactRing.beq_iff_eq _ _).1 h]
      ring
    · rw [ih (by omega) (by rw [size_propagate]; exact hs) (by rw [length_propagate]; exact hp),
        propagate_conserves values _ _ T (hw.operands k hkt) (by omega) hp, hsucc, hT k _ he]
      ring

theorem length_backward (t : Tape α) (values : Scratch α) (k : Nat) (s : Scratch α × List α) :
    (t.backward values k s).2.length = s.2.length := by
  induction k generalizing s with
  | zero => rfl
  | succ k ih =>
    rw [backward, ih]
    split
    · split_ifs
      · rfl
      · exact length_propagate _ _ _ _ _
    · rfl

/-- At the start only the output has an adjoint. -/
theorem pairing_seed (w : Scratch α) (T : Nat → α) {n out : Nat} (h : out < n) :
    pairing ((w.fill n 0).modify out fun _ => 1) T n = T out := by
  have hi : ∀ i ∈ Finset.range n, ((w.fill n 0).modify out fun _ => 1).getD i 0 * T i =
      if out = i then T i else 0 := by
    intro i hi
    rw [Scratch.getD_modify _ _ _ (by simpa using hi), Scratch.getD_fill]
    split_ifs <;> simp
  rw [pairing, Finset.sum_congr rfl hi, Finset.sum_ite_eq, if_pos (Finset.mem_range.2 h)]

/-- Reverse mode and forward mode agree on every well-formed tape: the value is that of a plain
evaluation in fresh memory, and each component of the gradient is the tangent of the output along
its parameter. Neither the old gradient nor what the workspace holds matters. -/
theorem differentiate_eq_forward_mode (t : Tape α) (params inputs gradient : List α)
    (w : Workspace α) (hw : t.WellFormed params.length inputs.length)
    (hg : gradient.length = params.length) :
    (t.differentiate params inputs gradient w).1 = (t.evaluate params inputs .empty).1 ∧
      (t.differentiate params inputs gradient w).2.1 =
        (List.range params.length).map (t.tangent params inputs) := by
  obtain ⟨out, ho, hout⟩ := hw.output
  have hv : t.forward params inputs w.values = t.forward params inputs .empty := by
    rw [forward_eq_pass, forward_eq_pass]
  constructor
  · simp only [differentiate, evaluate, outputValue, hout, hv, Workspace.empty]
  · simp only [differentiate, hout, hv]
    apply List.ext_getElem
    · simp [length_backward, hg]
    · intro p h1 h2
      have hp : p < (gradient.map fun _ => (0 : α)).length := by
        simpa [length_backward] using h1
      have h := getD_backward hw (t.forward params inputs .empty)
        (fun a => ((t.duals params inputs p).getD a (0, 0)).2)
        (fun i e he => tangent_equation hw params inputs p he) le_rfl
        (s := ((w.adjoints.fill t.size 0).modify out fun _ => 1, gradient.map fun _ => 0))
        (by simp) hp
      -- the cleared gradient adds nothing, and the seed is worth the tangent of the output
      rw [pairing_seed _ _ ho] at h
      simp only [List.getD_eq_getElem?_getD, List.getElem?_eq_getElem h1,
        List.getElem?_eq_getElem hp, Option.getD_some] at h
      simpa [tangent, hout] using h

end

/-- `z + z + z²` with `z = p₀ x₀`, followed by entries that the output does not use. -/
def sharing : Tape ℝ where
  entries := #[.param 0, .input 0, .binary .mul 0 1, .binary .mul 2 2, .sum [2, 2, 3], .param 0,
    .param 1]
  output := some 4

theorem differentiate_sharing :
    sharing.WellFormed 2 1 ∧
      (sharing.differentiate [3, 5] [2] [7, 7] .empty).1 =
        (sharing.evaluate [3, 5] [2] .empty).1 ∧
      (sharing.differentiate [3, 5] [2] [7, 7] .empty).2.1 = [28, 0] := by
  have hw : sharing.WellFormed 2 1 :=
    ⟨by decide, by simp [sharing], by simp [sharing], 4, by decide, rfl⟩
  have h := differentiate_eq_forward_mode sharing [3, 5] [2] [7, 7] .empty hw rfl
  refine ⟨hw, h.1, h.2.trans ?_⟩
  simp [sharing, List.range_succ, tangent, duals, pass, entryDual, Scratch.getD, Scratch.push,
    Scratch.empty, Scalar.sum, BinaryOp.partials, BinaryOp.apply]
  norm_num

end SymbolicFit.Tape
