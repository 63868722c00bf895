import Mathlib.Data.List.GetD
import Mathlib.Tactic.Common
import SymbolicFit.CompiledTree
import SymbolicFit.Proofs.TapeValues

/-!
Frozen parameters. Where some parameters of a tape become literals of their initial values, the tape
computes what it did before with these values put back among the remaining ones.
-/

namespace SymbolicFit

variable {α β : Type} (keeps : Parameter α → Bool)

namespace Parameter

/-- The number that a parameter has among the kept ones. -/
def rank (ps : List (Parameter α)) (i : Nat) : Nat := (ps.take i).countP keeps

/-- Values of the kept parameters, with the initial values of the others put back. -/
def thaw : List (Parameter α) → List α → List α
  | [], _ => []
  | q :: ps, vs =>
    if keeps q then vs.headD q.initial :: thaw ps vs.tail else q.initial :: thaw ps vs

/-- The items that belong to kept parameters. -/
def kept : List (Parameter α) → List β → List β
  | q :: ps, x :: xs => if keeps q then x :: kept ps xs else kept ps xs
  | _, _ => []

variable {keeps}

@[simp] theorem rank_zero (ps : List (Parameter α)) : rank keeps ps 0 = 0 := by simp [rank]

theorem rank_cons_succ (q : Parameter α) (ps : List (Parameter α)) (i : Nat) :
    rank keeps (q :: ps) (i + 1) = rank keeps ps i + if keeps q then 1 else 0 := by
  rw [rank, List.take_succ_cons, List.countP_cons, rank]

theorem rank_append {ps : List (Parameter α)} {i : Nat} (h : i ≤ ps.length)
    (qs : List (Parameter α)) : rank keeps (ps ++ qs) i = rank keeps ps i := by
  rw [rank, rank, List.take_append_of_le_length h]

theorem length_thaw (ps : List (Parameter α)) (vs : List α) :
    (thaw keeps ps vs).length = ps.length := by
  induction ps generalizing vs with
  | nil => rfl
  | cons q ps ih =>
    rw [thaw]
    split_ifs <;> exact congrArg (· + 1) (ih _)

theorem getD_thaw {ps : List (Parameter α)} {vs : List α} (h : vs.length = ps.countP keeps)
    {i : Nat} {q : Parameter α} (hq : ps[i]? = some q) (d : α) :
    (thaw keeps ps vs).getD i d =
      if keeps q then vs.getD (rank keeps ps i) d else q.initial := by
  induction ps generalizing vs i with
  | nil => cases hq
  | cons r ps ih =>
    rw [List.countP_cons] at h
    rw [thaw]
    -- the first parameter takes the first value if it is kept, and none otherwise
    by_cases hr : keeps r = true
    · rw [if_pos hr] at h ⊢
      obtain ⟨v, vs, rfl⟩ := List.exists_cons_of_length_eq_add_one h
      cases i with
      | zero =>
        cases hq
        rw [if_pos hr]
        rfl
      | succ i =>
        rw [rank_cons_succ, if_pos hr]
        exact ih (Nat.succ.inj h) hq
    · rw [if_neg hr] at h ⊢
      cases i with
      | zero =>
        cases hq
        rw [if_neg hr]
        rfl
      | succ i =>
        rw [rank_cons_succ, if_neg hr]
        exact ih h hq

theorem length_kept_le (ps : List (Parameter α)) (xs : List β) :
    (kept keeps ps xs).length ≤ ps.length := by
  induction ps generalizing xs with
  | nil => cases xs <;> exact Nat.le_refl 0
  | cons q ps ih =>
    cases xs with
    | nil => exact Nat.zero_le _
    | cons x xs =>
      have hle := ih xs
      rw [kept, List.length_cons]
      split_ifs
      · exact Nat.succ_le_succ hle
      · exact Nat.le_succ_of_le hle

theorem kept_modify {ps : List (Parameter α)} {i : Nat} {q : Parameter α}
    (hq : ps[i]? = some q) (f : β → β) (xs : List β) :
    kept keeps ps (xs.modify i f) =
      if keeps q then (kept keeps ps xs).modify (rank keeps ps i) f else kept keeps ps xs := by
  induction ps generalizing xs i with
  | nil => cases hq
  | cons r ps ih =>
    cases xs with
    | nil => simp [kept]
    | cons x xs =>
      cases i with
      | zero =>
        cases hq
        simp only [List.modify_zero_cons, kept, rank_zero]
        split_ifs <;> rfl
      | succ i =>
        rw [List.getElem?_cons_succ] at hq
        have := ih hq xs
        simp only [List.modify_succ_cons, kept, rank_cons_succ, this]
        split_ifs <;> simp

theorem kept_modify_of_le {ps : List (Parameter α)} {i : Nat} (h : ps.length ≤ i) (f : β → β)
    (xs : List β) : kept keeps ps (xs.modify i f) = kept keeps ps xs := by
  induction ps generalizing xs i with
  | nil => simp [kept]
  | cons q ps ih =>
    cases i with
    | zero => cases h
    | succ i =>
      cases xs with
      | nil => simp
      | cons x xs => simp only [List.modify_succ_cons, kept, ih (Nat.le_of_succ_le_succ h)]

theorem kept_replicate (ps : List (Parameter α)) (x : β) :
    kept keeps ps (List.replicate ps.length x) = List.replicate (ps.countP keeps) x := by
  induction ps with
  | nil => rfl
  | cons q ps ih =>
    rw [List.length_cons, List.replicate_succ, kept, ih, List.countP_cons]
    split_ifs <;> rfl

end Parameter

open Parameter

namespace Tape

/-- Makes a literal of a parameter that is not kept, and numbers the kept ones anew. -/
def Entry.freeze (ps : List (Parameter α)) : Entry α → Entry α
  | .param i =>
    match ps[i]? with
    | some q => if keeps q then .param (rank keeps ps i) else .literal q.initial
    | none => .param i
  | e => e

def freeze (ps : List (Parameter α)) (t : Tape α) : Tape α :=
  ⟨t.entries.map (·.freeze keeps ps), t.output⟩

variable {keeps} {ps : List (Parameter α)} [Scalar α]

theorem entryValue_freeze {vs : List α} (h : vs.length = ps.countP keeps) (inputs : List α)
    (values : Scratch α) (e : Entry α) :
    entryValue vs inputs values (e.freeze keeps ps) =
      entryValue (thaw keeps ps vs) inputs values e := by
  cases e with
  | param i =>
    rw [Entry.freeze]
    cases hq : ps[i]? with
    | some q =>
      rw [entryValue, getD_thaw h hq]
      dsimp only
      split_ifs <;> rfl
    | none =>
      -- there is no such parameter on either side
      have hi := List.getElem?_eq_none_iff.1 hq
      have hle : ps.countP keeps ≤ i := Nat.le_trans List.countP_le_length hi
      rw [entryValue, entryValue, List.getD_eq_default _ _ (h ▸ hle),
        List.getD_eq_default _ _ ((length_thaw ps vs).symm ▸ hi)]
  | _ => rfl

theorem forward_freeze {vs : List α} (h : vs.length = ps.countP keeps) (t : Tape α)
    (inputs : List α) (s s' : Scratch α) :
    (t.freeze keeps ps).forward vs inputs s = t.forward (thaw keeps ps vs) inputs s' := by
  rw [forward_eq_pass, forward_eq_pass, freeze, Array.toList_map, pass, List.foldl_map, pass]
  simp only [entryValue_freeze h]

theorem evaluate_freeze {vs : List α} (h : vs.length = ps.countP keeps) (t : Tape α)
    (inputs : List α) (w w' : Workspace α) :
    ((t.freeze keeps ps).evaluate vs inputs w').1 =
      (t.evaluate (thaw keeps ps vs) inputs w).1 := by
  rw [evaluate, evaluate, forward_freeze h t inputs w'.values w.values]
  rfl

/-- What an entry hands on is the same but for the gradient of parameters that are not kept. -/
theorem propagate_freeze (values : Scratch α) (adjoint y : α) (e : Entry α)
    (s : Scratch α × List α) :
    propagate values adjoint y (e.freeze keeps ps) (s.1, kept keeps ps s.2) =
      Prod.map id (kept keeps ps) (propagate values adjoint y e s) := by
  cases e with
  | param i =>
    rw [Entry.freeze]
    cases hq : ps[i]? with
    | some q =>
      have hkept : kept keeps ps (s.2.modify i (· + adjoint)) = _ := kept_modify hq _ s.2
      dsimp only
      split_ifs at hkept ⊢ <;> exact Prod.ext rfl hkept.symm
    | none =>
      have hi := List.getElem?_eq_none_iff.1 hq
      refine Prod.ext rfl ?_
      change (kept keeps ps s.2).modify i _ = kept keeps ps (s.2.modify i _)
      rw [kept_modify_of_le hi, List.modify_eq_self (Nat.le_trans (length_kept_le ps s.2) hi)]
  | _ => rfl

theorem backward_freeze (t : Tape α) (values : Scratch α) (k : Nat) (s : Scratch α × List α) :
    (t.freeze keeps ps).backward values k (s.1, kept keeps ps s.2) =
      Prod.map id (kept keeps ps) (t.backward values k s) := by
  induction k generalizing s with
  | zero => rfl
  | succ k ih =>
    have hentry : (t.freeze keeps ps).entries[k]? = t.entries[k]?.map (·.freeze keeps ps) :=
      Array.getElem?_map
    rw [backward, backward, hentry]
    cases t.entries[k]? with
    | none => exact ih s
    | some e =>
      dsimp only [Option.map_some]
      -- the adjoints are the same on both tapes, so the same entries are skipped
      split_ifs
      · exact ih s
      · rw [propagate_freeze]
        exact ih _

/-- The derivatives by the kept parameters stay as they are. -/
theorem differentiate_freeze {vs : List α} (h : vs.length = ps.countP keeps) (t : Tape α)
    (inputs : List α) {g g' : List α} (hg : g.length = ps.length) (hg' : g'.length = vs.length)
    (w w' : Workspace α) :
    ((t.freeze keeps ps).differentiate vs inputs g' w').1 =
        (t.differentiate (thaw keeps ps vs) inputs g w).1 ∧
      ((t.freeze keeps ps).differentiate vs inputs g' w').2.1 =
        kept keeps ps (t.differentiate (thaw keeps ps vs) inputs g w).2.1 := by
  have hzeros : (g'.map fun _ => (0 : α)) = kept keeps ps (g.map fun _ => 0) := by
    rw [List.map_const', List.map_const', hg, hg', h, kept_replicate]
  have hsize : (t.freeze keeps ps).size = t.size := Array.size_map
  have houtput : (t.freeze keeps ps).output = t.output := rfl
  rw [differentiate, differentiate, forward_freeze h t inputs w'.values w.values, hzeros, hsize,
    houtput]
  cases t.output with
  | none => exact ⟨rfl, rfl⟩
  | some out =>
    exact ⟨rfl, congrArg Prod.snd (backward_freeze t (t.forward (thaw keeps ps vs) inputs w.values)
      t.size ((w.adjoints.fill t.size 0).modify out fun _ => 1, g.map fun _ => 0))⟩

end Tape

namespace CompiledTree

/-- The compiled tree with only the kept parameters, the others being literals. -/
def freeze (c : CompiledTree α) : CompiledTree α :=
  ⟨c.tape.freeze keeps c.parameters, c.parameters.filter keeps, c.inputs, c.rescaled⟩

theorem parameterCount_freeze (c : CompiledTree α) :
    (c.freeze keeps).parameterCount = c.parameters.countP keeps :=
  List.countP_eq_length_filter.symm

/-- On every input row `c'` has the value of `c` with the initial values put back, and the
derivatives of `c` by the kept parameters. Neither old gradients nor old memory matter. -/
structure Restricts [Scalar α] (c c' : CompiledTree α) : Prop where
  value : ∀ vs inputs w w', vs.length = c'.parameterCount →
    (c'.tape.evaluate vs inputs w').1 =
      (c.tape.evaluate (thaw keeps c.parameters vs) inputs w).1
  derivative : ∀ vs inputs g g' w w', vs.length = c'.parameterCount →
    g.length = c.parameterCount → g'.length = c'.parameterCount →
      (c'.tape.differentiate vs inputs g' w').1 =
          (c.tape.differentiate (thaw keeps c.parameters vs) inputs g w).1 ∧
        (c'.tape.differentiate vs inputs g' w').2.1 =
          kept keeps c.parameters
            (c.tape.differentiate (thaw keeps c.parameters vs) inputs g w).2.1

theorem restricts_freeze [Scalar α] (c : CompiledTree α) :
    c.Restricts keeps (c.freeze keeps) where
  value _ inputs w w' h :=
    Tape.evaluate_freeze (h.trans (parameterCount_freeze keeps c)) c.tape inputs w w'
  derivative _ inputs _ _ w w' h hg hg' :=
    Tape.differentiate_freeze (h.trans (parameterCount_freeze keeps c)) c.tape inputs hg
      (hg'.trans h.symm) w w'

end CompiledTree

end SymbolicFit
