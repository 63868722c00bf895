import Mathlib.Data.List.Induction
import Mathlib.Tactic.Common
import SymbolicFit.Tape

/-!
The forward pass of a tape. What it computes for an entry depends only on the entries before, so
the values of a tape solve one equation for each entry and stay when entries are appended.
-/

namespace SymbolicFit.Tape

variable {α β : Type}

/-- The positions an entry reads. -/
def Entry.operands : Entry α → List Nat
  | .param _ | .input _ | .literal _ => []
  | .unary _ a => [a]
  | .binary _ a b => [a, b]
  | .sum as => as

/-- A tape that can be evaluated on this many parameters and inputs: every entry reads earlier
ones, and the output is one of the entries. -/
structure WellFormed (t : Tape α) (parameters inputs : Nat) : Prop where
  operands : ∀ i (h : i < t.entries.size), ∀ a ∈ t.entries[i].operands, a < i
  param : ∀ i, .param i ∈ t.entries.toList → i < parameters
  input : ∀ c, .input c ∈ t.entries.toList → c < inputs
  output : ∃ out < t.size, t.output = some out

/-- One item for each entry, computed from the items of the entries before. -/
def pass (step : Scratch β → Entry α → β) (es : List (Entry α)) : Scratch β :=
  es.foldl (fun s e => s.push (step s e)) .empty

theorem pass_append_singleton (step : Scratch β → Entry α → β) (es : List (Entry α))
    (e : Entry α) : pass step (es ++ [e]) = (pass step es).push (step (pass step es) e) := by
  simp [pass]

@[simp] theorem size_pass (step : Scratch β → Entry α → β) (es : List (Entry α)) :
    (pass step es).size = es.length := by
  induction es using List.reverseRecOn with
  | nil => rfl
  | append_singleton es e ih => simp [pass_append_singleton, ih]

theorem getD_pass_append (step : Scratch β → Entry α → β) (es fs : List (Entry α)) (d : β)
    {i : Nat} (h : i < es.length) :
    (pass step (es ++ fs)).getD i d = (pass step es).getD i d := by
  induction fs using List.reverseRecOn with
  | nil => simp
  | append_singleton fs f ih =>
    rw [← List.append_assoc, pass_append_singleton, Scratch.getD_push, if_neg (by simp; omega)]
    exact ih

/-- A step that reads the items at the operands only. -/
def Local (step : Scratch β → Entry α → β) (d : β) : Prop :=
  ∀ s s' e, (∀ a ∈ e.operands, s.getD a d = s'.getD a d) → step s e = step s' e

theorem getD_pass {step : Scratch β → Entry α → β} {d : β} (hs : Local step d)
    (es : List (Entry α)) {i : Nat} {e : Entry α} (he : es[i]? = some e)
    (ha : ∀ a ∈ e.operands, a < i) :
    (pass step es).getD i d = step (pass step es) e := by
  obtain ⟨hi, rfl⟩ := List.getElem?_eq_some_iff.1 he
  have hl : (es.take i).length = i := by simp; omega
  have h : es = es.take i ++ es[i] :: es.drop (i + 1) := by simp
  have hb : ∀ a < i, (pass step es).getD a d = (pass step (es.take i)).getD a d := by
    intro a hai
    conv_lhs => rw [h]
    exact getD_pass_append step _ _ d (by omega)
  have hv : (pass step es).getD i d = step (pass step (es.take i)) es[i] := by
    conv_lhs => rw [h, List.append_cons]
    rw [getD_pass_append _ _ _ _ (by simp; omega), pass_append_singleton]
    simp [Scratch.getD_push, hl]
  rw [hv]
  exact hs _ _ _ fun a h => (hb a (ha a h)).symm

variable [Scalar α]

theorem forward_eq_pass (t : Tape α) (params inputs : List α) (s : Scratch α) :
    t.forward params inputs s = pass (entryValue params inputs) t.entries.toList := by
  simp [forward, pass, ← Array.foldl_toList]

theorem entryValue_local (params inputs : List α) :
    Local (entryValue params inputs) 0 := by
  intro s s' e h
  cases e with
  | param | input | literal => rfl
  | unary op a => simp [entryValue, h a (by simp [Entry.operands])]
  | binary op a b =>
    simp [entryValue, h a (by simp [Entry.operands]), h b (by simp [Entry.operands])]
  | sum as =>
    simp only [entryValue]
    congr 1
    exact List.map_congr_left fun a ha => h a ha

end SymbolicFit.Tape
