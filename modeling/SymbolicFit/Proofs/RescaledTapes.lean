import Mathlib.Data.List.Induction
import Mathlib.Tactic.Common
import SymbolicFit.Proofs.TapeValues

/-!
Tapes that are continued behind other entries. The values of the moved entries are the values they
had, and a rescaling that is wrapped around a tape rescales its value.
-/

namespace SymbolicFit

theorem Scratch.getD_of_le {β : Type} {s : Scratch β} {i : Nat} (h : s.size ≤ i) (d : β) :
    s.getD i d = d := by
  rw [getD, Array.getD_eq_getD_getElem?, Array.getElem?_eq_none h, Option.getD_none]

namespace Tape

variable {α : Type}

/-- The entry, behind `n` more entries and with `m` more parameters. -/
def Entry.shift (n m : Nat) : Entry α → Entry α
  | .param i => .param (i + m)
  | .input c => .input c
  | .literal v => .literal v
  | .unary op a => .unary op (a + n)
  | .binary op a b => .binary op (a + n) (b + n)
  | .sum as => .sum (as.map (· + n))

@[simp] theorem Entry.shift_zero (e : Entry α) : e.shift 0 0 = e := by
  cases e <;> simp [shift]

/-- The value of the output times the second parameter, plus the first. -/
def rescale (t : Tape α) : Tape α :=
  match t.output with
  | none => t
  | some out =>
    let moved := #[.param 0, .param 1] ++ t.entries.map (·.shift 2 2)
    ⟨(moved.push (.binary .mul 1 (out + 2))).push (.binary .add (t.size + 2) 0),
      some (t.size + 3)⟩

variable [Scalar α] {params params' inputs : List α} {m : Nat}

theorem entryValue_shift (hp : ∀ i, params'.getD (i + m) 0 = params.getD i 0) {n : Nat}
    {values values' : Scratch α} (hv : ∀ a, values'.getD (a + n) 0 = values.getD a 0)
    (e : Entry α) :
    entryValue params' inputs values' (e.shift n m) = entryValue params inputs values e := by
  cases e with
  | param i => exact hp i
  | input c => rfl
  | literal v => rfl
  | unary op a => rw [Entry.shift, entryValue, hv, entryValue]
  | binary op a b => rw [Entry.shift, entryValue, hv, hv, entryValue]
  | sum as => simp only [Entry.shift, entryValue, List.map_map, Function.comp_def, hv]

/-- Behind other entries, each entry has the value it had. -/
theorem getD_pass_shift (hp : ∀ i, params'.getD (i + m) 0 = params.getD i 0)
    (front es : List (Entry α)) (a : Nat) :
    (pass (entryValue params' inputs) (front ++ es.map (·.shift front.length m))).getD
        (a + front.length) 0 =
      (pass (entryValue params inputs) es).getD a 0 := by
  induction es using List.reverseRecOn generalizing a with
  | nil =>
    rw [List.map_nil, List.append_nil, Scratch.getD_of_le (by rw [size_pass]; omega),
      Scratch.getD_of_le (by rw [size_pass]; exact Nat.zero_le a)]
  | append_singleton es e ih =>
    rw [List.map_append, List.map_singleton, ← List.append_assoc, pass_append_singleton,
      pass_append_singleton, Scratch.getD_push, Scratch.getD_push, ih,
      entryValue_shift hp ih, size_pass, size_pass, List.length_append, List.length_map]
    -- the new entry has the last place on both tapes
    exact if_congr (by omega) rfl rfl

theorem evaluate_rescale {t : Tape α} {out : Nat} (h : t.output = some out) (offset factor : α)
    (params inputs : List α) (w w' : Workspace α) :
    (t.rescale.evaluate (offset :: factor :: params) inputs w').1 =
      factor * (t.evaluate params inputs w).1 + offset := by
  obtain ⟨es, output⟩ := t
  obtain rfl : output = some out := h
  obtain ⟨vs, hvs⟩ : ∃ vs, vs = pass (entryValue (offset :: factor :: params) inputs)
    ([.param 0, .param 1] ++ es.toList.map (·.shift 2 2)) := ⟨_, rfl⟩
  have hsize : vs.size = es.size + 2 := by simp [hvs]
  have hoffset : vs.getD 0 0 = offset := hvs ▸ getD_pass_append _ _ _ 0 Nat.zero_lt_two
  have hfactor : vs.getD 1 0 = factor := hvs ▸ getD_pass_append _ _ _ 0 Nat.one_lt_two
  have hvalue : vs.getD (out + 2) 0 = (pass (entryValue params inputs) es.toList).getD out 0 :=
    hvs ▸ getD_pass_shift (fun i => rfl) [.param 0, .param 1] es.toList out
  have hentries : (rescale ⟨es, some out⟩).entries.toList =
      ([.param 0, .param 1] ++ es.toList.map (·.shift 2 2)) ++ [.binary .mul 1 (out + 2)] ++
        [.binary .add (es.size + 2) 0] := by
    simp [rescale, size]
  have houtput : (rescale ⟨es, some out⟩).output = some (es.size + 3) := rfl
  rw [evaluate, evaluate, forward_eq_pass, forward_eq_pass, hentries, pass_append_singleton,
    pass_append_singleton, ← hvs]
  simp only [outputValue, houtput, Scratch.getD_push, Scratch.size_push, hsize, if_true]
  have hscaled : entryValue (offset :: factor :: params) inputs vs (.binary .mul 1 (out + 2)) =
      factor * (pass (entryValue params inputs) es.toList).getD out 0 := by
    rw [entryValue, hfactor, hvalue]
    rfl
  rw [hscaled, entryValue, Scratch.getD_push, Scratch.getD_push, if_pos hsize.symm,
    if_neg (by omega), hoffset]
  rfl

end Tape

end SymbolicFit
