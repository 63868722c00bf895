import Mathlib
import SymbolicFit.Proofs.ForwardMode
import SymbolicFit.Proofs.SoundDrafts

/-!
Evaluation that checks each place before it is read or written, and that the exponent of a power can
be lowered. On a well-formed tape no check fails, so plain evaluation stays inside its memory.
-/

namespace SymbolicFit

variable {α β : Type}

namespace Scratch

def get? (s : Scratch β) (i : Nat) : Option β := s.data[i]?

def modify? (s : Scratch β) (i : Nat) (f : β → β) : Option (Scratch β) :=
  if i < s.size then some (s.modify i f) else none

theorem get?_eq_some {s : Scratch β} {i : Nat} (h : i < s.size) (d : β) :
    s.get? i = some (s.getD i d) := by
  unfold size at h
  simp [get?, getD, h]

theorem modify?_eq_some {s : Scratch β} {i : Nat} (h : i < s.size) (f : β → β) :
    s.modify? i f = some (s.modify i f) := if_pos h

end Scratch

theorem Tape.WellFormed.mem {t : Tape α} {n m : Nat} (hw : t.WellFormed n m) {i : Nat}
    {e : Tape.Entry α} (he : t.entries[i]? = some e) :
    e ∈ t.entries.toList ∧ ∀ a ∈ e.operands, a < i := by
  obtain ⟨hi, rfl⟩ := Array.getElem?_eq_some_iff.1 he
  exact ⟨Array.getElem_mem_toList hi, hw.operands i hi⟩

variable [Scalar α]

omit [Scalar α] in
theorem UnaryOp.Bounded.ne_smallest {op : UnaryOp} (h : op.Bounded) :
    op ≠ .power Int32.minValue := by
  rintro rfl
  have hsmall : Int32.minValue.toInt.natAbs ≤ 2147483647 := h
  exact absurd hsmall (by decide)

namespace Tape

/-- `entryValue` with every place checked. -/
def entryValue? (params inputs : List α) (values : Scratch α) : Entry α → Option α
  | .param i => params[i]?
  | .input c => inputs[c]?
  | .literal v => some v
  | .unary op a => do return op.apply (← values.get? a)
  | .binary op a b => do return op.apply (← values.get? a) (← values.get? b)
  | .sum as => do return Scalar.sum (← as.mapM values.get?)

/-- `forward` with every place checked: an entry cannot read a value that is not there yet. -/
def forward? (t : Tape α) (params inputs : List α) (values : Scratch α) : Option (Scratch α) :=
  t.entries.toList.foldlM (fun vs e => do return vs.push (← entryValue? params inputs vs e))
    values.clear

/-- `evaluate` with every place checked. -/
def evaluate? (t : Tape α) (params inputs : List α) (w : Workspace α) :
    Option (α × Workspace α) := do
  let values ← t.forward? params inputs w.values
  match t.output with
  | some out => return (← values.get? out, { w with values })
  | none => return (Scalar.undefined, { w with values })

/-- `propagate` with every place and exponent checked. -/
def propagate? (values : Scratch α) (adjoint y : α) (e : Entry α) (s : Scratch α × List α) :
    Option (Scratch α × List α) :=
  match e with
  | .param p => if p < s.2.length then some (s.1, s.2.modify p (· + adjoint)) else none
  | .input _ | .literal _ => some s
  | .unary op a => do
    let x ← values.get? a
    guard (op ≠ .power Int32.minValue)
    return (← s.1.modify? a (· + adjoint * op.derivative x y), s.2)
  | .binary op a b => do
    let d := op.partials (← values.get? a) (← values.get? b)
    let adjoints ← s.1.modify? a (· + adjoint * d.1)
    return (← adjoints.modify? b (· + adjoint * d.2), s.2)
  | .sum as => do
    return (← as.foldlM (fun adjoints a => adjoints.modify? a (· + adjoint)) s.1, s.2)

/-- `backward` with every place and exponent checked. -/
def backward? (t : Tape α) (values : Scratch α) :
    Nat → Scratch α × List α → Option (Scratch α × List α)
  | 0, s => some s
  | i + 1, s => do
    let adjoint ← s.1.get? i
    let e ← t.entries[i]?
    if adjoint == 0 then backward? t values i s
    else backward? t values i (← propagate? values adjoint (← values.get? i) e s)

/-- `differentiate` with every place and exponent checked. -/
def differentiate? (t : Tape α) (params inputs gradient : List α) (w : Workspace α) :
    Option (α × List α × Workspace α) := do
  let zeros := gradient.map fun _ => 0
  let values ← t.forward? params inputs w.values
  match t.output with
  | none => return (Scalar.undefined, zeros, { w with values })
  | some out =>
    let seed ← (w.adjoints.fill t.size 0).modify? out fun _ => 1
    let (adjoints, gradient') ← t.backward? values t.size (seed, zeros)
    return (← values.get? out, gradient', { values, adjoints })

theorem mapM_get? {s : Scratch α} {as : List Nat} (h : ∀ a ∈ as, a < s.size) :
    as.mapM s.get? = some (as.map (s.getD · 0)) := by
  induction as with
  | nil => rfl
  | cons a as ih =>
    rw [List.forall_mem_cons] at h
    rw [List.mapM_cons, Scratch.get?_eq_some h.1 0, ih h.2]
    rfl

theorem entryValue?_eq_some {params inputs : List α} {values : Scratch α} {e : Entry α}
    (ho : ∀ a ∈ e.operands, a < values.size) (hp : ∀ i, e = .param i → i < params.length)
    (hi : ∀ c, e = .input c → c < inputs.length) :
    entryValue? params inputs values e = some (entryValue params inputs values e) := by
  cases e with
  | param i => simp [entryValue?, entryValue, hp i rfl]
  | input c => simp [entryValue?, entryValue, hi c rfl]
  | literal v => rfl
  | unary op a =>
    rw [entryValue?, Scratch.get?_eq_some (ho a (by simp [Entry.operands])) 0]
    rfl
  | binary op a b =>
    rw [entryValue?, Scratch.get?_eq_some (ho a (by simp [Entry.operands])) 0,
      Scratch.get?_eq_some (ho b (by simp [Entry.operands])) 0]
    rfl
  | sum as =>
    have hs : as.mapM values.get? = some (as.map (values.getD · 0)) := mapM_get? ho
    rw [entryValue?, hs]
    rfl

theorem forward?_eq_some {t : Tape α} {params inputs : List α}
    (hw : t.WellFormed params.length inputs.length) (s : Scratch α) :
    t.forward? params inputs s = some (t.forward params inputs s) := by
  -- the entries evaluated so far are a prefix of the tape
  have hprefix : ∀ es : List (Entry α), es <+: t.entries.toList →
      es.foldlM (fun vs e => do return vs.push (← entryValue? params inputs vs e)) Scratch.empty =
        some (pass (entryValue params inputs) es) := by
    intro es
    induction es using List.reverseRecOn with
    | nil => exact fun _ => rfl
    | append_singleton es e ih =>
      intro h
      have he : t.entries[es.length]? = some e := by
        obtain ⟨fs, h⟩ := h
        rw [← Array.getElem?_toList, ← h]
        simp
      obtain ⟨hm, ho⟩ := hw.mem he
      have hv : entryValue? params inputs (pass (entryValue params inputs) es) e = _ :=
        entryValue?_eq_some (fun a ha => by rw [size_pass]; exact ho a ha)
          (fun i h => hw.param i (h ▸ hm)) (fun c h => hw.input c (h ▸ hm))
      rw [List.foldlM_append, ih ((List.prefix_append _ _).trans h), pass_append_singleton]
      simp [hv]
  rw [forward_eq_pass]
  exact hprefix _ List.prefix_rfl

theorem size_forward (t : Tape α) (params inputs : List α) (s : Scratch α) :
    (t.forward params inputs s).size = t.size := by
  rw [forward_eq_pass, size_pass, Array.length_toList, size]

theorem evaluate?_eq_some {t : Tape α} {params inputs : List α}
    (hw : t.WellFormed params.length inputs.length) (w : Workspace α) :
    t.evaluate? params inputs w = some (t.evaluate params inputs w) := by
  obtain ⟨out, ho, hout⟩ := hw.output
  have hv : (t.forward params inputs w.values).get? out = some _ :=
    Scratch.get?_eq_some (by rwa [size_forward]) 0
  simp [evaluate?, evaluate, outputValue, forward?_eq_some hw, hout, hv]

theorem foldlM_modify? {s : Scratch α} {as : List Nat} (c : α) (h : ∀ a ∈ as, a < s.size) :
    as.foldlM (fun s a => s.modify? a (· + c)) s =
      some (as.foldl (fun s a => s.modify a (· + c)) s) := by
  induction as generalizing s with
  | nil => rfl
  | cons a as ih =>
    rw [List.forall_mem_cons] at h
    rw [List.foldlM_cons, Scratch.modify?_eq_some h.1]
    exact ih fun b hb => (Scratch.size_modify s a _).symm ▸ h.2 b hb

theorem propagate?_eq_some {values : Scratch α} {c y : α} {e : Entry α} {s : Scratch α × List α}
    (hv : ∀ a ∈ e.operands, a < values.size) (hs : ∀ a ∈ e.operands, a < s.1.size)
    (hp : ∀ p, e = .param p → p < s.2.length) (hb : ∀ op a, e = .unary op a → op.Bounded) :
    propagate? values c y e s = some (propagate values c y e s) := by
  cases e with
  | param p => exact if_pos (hp p rfl)
  | input | literal => rfl
  | unary op a =>
    have ha : a ∈ (Entry.unary (α := α) op a).operands := List.mem_singleton_self a
    simp [propagate?, propagate, Scratch.get?_eq_some (hv a ha) 0,
      (hb op a rfl).ne_smallest, Scratch.modify?_eq_some (hs a ha)]
  | binary op a b =>
    have ha : a ∈ (Entry.binary (α := α) op a b).operands := by simp [Entry.operands]
    have hb : b ∈ (Entry.binary (α := α) op a b).operands := by simp [Entry.operands]
    have hsb : ∀ f, b < (s.1.modify a f).size := fun f => by
      rw [Scratch.size_modify]
      exact hs b hb
    simp [propagate?, propagate, Scratch.get?_eq_some (hv a ha) 0,
      Scratch.get?_eq_some (hv b hb) 0, Scratch.modify?_eq_some (hs a ha),
      Scratch.modify?_eq_some (hsb _)]
  | sum as =>
    have hsum : as.foldlM _ s.1 = some _ := foldlM_modify? c hs
    simp [propagate?, propagate, hsum]

theorem backward?_eq_some {t : Tape α} {n m : Nat} (hw : t.WellFormed n m)
    (hb : ∀ op a, .unary op a ∈ t.entries.toList → op.Bounded) {values : Scratch α}
    (hv : values.size = t.size) {k : Nat} (hk : k ≤ t.size) {s : Scratch α × List α}
    (hs : s.1.size = t.size) (hg : s.2.length = n) :
    t.backward? values k s = some (t.backward values k s) := by
  induction k generalizing s with
  | zero => rfl
  | succ i ih =>
    have he : t.entries[i]? = some t.entries[i] := Array.getElem?_eq_getElem hk
    obtain ⟨hm, ho⟩ := hw.mem he
    have ha : s.1.get? i = some _ := Scratch.get?_eq_some (by omega) 0
    have hy : values.get? i = some _ := Scratch.get?_eq_some (by omega) 0
    -- a step keeps the sizes, so the next one is checked against the same bounds
    have hp : propagate? values (s.1.getD i 0) (values.getD i 0) t.entries[i] s = some _ :=
      propagate?_eq_some (fun a h => by have := ho a h; omega)
        (fun a h => by have := ho a h; omega) (fun p h => hg ▸ hw.param p (h ▸ hm))
        (fun op a h => hb op a (h ▸ hm))
    rw [backward?, backward]
    simp only [ha, hy, he, hp, Option.bind_eq_bind, Option.bind_some]
    split_ifs
    · exact ih (Nat.le_of_succ_le hk) hs hg
    · exact ih (Nat.le_of_succ_le hk) ((size_propagate _ _ _ _ _).trans hs)
        ((length_propagate _ _ _ _ _).trans hg)

/-- On a well-formed tape with small exponents no check of the differentiation fails. -/
theorem differentiate?_eq_some {t : Tape α} {params inputs gradient : List α}
    (hw : t.WellFormed params.length inputs.length)
    (hb : ∀ op a, .unary op a ∈ t.entries.toList → op.Bounded)
    (hg : gradient.length = params.length) (w : Workspace α) :
    t.differentiate? params inputs gradient w =
      some (t.differentiate params inputs gradient w) := by
  obtain ⟨out, ho, hout⟩ := hw.output
  have hv : (t.forward params inputs w.values).get? out = some _ :=
    Scratch.get?_eq_some (by rwa [size_forward]) 0
  have hseed : (w.adjoints.fill t.size 0).modify? out (fun _ => 1) = some _ :=
    Scratch.modify?_eq_some (by rwa [Scratch.size_fill]) _
  have hback := backward?_eq_some hw hb (size_forward t params inputs w.values) le_rfl
    (s := ((w.adjoints.fill t.size 0).modify out fun _ => 1, gradient.map fun _ => 0))
    (by simp) (by simpa using hg)
  simp only [differentiate?, differentiate, forward?_eq_some hw, hout, hv, hseed, hback,
    Option.bind_eq_bind, Option.bind_some, Option.pure_def]

-- an entry that reads itself
example : (⟨#[.unary .neg 0], some 0⟩ : Tape Float).evaluate? [] [] .empty = none := rfl

-- an exponent that cannot be lowered
example : (⟨#[.literal 1, .unary (.power (-2147483648)) 0], some 1⟩ : Tape Float).differentiate?
    [] [] [] .empty = none := by rfl

end Tape

end SymbolicFit
