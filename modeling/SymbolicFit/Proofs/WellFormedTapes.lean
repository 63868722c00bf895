import Mathlib
import SymbolicFit.Proofs.CheckedTapes

/-!
Compilation gives well-formed tapes, for every tree and every trace, so evaluating a compiled tree
on vectors of its lengths never leaves its memory.
-/

namespace SymbolicFit

open Drafting

variable {α : Type}

namespace Symbol

theorem compileLeaf_builds {o : FitOptions} {shape : Shape} {id : Nat} {s : Symbol α}
    {x : Drafting α (Shaped Nat)} (hx : s.compileLeaf? o shape id = some x) (d : Draft α) :
    Builds d x fun out d' => d'.HasAll out.toList := by
  cases s with
  | constant v =>
    cases hx
    refine .scalar ?_
    split_ifs
    · exact .parameter id _ v
    · exact .literal v
  | fixed v =>
    cases hx
    exact .scalar (.literal v)
  | column name v lag index =>
    cases hx
    refine (Builds.weight o id _ v).bind fun i d₁ _ hi => ?_
    split
    · exact .vector (.mapM fun k _ d₂ hd => .weighted _ (hi.extend hd))
    · exact .scalar (.weighted _ hi)
  | indicator name category v =>
    cases hx
    exact (Builds.weight o id _ v).bind fun i d₁ _ hi => .scalar (.weighted _ hi)
  | factor name ws =>
    cases hx
    refine (Builds.mapM fun cw _ d₁ _ => ?_).bind fun addends d₂ _ hs => .scalar (.sum hs)
    exact (Builds.weight o id _ cw.2).bind fun i d₃ _ hi => .weighted _ hi
  | _ => cases hx

section

variable [Scalar α]

theorem integerExponent?_bounded {v : α} {n : Int32} (h : integerExponent? v = some n) :
    n.toInt.natAbs ≤ 2147483647 := by
  obtain ⟨hn, h⟩ := Option.ite_none_right_eq_some.1 h
  exact Option.some.inj h ▸ hn.2

theorem exponentOp?_bounded {s : Symbol α} {t : Tree α} {op : UnaryOp}
    (h : s.exponentOp? t = some op) : op.Bounded := by
  have hpower : ∀ {v : α}, (integerExponent? v).map UnaryOp.power = some op → op.Bounded := by
    intro v h
    obtain ⟨n, hn, rfl⟩ := Option.map_eq_some_iff.1 h
    exact integerExponent?_bounded hn
  have hroot : ∀ {v : α}, ((integerExponent? v).bind fun n =>
      if n = 0 then none else some (UnaryOp.root n)) = some op → op.Bounded := by
    intro v h
    obtain ⟨n, hn, h⟩ := Option.bind_eq_some_iff.1 h
    split_ifs at h with h0
    cases h
    exact ⟨h0, integerExponent?_bounded hn⟩
  unfold exponentOp? at h
  split at h
  · exact hpower h
  · exact hpower h
  · exact hroot h
  · exact hroot h
  · cases h

theorem single_bounded {op : FoldOp} {binary : BinaryOp} {single : UnaryOp}
    (h : op.primitive? = some (binary, some single)) : single.Bounded := by
  cases op <;> cases h <;> trivial

theorem assemble_builds (id : Nat) (s : Symbol α) {args : List (Shaped Nat)} {d : Draft α}
    (h : ∀ a ∈ args, d.HasAll a.toList) :
    Builds d (s.assemble id args) fun out d' => d'.HasAll out.toList := by
  unfold assemble
  split
  case h_1 op a rest =>
    rw [List.forall_mem_cons] at h
    split
    · exact .pure h.1
    · rename_i hop
      exact .unaryOn (single_bounded hop) h.1
    · exact .foldlM id _ h.2 h.1
    · exact .unsupported
  case h_2 => exact .combine id _ (h _ (by simp)) (h _ (by simp))
  case h_3 f a =>
    have hf : (UnaryOp.elementary f).Bounded := trivial
    exact .unaryOn hf (h _ (by simp))
  case h_4 => exact .scalar (.aggregate _ (h _ (by simp)))
  case h_5 => exact .pure (h _ (by simp))
  case h_6 => exact .unsupported

end

end Symbol

namespace Tree

variable [Scalar α]

mutual

/-- A tree compiles to entries of a sound draft, whatever its children and the trace. -/
theorem compileAt_builds (o : FitOptions) (trace : Option Trace) :
    ∀ (t : Tree α) (id : Nat) (d : Draft α),
      Builds d (t.compileAt o trace id) fun out d' => d'.HasAll out.toList
  | node s cs, id, d => by
    cases hl : s.isLeaf
    · by_cases ha : s.accepts (Trace.shapeOf trace (id + 1)) cs.length = true
      · rcases exponent_cases s cs with ⟨he, base, exponent, rfl⟩ | he
        · rw [compileAt_exponent he]
          refine (compileAt_builds o trace base (id + 1) d).bind fun x d' _ hx => ?_
          split
          · rename_i hop
            exact .unaryOn (Symbol.exponentOp?_bounded hop) hx
          · exact .unsupported
        · rw [compileAt_other hl he ha]
          exact (compileAllAt_builds o trace cs (id + 1) d).bind fun args d' _ h =>
            s.assemble_builds id h
      · rw [compileAt_rejected hl ha]
        exact .unsupported
    · obtain ⟨x, hx⟩ := Symbol.compileLeaf?_of_isLeaf hl o (Trace.shapeOf trace id) id
      rw [compileAt_leaf hx]
      exact Symbol.compileLeaf_builds hx d

theorem compileAllAt_builds (o : FitOptions) (trace : Option Trace) :
    ∀ (ts : List (Tree α)) (id : Nat) (d : Draft α),
      Builds d (compileAllAt o trace id ts) fun args d' => ∀ a ∈ args, d'.HasAll a.toList
  | [], _, _ => .pure nofun
  | t :: ts, id, d => by
    unfold compileAllAt
    refine (compileAt_builds o trace t id d).bind fun x d₁ _ hx => ?_
    refine (compileAllAt_builds o trace ts (id + t.reach) d₁).bind fun xs d₂ h₂ hxs => ?_
    exact .pure (List.forall_mem_cons.2 ⟨hx.extend h₂, hxs⟩)

end

theorem compileOutput_builds (t : Tree α) (o : FitOptions) (trace : Option Trace) (d : Draft α) :
    Builds d (t.compileOutput o trace) fun out d' => d'.Has out := by
  have hs : ∀ (x : Shaped Nat) (d : Draft α), d.HasAll x.toList →
      Builds d (compileOutput.scalar x) fun out d' => d'.Has out := by
    intro x d hx
    cases x with
    | scalar x => exact .pure (hx x (List.mem_singleton_self x))
    | vector xs => exact fun _ _ _ h => nomatch h
  unfold compileOutput
  split_ifs
  · refine (Builds.parameter 0 _ 0).bind fun offset d₁ _ hoffset => ?_
    refine (Builds.parameter 0 _ 1).bind fun factor d₂ h₂ hfactor => ?_
    refine (compileAt_builds o trace t 0 d₂).bind fun x d₃ h₃ hx => ?_
    refine (hs x d₃ hx).bind fun y d₄ h₄ hy => ?_
    refine (Builds.binary .mul ((hfactor.extend h₃).extend h₄) hy).bind fun scaled d₅ h₅ hz => ?_
    exact .binary .add hz ((((hoffset.extend h₂).extend h₃).extend h₄).extend h₅)
  · exact (compileAt_builds o trace t 0 d).bind fun x d₁ _ hx => hs x d₁ hx

end Tree

theorem Draft.Sound.wellFormed {d : Draft α} (h : d.Sound) {out : Nat} (ho : d.Has out) :
    Tape.WellFormed ⟨d.entries, some out⟩ d.parameters.length d.inputs.length where
  operands i hi := h.operands i _ (Array.getElem?_eq_getElem hi)
  param i hi := (h.params i).1 (Array.mem_iff_getElem?.1 (Array.mem_toList_iff.1 hi))
  input c hc := (h.inputs c).1 (Array.mem_iff_getElem?.1 (Array.mem_toList_iff.1 hc))
  output := ⟨out, ho, rfl⟩

/-- Every tape that compilation gives is well formed: entries read earlier ones, the output is one
of them, each parameter has exactly one entry, the inputs are distinct and all read, and exponents
are bounded. So no check fails when it is evaluated, with or without derivatives. -/
theorem Tree.compile_wellFormed [Scalar α] (t : Tree α) (o : FitOptions) (trace : Option Trace)
    (c : CompiledTree α) (hc : t.compile o trace = .ok c) :
    (∀ (k : Nat) (e : Tape.Entry α), c.tape.entries[k]? = some e → ∀ a ∈ e.operands, a < k) ∧
    (∃ out < c.tape.size, c.tape.output = some out) ∧
    (∀ i < c.parameterCount, ∃! k : Nat, c.tape.entries[k]? = some (.param i)) ∧
    (∀ i k : Nat, c.tape.entries[k]? = some (.param i) → i < c.parameterCount) ∧
    c.inputs.Nodup ∧
    (∀ j : Nat, (∃ k : Nat, c.tape.entries[k]? = some (.input j)) ↔ j < c.inputs.length) ∧
    (∀ (k : Nat) (op : UnaryOp) (a : Nat), c.tape.entries[k]? = some (.unary op a) →
      op.Bounded) ∧
    ∀ (params inputs gradient : List α) (w : Workspace α), params.length = c.parameterCount →
      inputs.length = c.inputs.length → gradient.length = c.parameterCount →
      c.tape.evaluate? params inputs w = some (c.tape.evaluate params inputs w) ∧
      c.tape.differentiate? params inputs gradient w =
        some (c.tape.differentiate params inputs gradient w) := by
  obtain ⟨out, d, hd, rfl⟩ := compile_ok.1 hc
  obtain ⟨-, hs, ho⟩ := compileOutput_builds t o trace .empty Draft.sound_empty out d hd
  refine ⟨hs.operands, ⟨out, ho, rfl⟩, fun i hi => ?_, fun i k hk => (hs.params i).1 ⟨k, hk⟩,
    hs.distinct, hs.inputs, hs.bounded, fun params inputs gradient w hp hi hg => ?_⟩
  · obtain ⟨k, hk⟩ := (hs.params i).2 hi
    exact ⟨k, hk, fun k' hk' => hs.unique i k' k hk' hk⟩
  · have hw : Tape.WellFormed ⟨d.entries, some out⟩ params.length inputs.length :=
      hp ▸ hi ▸ hs.wellFormed ho
    have hb : ∀ op a, .unary op a ∈ d.entries.toList → op.Bounded := fun op a h => by
      obtain ⟨k, hk⟩ := Array.mem_iff_getElem?.1 (Array.mem_toList_iff.1 h)
      exact hs.bounded k op a hk
    exact ⟨Tape.evaluate?_eq_some hw w, Tape.differentiate?_eq_some hw hb (hg.trans hp.symm) w⟩

theorem compile_wellFormed_quadratic :
    (∃! k : Nat, (quadraticCompiled 3 2).tape.entries[k]? = some (.param 3)) ∧
    (UnaryOp.power 2).Bounded ∧
    (quadraticCompiled 3 2).tape.evaluate? [10, 11, 12, 13] [5] .empty =
      some ((quadraticCompiled 3 2).tape.evaluate [10, 11, 12, 13] [5] .empty) ∧
    (quadraticCompiled 3 2).tape.differentiate? [10, 11, 12, 13] [5] [0, 0, 0, 0] .empty =
      some ((quadraticCompiled 3 2).tape.differentiate [10, 11, 12, 13] [5] [0, 0, 0, 0]
        .empty) := by
  obtain ⟨-, -, hp, -, -, -, hb, he⟩ := Tree.compile_wellFormed (quadraticTree 3 2)
    { rescale := true } none (quadraticCompiled 3 2) (quadraticTree_compile 3 2)
  exact ⟨hp 3 (by decide), hb 6 (.power 2) 5 rfl,
    he [10, 11, 12, 13] [5] [0, 0, 0, 0] .empty rfl rfl rfl⟩

end SymbolicFit
