import Mathlib
import SymbolicFit.CompiledTree.Draft

/-!
Reasoning about drafting: successful actions fall apart into successful steps, and two actions that
differ only in the initial values of their parameters write the same tape.
-/

namespace SymbolicFit

variable {α β γ δ ε : Type}

/-- The node and the role of a parameter, without its value. -/
def Parameter.place (p : Parameter α) : Nat × ParameterRole := (p.node, p.role)

namespace Draft

/-- A later draft, with these parameters added. -/
structure Grows (ps : List (Parameter α)) (d d' : Draft α) : Prop where
  entries : d.entries.toList <+: d'.entries.toList
  parameters : d'.parameters = d.parameters ++ ps
  inputs : d.inputs <+: d'.inputs

theorem Grows.refl (d : Draft α) : Grows [] d d := by constructor <;> simp

theorem Grows.trans {ps qs : List (Parameter α)} {d d' d'' : Draft α} (h : Grows ps d d')
    (h' : Grows qs d' d'') : Grows (ps ++ qs) d d'' :=
  ⟨h.entries.trans h'.entries, by rw [h'.parameters, h.parameters, List.append_assoc],
    h.inputs.trans h'.inputs⟩

/-- The same draft, up to the initial values of the parameters. -/
structure Alike (d e : Draft α) : Prop where
  entries : d.entries = e.entries
  places : d.parameters.map (·.place) = e.parameters.map (·.place)
  inputs : d.inputs = e.inputs

theorem Alike.refl (d : Draft α) : Alike d d := ⟨rfl, rfl, rfl⟩

end Draft

namespace Drafting

theorem bind_ok {x : Drafting α β} {f : β → Drafting α γ} {d d' : Draft α} {c : γ} :
    (x >>= f) d = .ok (c, d') ↔ ∃ b e, x d = .ok (b, e) ∧ f b e = .ok (c, d') := by
  rcases h : x d with err | ⟨b, e⟩
  · simp [bind, StateT.bind, Except.bind, h]
  · simp [bind, StateT.bind, Except.bind, h]

theorem bind_apply (x : Drafting α β) (f : β → Drafting α γ) (d : Draft α) :
    (x >>= f) d = (x d).bind fun p => f p.1 p.2 := rfl

theorem pure_ok {b c : β} {d d' : Draft α} :
    (pure b : Drafting α β) d = .ok (c, d') ↔ c = b ∧ d' = d := by
  simp [pure, StateT.pure, Except.pure, eq_comm]

theorem map_ok {f : β → γ} {x : Drafting α β} {d d' : Draft α} {c : γ} :
    (f <$> x) d = .ok (c, d') ↔ ∃ b, x d = .ok (b, d') ∧ f b = c := by
  rw [← bind_pure_comp, bind_ok]
  simp only [pure_ok]
  exact ⟨fun ⟨b, e, h, hc, hd⟩ => ⟨b, hd ▸ h, hc.symm⟩, fun ⟨b, h, hc⟩ => ⟨b, _, h, hc.symm, rfl⟩⟩

theorem unsupported_ok {id : Nat} {s : Symbol α} {d d' : Draft α} {b : β} :
    ¬ (unsupported id s : Drafting α β) d = .ok (b, d') := nofun

theorem emit_ok {e : Tape.Entry α} {d d' : Draft α} {i : Nat} :
    emit e d = .ok (i, d') ↔ i = d.entries.size ∧ d' = { d with entries := d.entries.push e } := by
  simp [emit, eq_comm]

theorem parameter_ok {node : Nat} {role : ParameterRole} {v : α} {d d' : Draft α} {i : Nat} :
    parameter node role v d = .ok (i, d') ↔ i = d.entries.size ∧
      d' = ⟨d.entries.push (.param d.parameters.length), d.parameters ++ [⟨node, role, v⟩],
        d.inputs⟩ := by
  simp only [parameter, bind_ok, emit_ok]
  constructor
  · rintro ⟨_, _, ⟨⟩, _, _, ⟨⟩, rfl, rfl⟩
    exact ⟨rfl, rfl⟩
  · rintro ⟨rfl, rfl⟩
    exact ⟨_, _, rfl, _, _, rfl, rfl, rfl⟩

theorem input_apply (r : ColumnRead) (d : Draft α) : input r d =
    match d.inputs.idxOf? r with
    | some c => emit (.input c) d
    | none => emit (.input d.inputs.length) { d with inputs := d.inputs ++ [r] } := by
  change (match d.inputs.idxOf? r with
    | some c => (emit (.input c) : Drafting α Nat)
    | none => _) d = _
  cases d.inputs.idxOf? r <;> rfl

theorem input_ok {r : ColumnRead} {d d' : Draft α} {i : Nat} :
    input r d = .ok (i, d') ↔ i = d.entries.size ∧
      ((∃ c, d.inputs.idxOf? r = some c ∧ d' = { d with entries := d.entries.push (.input c) }) ∨
        (d.inputs.idxOf? r = none ∧
          d' = ⟨d.entries.push (.input d.inputs.length), d.parameters, d.inputs ++ [r]⟩)) := by
  rw [input_apply]
  cases d.inputs.idxOf? r <;> simp [emit_ok]

theorem lift_ok {x : Except Failure β} {d d' : Draft α} {b : β} :
    (StateT.lift x : Drafting α β) d = .ok (b, d') ↔ x = .ok b ∧ d' = d := by
  cases x <;> simp [StateT.lift, bind, Except.bind, pure, Except.pure, eq_comm]

/-- A successful `x` adds the parameters `ps`, and `y` does the same from a draft that is alike. -/
def Follows (ps : List (Parameter α)) (x y : Drafting α β) : Prop :=
  ∀ d e, d.Alike e → ∀ b d', x d = .ok (b, d') →
    d.Grows ps d' ∧ ∃ e', y e = .ok (b, e') ∧ d'.Alike e'

namespace Follows

theorem pure (b : β) : Follows [] (Pure.pure b : Drafting α β) (Pure.pure b) := by
  intro d e hde c d' h
  obtain ⟨rfl, rfl⟩ := pure_ok.1 h
  exact ⟨.refl _, e, rfl, hde⟩

theorem bind {ps qs : List (Parameter α)} {x y : Drafting α β} {f g : β → Drafting α γ}
    (hx : Follows ps x y) (hf : ∀ b, Follows qs (f b) (g b)) :
    Follows (ps ++ qs) (x >>= f) (y >>= g) := by
  intro d e hde c d'' h
  obtain ⟨b, d', hb, hc⟩ := bind_ok.1 h
  obtain ⟨hg, e', hb', hde'⟩ := hx d e hde b d' hb
  obtain ⟨hg', e'', hc', hde''⟩ := hf b d' e' hde' c d'' hc
  exact ⟨hg.trans hg', e'', bind_ok.2 ⟨b, e', hb', hc'⟩, hde''⟩

theorem map {ps : List (Parameter α)} {x y : Drafting α β} (f : β → γ) (h : Follows ps x y) :
    Follows ps (f <$> x) (f <$> y) := by
  rw [← bind_pure_comp, ← bind_pure_comp, ← List.append_nil ps]
  exact h.bind fun b => pure (f b)

/-- Nothing is asked of an action that fails. -/
theorem unsupported {ps : List (Parameter α)} (id : Nat) (s : Symbol α) (y : Drafting α β) :
    Follows ps (unsupported id s) y := fun _ _ _ _ _ h => absurd h unsupported_ok

theorem lift (x : Except Failure β) :
    Follows [] (StateT.lift x : Drafting α β) (StateT.lift x) := by
  intro d e hde b d' h
  obtain ⟨hx, rfl⟩ := lift_ok.1 h
  exact ⟨.refl _, e, lift_ok.2 ⟨hx, rfl⟩, hde⟩

theorem emit (t : Tape.Entry α) : Follows [] (emit t) (emit t) := by
  intro d e hde i d' h
  obtain ⟨rfl, rfl⟩ := emit_ok.1 h
  exact ⟨⟨by simp, by simp, List.prefix_rfl⟩, { e with entries := e.entries.push t },
    emit_ok.2 ⟨by rw [hde.entries], rfl⟩, by rw [hde.entries], hde.places, hde.inputs⟩

theorem parameter (node : Nat) (role : ParameterRole) (v w : α) :
    Follows [⟨node, role, v⟩] (parameter node role v) (parameter node role w) := by
  intro d e hde i d' h
  obtain ⟨rfl, rfl⟩ := parameter_ok.1 h
  have hl : d.parameters.length = e.parameters.length := by
    simpa using congrArg List.length hde.places
  have hp : d.parameters.map (·.place) ++ [(node, role)] =
      e.parameters.map (·.place) ++ [(node, role)] := by rw [hde.places]
  exact ⟨⟨by simp, rfl, List.prefix_rfl⟩, _, parameter_ok.2 ⟨by rw [hde.entries], rfl⟩,
    by rw [hde.entries, hl], by simpa [Parameter.place] using hp, hde.inputs⟩

theorem input (r : ColumnRead) : Follows [] (input r : Drafting α Nat) (input r) := by
  intro d e hde i d' h
  obtain ⟨rfl, ⟨c, hc, rfl⟩ | ⟨hn, rfl⟩⟩ := input_ok.1 h
  · exact ⟨⟨by simp, by simp, List.prefix_rfl⟩, _,
      input_ok.2 ⟨by rw [hde.entries], Or.inl ⟨c, by rw [← hde.inputs, hc], rfl⟩⟩,
      by rw [hde.entries], hde.places, hde.inputs⟩
  · exact ⟨⟨by simp, by simp, List.prefix_append _ _⟩, _,
      input_ok.2 ⟨by rw [hde.entries], Or.inr ⟨by rw [← hde.inputs, hn], rfl⟩⟩,
      by rw [hde.entries, hde.inputs], hde.places, by rw [hde.inputs]⟩

theorem mapM {g : β → List (Parameter α)} {f : β → Drafting α γ} {f' : δ → Drafting α γ}
    {xs : List β} {ys : List δ} (h : List.Forall₂ (fun x y => Follows (g x) (f x) (f' y)) xs ys) :
    Follows (xs.flatMap g) (xs.mapM f) (ys.mapM f') := by
  induction h with
  | nil => exact pure []
  | cons hx _ ih =>
    rw [List.mapM_cons, List.mapM_cons, List.flatMap_cons]
    exact hx.bind fun b => ih.map (b :: ·)

theorem listMapM {f : β → Drafting α γ} (h : ∀ b, Follows [] (f b) (f b)) (bs : List β) :
    Follows [] (bs.mapM f) (bs.mapM f) := by
  have hn : bs.flatMap (fun _ => ([] : List (Parameter α))) = [] :=
    List.flatMap_eq_nil_iff.2 fun _ _ => rfl
  exact hn ▸ mapM (List.forall₂_same.2 fun b _ => h b)

theorem shapedMapM {f : β → Drafting α γ} (h : ∀ b, Follows [] (f b) (f b)) (a : Shaped β) :
    Follows [] (a.mapM f) (a.mapM f) := by
  cases a with
  | scalar b => exact (h b).map _
  | vector bs => exact (listMapM h bs).map _

theorem foldlM {f : β → γ → Drafting α β} (h : ∀ b c, Follows [] (f b c) (f b c)) (b : β)
    (cs : List γ) : Follows [] (cs.foldlM f b) (cs.foldlM f b) := by
  induction cs generalizing b with
  | nil => exact pure b
  | cons c cs ih => exact (h b c).bind fun b' => ih b'

theorem weight (o : FitOptions) (id : Nat) (role : ParameterRole) (v w : α)
    (h : o.tunesWeights id = false → w = v) :
    Follows (if o.tunesWeights id then [⟨id, role, v⟩] else []) (weight o id role v)
      (Drafting.weight o id role w) := by
  cases ht : o.tunesWeights id
  · simpa [Drafting.weight, ht, h ht] using emit (.literal v)
  · simpa [Drafting.weight, ht] using parameter id role v w

theorem weighted (r : ColumnRead) (w : Nat) :
    Follows [] (weighted r w : Drafting α Nat) (Drafting.weighted r w) :=
  (input r).bind fun _ => emit _

theorem combine (id : Nat) (op : BinaryOp) (a b : Shaped Nat) :
    Follows [] (combine id op a b : Drafting α (Shaped Nat)) (Drafting.combine id op a b) :=
  (lift _).bind fun pairs => shapedMapM (fun _ => emit _) pairs

section

variable [Scalar α]

theorem mean (xs : List Nat) : Follows [] (mean xs : Drafting α Nat) (Drafting.mean xs) :=
  (emit _).bind fun _ => (emit _).bind fun _ => emit _

theorem variance (xs : List Nat) :
    Follows [] (variance xs : Drafting α Nat) (Drafting.variance xs) := by
  unfold Drafting.variance
  split
  · exact emit _
  · refine (mean xs).bind fun m => (listMapM (fun x => ?_) xs).bind fun squares => ?_
    · exact (emit _).bind fun _ => emit _
    · exact (emit _).bind fun _ => (emit _).bind fun _ => emit _

theorem aggregate (g : Aggregate) (xs : List Nat) :
    Follows [] (aggregate g xs : Drafting α Nat) (Drafting.aggregate g xs) := by
  cases g with
  | sum => exact emit _
  | mean => exact mean xs
  | variance => exact variance xs
  | deviation => exact (variance xs).bind fun _ => emit _
  | length => exact emit _

end

end Follows

end Drafting

end SymbolicFit
