import SymbolicFit.Proofs.DraftLogic

/-!
What a drafting action can end in: a result, the inputs that were added, or a failure. One rule for
each action says which of them occur, whatever was drafted before.
-/

namespace SymbolicFit

variable {α β γ : Type}

namespace Drafting

/-- The action gives a result with `Q` and adds only inputs with `R`, or it fails with `E`. -/
structure Compiles (E : Failure → Prop) (R : ColumnRead → Prop) (x : Drafting α β)
    (Q : β → Prop) : Prop where
  ok : ∀ {d d' b}, x d = .ok (b, d') → Q b ∧ ∀ r ∈ d'.inputs, r ∈ d.inputs ∨ R r
  error : ∀ {d e}, x d = .error e → E e

namespace Compiles

variable {E : Failure → Prop} {R : ColumnRead → Prop} {Q : β → Prop} {Q' : γ → Prop}

theorem pure {b : β} (h : Q b) : Compiles E R (Pure.pure b : Drafting α β) Q where
  ok hb := by
    obtain ⟨rfl, rfl⟩ := pure_ok.1 hb
    exact ⟨h, fun r hr => .inl hr⟩
  error := nofun

theorem bind {x : Drafting α β} {f : β → Drafting α γ} (hx : Compiles E R x Q)
    (hf : ∀ b, Q b → Compiles E R (f b) Q') : Compiles E R (x >>= f) Q' where
  ok hc := by
    obtain ⟨b, d₁, hb, hc⟩ := bind_ok.1 hc
    obtain ⟨hQ, hd₁⟩ := hx.ok hb
    obtain ⟨hQ', hd₂⟩ := (hf b hQ).ok hc
    exact ⟨hQ', fun r hr => (hd₂ r hr).elim (hd₁ r) .inr⟩
  error {d e} he := by
    rcases hb : x d with e' | ⟨b, d'⟩
    · have he' : e' = e := by simpa [Bind.bind, StateT.bind, Except.bind, hb] using he
      exact hx.error (he' ▸ hb)
    · have he' : f b d' = .error e := by
        simpa [Bind.bind, StateT.bind, Except.bind, hb] using he
      exact (hf b (hx.ok hb).1).error he'

theorem imp {x : Drafting α β} {P : β → Prop} (hx : Compiles E R x P) (h : ∀ b, P b → Q b) :
    Compiles E R x Q where
  ok hb := (hx.ok hb).imp_left (h _)
  error := hx.error

theorem weaken {x : Drafting α β} (hx : Compiles E R x Q) : Compiles E R x fun _ => True :=
  hx.imp fun _ _ => trivial

theorem imp_error {E' : Failure → Prop} {x : Drafting α β} (hx : Compiles E R x Q)
    (h : ∀ e, E e → E' e) : Compiles E' R x Q where
  ok := hx.ok
  error he := h _ (hx.error he)

theorem map {x : Drafting α β} {f : β → γ} (hx : Compiles E R x fun b => Q' (f b)) :
    Compiles E R (f <$> x) Q' := by
  rw [← bind_pure_comp]
  exact hx.bind fun b hb => pure hb

theorem throw {e : Failure} (h : E e) : Compiles E R (throw e : Drafting α β) Q where
  ok := nofun
  error he := by
    cases he
    exact h

theorem lift {x : Except Failure β} (hok : ∀ b, x = .ok b → Q b)
    (herror : ∀ e, x = .error e → E e) :
    Compiles E R (StateT.lift x : Drafting α β) Q := by
  cases x with
  | error e => exact throw (herror e rfl)
  | ok b => exact pure (hok b rfl)

theorem emit (e : Tape.Entry α) : Compiles E R (emit e) fun _ => True where
  ok h := by
    obtain ⟨-, rfl⟩ := emit_ok.1 h
    exact ⟨trivial, fun r hr => .inl hr⟩
  error := nofun

theorem parameter (node : Nat) (role : ParameterRole) (v : α) :
    Compiles E R (parameter node role v) fun _ => True where
  ok h := by
    obtain ⟨-, rfl⟩ := parameter_ok.1 h
    exact ⟨trivial, fun r hr => .inl hr⟩
  error := nofun

theorem input {r : ColumnRead} (hr : R r) :
    Compiles E R (input r : Drafting α Nat) fun _ => True where
  ok h := by
    obtain ⟨-, ⟨c, -, rfl⟩ | ⟨-, rfl⟩⟩ := input_ok.1 h
    · exact ⟨trivial, fun r' hr' => .inl hr'⟩
    · refine ⟨trivial, fun r' hr' => ?_⟩
      rw [List.mem_append, List.mem_singleton] at hr'
      exact hr'.imp_right fun (h : r' = r) => h ▸ hr
  error {d e} h := by
    -- an input is found or added
    rcases hc : d.inputs.idxOf? r with _ | c
    · have hok := (input_ok (α := α)).2 ⟨rfl, .inr ⟨hc, rfl⟩⟩
      exact absurd (h.symm.trans hok) nofun
    · have hok := (input_ok (α := α)).2 ⟨rfl, .inl ⟨c, hc, rfl⟩⟩
      exact absurd (h.symm.trans hok) nofun

theorem mapM {f : γ → Drafting α β} {cs : List γ} (h : ∀ c ∈ cs, Compiles E R (f c) fun _ => True) :
    Compiles E R (cs.mapM f) fun bs => bs.length = cs.length := by
  induction cs with
  | nil => exact pure rfl
  | cons c cs ih =>
    rw [List.forall_mem_cons] at h
    rw [List.mapM_cons]
    exact h.1.bind fun b _ => (ih h.2).bind fun bs hbs => pure (congrArg (· + 1) hbs)

theorem shapedMapM {f : γ → Drafting α β} (h : ∀ c, Compiles E R (f c) fun _ => True)
    (a : Shaped γ) : Compiles E R (a.mapM f) fun b => b.shape = a.shape := by
  cases a with
  | scalar c => exact .map ((h c).imp fun _ _ => rfl)
  | vector cs => exact .map ((mapM fun c _ => h c).imp fun bs hbs => congrArg Shape.vector hbs)

theorem weight (o : FitOptions) (id : Nat) (role : ParameterRole) (v : α) :
    Compiles E R (weight o id role v) fun _ => True := by
  unfold Drafting.weight
  split_ifs
  · exact parameter id role v
  · exact emit _

theorem weighted {r : ColumnRead} (hr : R r) (w : Nat) :
    Compiles E R (weighted r w : Drafting α Nat) fun _ => True :=
  (input hr).bind fun _ _ => emit _

theorem foldlM {f : β → γ → Drafting α β} (h : ∀ b c, Compiles E R (f b c) fun _ => True) (b : β)
    (cs : List γ) : Compiles E R (cs.foldlM f b) fun _ => True := by
  induction cs generalizing b with
  | nil => exact pure trivial
  | cons c cs ih => exact (h b c).bind fun b' _ => ih b'

section

variable [Scalar α]

theorem mean (xs : List Nat) : Compiles E R (mean xs : Drafting α Nat) fun _ => True :=
  (emit _).bind fun _ _ => (emit _).bind fun _ _ => emit _

theorem variance (xs : List Nat) : Compiles E R (variance xs : Drafting α Nat) fun _ => True := by
  unfold Drafting.variance
  split_ifs
  · exact emit _
  · refine (mean xs).bind fun m _ => (mapM fun x _ => ?_).bind fun squares _ => ?_
    · exact (emit _).bind fun _ _ => emit _
    · exact (emit _).bind fun _ _ => (emit _).bind fun _ _ => emit _

theorem aggregate (g : Aggregate) (xs : List Nat) :
    Compiles E R (aggregate g xs : Drafting α Nat) fun _ => True := by
  cases g with
  | sum | length => exact emit _
  | mean => exact mean xs
  | variance => exact variance xs
  | deviation => exact (variance xs).bind fun _ _ => emit _

end

end Compiles

end Drafting

end SymbolicFit
