import Mathlib
import SymbolicFit.Proofs.DraftLogic
import SymbolicFit.Proofs.FrozenParameters
import SymbolicFit.Proofs.RescaledTapes
import SymbolicFit.Proofs.ShapedRelation

/-!
Drafts and their mirror images, which stand behind some entries written before and have some
parameters frozen. A tree that is compiled with fewer numbers to tune is compiled to the mirror
image.
-/

namespace SymbolicFit

variable {α β γ δ ε : Type}

namespace Shaped

theorem length_map (f : β → γ) (a : Shaped β) : (a.map f).length = a.length := by
  cases a with
  | scalar x => rfl
  | vector xs => exact List.length_map f

theorem stretch_map (f : β → γ) (n : Nat) (a : Shaped β) :
    (a.map f).stretch n = (a.stretch n).map f := by
  cases a with
  | scalar x => exact List.map_replicate.symm
  | vector xs =>
    rcases xs with _ | ⟨x, _ | ⟨y, xs⟩⟩
    · rfl
    · exact List.map_replicate.symm
    · rfl

theorem broadcast_map (f : β → γ) (g : δ → ε) (id : Nat) (a : Shaped β) (b : Shaped δ) :
    (a.map f).broadcast id (b.map g) = (a.broadcast id b).map (map (Prod.map f g)) := by
  have hvectors : ∀ n, vector (((a.map f).stretch n).zip ((b.map g).stretch n)) =
      (vector ((a.stretch n).zip (b.stretch n))).map (Prod.map f g) := by
    intro n
    rw [stretch_map, stretch_map, List.zip_map]
    rfl
  have hlength := length_map f a
  have hlength' := length_map g b
  cases a <;> cases b
  case scalar.scalar => rfl
  all_goals
    rw [broadcast_of_vector (by simp [map, shape, Shape.isVector]),
      broadcast_of_vector (by simp [shape, Shape.isVector]), hlength, hlength']
    cases commonLength id _ _ with
    | error e => rfl
    | ok n => exact congrArg Except.ok (hvectors n)

end Shaped

namespace Tape.Entry

theorem freeze_append (keeps : Parameter α → Bool) {ps : List (Parameter α)} {e : Entry α}
    (h : ∀ i, e = .param i → i < ps.length) (qs : List (Parameter α)) :
    e.freeze keeps (ps ++ qs) = e.freeze keeps ps := by
  cases e with
  | param i =>
    have hi := h i rfl
    rw [freeze, freeze, List.getElem?_append_left hi, Parameter.rank_append hi.le]
  | _ => rfl

/-- Where all parameters are kept, nothing is frozen. -/
theorem freeze_all {ps : List (Parameter α)} {e : Entry α} (h : ∀ i, e = .param i → i < ps.length) :
    e.freeze (fun _ => true) ps = e := by
  cases e with
  | param i =>
    have hi := h i rfl
    simp [freeze, List.getElem?_eq_getElem hi, Parameter.rank, hi.le]
  | _ => rfl

end Tape.Entry

namespace Draft

/-- Every parameter that is read has been added. -/
def Bounded (d : Draft α) : Prop := ∀ e ∈ d.entries, ∀ i, e = .param i → i < d.parameters.length

variable (keeps : Parameter α → Bool) (front : Draft α)

/-- The draft behind the entries of `front`, with the parameters that are not kept frozen. -/
def mirror (d : Draft α) : Draft α :=
  ⟨front.entries ++ d.entries.map fun e =>
      (e.freeze keeps d.parameters).shift front.entries.size front.parameters.length,
    front.parameters ++ d.parameters.filter keeps, d.inputs⟩

theorem size_mirror (d : Draft α) :
    (mirror keeps front d).entries.size = d.entries.size + front.entries.size := by
  rw [mirror, Array.size_append, Array.size_map, Nat.add_comm]

theorem length_mirror (d : Draft α) : (mirror keeps front d).parameters.length =
    d.parameters.countP keeps + front.parameters.length := by
  rw [mirror, List.length_append, ← List.countP_eq_length_filter, Nat.add_comm]

/-- An empty draft is mirrored by what stands in front. -/
theorem mirror_empty (h : front.inputs = []) : mirror keeps front .empty = front := by
  obtain ⟨entries, parameters, inputs⟩ := front
  obtain rfl : inputs = [] := h
  simp [mirror, empty]

/-- With nothing in front, a mirror image only has parameters frozen. -/
theorem mirror_behind_empty (d : Draft α) : mirror keeps .empty d =
    ⟨d.entries.map (·.freeze keeps d.parameters), d.parameters.filter keeps, d.inputs⟩ := by
  simp [mirror, empty]

theorem mirror_push {e : Tape.Entry α} (he : ∀ ps, e.freeze keeps ps = e) (d : Draft α) :
    mirror keeps front { d with entries := d.entries.push e } =
      { mirror keeps front d with
        entries := (mirror keeps front d).entries.push
          (e.shift front.entries.size front.parameters.length) } := by
  simp [mirror, he]

variable {keeps front}

theorem bounded_empty : (empty : Draft α).Bounded := nofun

/-- Where all parameters are kept, a mirror image is only moved. -/
theorem mirror_all {d : Draft α} (h : d.Bounded) : mirror (fun _ => true) front d =
    ⟨front.entries ++ d.entries.map (·.shift front.entries.size front.parameters.length),
      front.parameters ++ d.parameters, d.inputs⟩ := by
  have hentries : (d.entries.map fun e => (e.freeze (fun _ => true) d.parameters).shift
      front.entries.size front.parameters.length) =
        d.entries.map (·.shift front.entries.size front.parameters.length) :=
    Array.map_congr_left fun e he => by rw [Tape.Entry.freeze_all (h e he)]
  rw [mirror, hentries, List.filter_eq_self.2 fun _ _ => rfl]

theorem Bounded.push {d : Draft α} (h : d.Bounded) {e : Tape.Entry α}
    (he : ∀ i, e = .param i → i < d.parameters.length) :
    Bounded { d with entries := d.entries.push e } := by
  intro e' he' i hi
  rcases Array.mem_push.1 he' with he' | rfl
  · exact h e' he' i hi
  · exact he i hi

/-- A new parameter is mirrored by a parameter if it is kept, and by a literal if not. -/
theorem mirror_parameter {d : Draft α} (h : d.Bounded) (q : Parameter α) :
    mirror keeps front
        ⟨d.entries.push (.param d.parameters.length), d.parameters ++ [q], d.inputs⟩ =
      if keeps q then
        ⟨(mirror keeps front d).entries.push (.param (mirror keeps front d).parameters.length),
          (mirror keeps front d).parameters ++ [q], d.inputs⟩
      else { mirror keeps front d with
        entries := (mirror keeps front d).entries.push (.literal q.initial) } := by
  -- older entries read older parameters, which keep their numbers
  have hold : (d.entries.map fun e => (e.freeze keeps (d.parameters ++ [q])).shift
      front.entries.size front.parameters.length) = d.entries.map fun e =>
        (e.freeze keeps d.parameters).shift front.entries.size front.parameters.length :=
    Array.map_congr_left fun e he => by rw [Tape.Entry.freeze_append keeps (h e he)]
  have hnew : (Tape.Entry.param d.parameters.length).freeze keeps (d.parameters ++ [q]) =
      if keeps q then .param (d.parameters.countP keeps) else .literal q.initial := by
    simp [Tape.Entry.freeze, Parameter.rank]
  rw [mirror, Array.map_push, hold, hnew, length_mirror]
  by_cases hq : keeps q = true
  · simp [mirror, hq, Tape.Entry.shift]
  · simp [mirror, hq, Tape.Entry.shift]

end Draft

namespace Drafting

variable {keeps : Parameter α → Bool} {front : Draft α}

variable (keeps front) in
/-- On the mirror image of a draft, `y` does what `x` does on the draft, and returns `g` of what `x`
returns. -/
def Mirrored (x : Drafting α β) (y : Drafting α γ) (g : β → γ) : Prop :=
  ∀ d, d.Bounded →
    y (Draft.mirror keeps front d) = (x d).map (Prod.map g (Draft.mirror keeps front)) ∧
      ∀ b d', x d = .ok (b, d') → d'.Bounded

namespace Mirrored

theorem pure {g : β → γ} (b : β) :
    Mirrored keeps front (Pure.pure b) (Pure.pure (g b)) g := by
  refine fun d hd => ⟨rfl, fun c d' h => ?_⟩
  obtain ⟨-, rfl⟩ := pure_ok.1 h
  exact hd

theorem bind {x : Drafting α β} {y : Drafting α γ} {g : β → γ} {f : β → Drafting α δ}
    {f' : γ → Drafting α ε} {g' : δ → ε} (hx : Mirrored keeps front x y g)
    (hf : ∀ b, Mirrored keeps front (f b) (f' (g b)) g') :
    Mirrored keeps front (x >>= f) (y >>= f') g' := by
  intro d hd
  obtain ⟨hy, hd'⟩ := hx d hd
  rw [bind_apply, bind_apply, hy]
  cases h : x d with
  | error e => exact ⟨rfl, nofun⟩
  | ok p => exact hf p.1 p.2 (hd' p.1 p.2 h)

theorem map {x : Drafting α β} {y : Drafting α γ} {g : β → γ} {f : β → δ} {f' : γ → ε} {g' : δ → ε}
    (hx : Mirrored keeps front x y g) (h : ∀ b, g' (f b) = f' (g b)) :
    Mirrored keeps front (f <$> x) (f' <$> y) g' := by
  rw [← bind_pure_comp, ← bind_pure_comp]
  exact hx.bind fun b => h b ▸ pure (f b)

theorem throw (e : Failure) (g : β → γ) :
    Mirrored keeps front (throw e : Drafting α β) (throw e) g :=
  fun _ _ => ⟨rfl, nofun⟩

theorem lift (x : Except Failure β) (g : β → γ) :
    Mirrored keeps front (StateT.lift x) (StateT.lift (x.map g)) g := by
  cases x with
  | error e => exact throw e g
  | ok b => exact pure b

theorem emit {e : Tape.Entry α} (he : ∀ ps, e.freeze keeps ps = e) (hi : ∀ i, e ≠ .param i) :
    Mirrored keeps front (emit e)
      (Drafting.emit (e.shift front.entries.size front.parameters.length))
      (· + front.entries.size) := by
  intro d hd
  constructor
  · change Except.ok _ = Except.ok (_, Draft.mirror keeps front { d with entries := _ })
    rw [Draft.size_mirror, Draft.mirror_push keeps front he]
  · intro i d' h
    obtain ⟨-, rfl⟩ := emit_ok.1 h
    exact hd.push fun i hp => absurd hp (hi i)

theorem literal (v : α) : Mirrored keeps front (Drafting.emit (.literal v))
    (Drafting.emit (.literal v)) (· + front.entries.size) :=
  emit (fun _ => rfl) nofun

theorem unary (op : UnaryOp) (a : Nat) : Mirrored keeps front (unary op a)
    (Drafting.unary op (a + front.entries.size)) (· + front.entries.size) :=
  emit (fun _ => rfl) nofun

theorem binary (op : BinaryOp) (a b : Nat) : Mirrored keeps front (binary op a b)
    (Drafting.binary op (a + front.entries.size) (b + front.entries.size))
    (· + front.entries.size) :=
  emit (fun _ => rfl) nofun

theorem sum (as : List Nat) : Mirrored keeps front (Drafting.emit (.sum as))
    (Drafting.emit (.sum (as.map (· + front.entries.size)))) (· + front.entries.size) :=
  emit (fun _ => rfl) nofun

theorem parameter (node : Nat) (role : ParameterRole) (v : α) :
    Mirrored keeps front (parameter node role v)
      (if keeps ⟨node, role, v⟩ then Drafting.parameter node role v else Drafting.emit (.literal v))
      (· + front.entries.size) := by
  intro d hd
  have hmirror : Draft.mirror keeps front ⟨_, _, d.inputs⟩ = _ :=
    Draft.mirror_parameter hd ⟨node, role, v⟩
  constructor
  · change _ = Except.ok (d.entries.size + front.entries.size, Draft.mirror keeps front _)
    rw [hmirror, ← Draft.size_mirror keeps front d]
    split_ifs <;> rfl
  · intro i d' h
    obtain ⟨-, rfl⟩ := parameter_ok.1 h
    intro e he i hi
    rw [List.length_append, List.length_singleton]
    rcases Array.mem_push.1 he with he | rfl
    · exact (hd e he i hi).trans (Nat.lt_succ_self _)
    · cases hi
      exact Nat.lt_succ_self _

theorem parameter_of_keeps {node : Nat} {role : ParameterRole} {v : α}
    (h : keeps ⟨node, role, v⟩ = true) :
    Mirrored keeps front (Drafting.parameter node role v) (Drafting.parameter node role v)
      (· + front.entries.size) := by
  have hmirrored : Mirrored keeps front _ _ _ := parameter node role v
  rwa [if_pos h] at hmirrored

theorem input (r : ColumnRead) : Mirrored keeps front (input r : Drafting α Nat) (Drafting.input r)
    (· + front.entries.size) := by
  intro d hd
  -- both drafts have the same inputs
  have hinputs : (Draft.mirror keeps front d).inputs = d.inputs := rfl
  have hfound : ∀ c, Mirrored keeps front (Drafting.emit (.input c)) (Drafting.emit (.input c))
      (· + front.entries.size) := fun c => emit (fun _ => rfl) nofun
  rw [input_apply, input_apply, hinputs]
  cases d.inputs.idxOf? r with
  | some c => exact hfound c d hd
  | none => exact hfound d.inputs.length { d with inputs := d.inputs ++ [r] } hd

theorem mapM {f : β → Drafting α γ} {f' : ε → Drafting α δ} {g : γ → δ} {bs : List β} {es : List ε}
    (h : List.Forall₂ (fun b e => Mirrored keeps front (f b) (f' e) g) bs es) :
    Mirrored keeps front (bs.mapM f) (es.mapM f') (List.map g) := by
  induction h with
  | nil => exact pure (g := List.map g) []
  | cons hb _ ih =>
    rw [List.mapM_cons, List.mapM_cons]
    exact hb.bind fun c => ih.map fun cs => rfl

theorem listMapM {f : β → Drafting α γ} {f' : ε → Drafting α δ} {g : γ → δ} {k : β → ε}
    (h : ∀ b, Mirrored keeps front (f b) (f' (k b)) g) (bs : List β) :
    Mirrored keeps front (bs.mapM f) ((bs.map k).mapM f') (List.map g) :=
  mapM (List.forall₂_map_right_iff.2 (List.forall₂_same.2 fun b _ => h b))

theorem shapedMapM {f : β → Drafting α γ} {f' : ε → Drafting α δ} {g : γ → δ} {k : β → ε}
    (h : ∀ b, Mirrored keeps front (f b) (f' (k b)) g) (a : Shaped β) :
    Mirrored keeps front (a.mapM f) ((a.map k).mapM f') (Shaped.map g) := by
  cases a with
  | scalar b => exact (h b).map fun c => rfl
  | vector bs => exact (listMapM h bs).map fun cs => rfl

theorem unaryOn (op : UnaryOp) (a : Shaped Nat) :
    Mirrored keeps front (a.mapM (Drafting.unary op))
      ((a.map (· + front.entries.size)).mapM (Drafting.unary op))
      (Shaped.map (· + front.entries.size)) :=
  shapedMapM (unary op) a

theorem combine (id : Nat) (op : BinaryOp) (a b : Shaped Nat) :
    Mirrored keeps front (combine id op a b)
      (Drafting.combine id op (a.map (· + front.entries.size)) (b.map (· + front.entries.size)))
      (Shaped.map (· + front.entries.size)) := by
  unfold Drafting.combine
  rw [Shaped.broadcast_map]
  refine (lift _ _).bind fun pairs => shapedMapM (fun p => ?_) pairs
  exact binary op p.1 p.2

theorem combineAll (id : Nat) (op : BinaryOp) (a : Shaped Nat) (as : List (Shaped Nat)) :
    Mirrored keeps front (as.foldlM (Drafting.combine id op) a)
      ((as.map (Shaped.map (· + front.entries.size))).foldlM (Drafting.combine id op)
        (a.map (· + front.entries.size)))
      (Shaped.map (· + front.entries.size)) := by
  induction as generalizing a with
  | nil => exact pure a
  | cons b as ih => exact (combine id op a b).bind fun c => ih c

theorem weighted (r : ColumnRead) (w : Nat) :
    Mirrored keeps front (weighted r w) (Drafting.weighted r (w + front.entries.size))
      (· + front.entries.size) :=
  (input r).bind fun x => binary .mul x w

theorem weight {o o' : FitOptions} {id : Nat} {role : ParameterRole} {v : α}
    (h : o'.tunesWeights id = (o.tunesWeights id && keeps ⟨id, role, v⟩)) :
    Mirrored keeps front (weight o id role v) (Drafting.weight o' id role v)
      (· + front.entries.size) := by
  unfold Drafting.weight
  rw [h]
  cases o.tunesWeights id
  · exact literal v
  · exact parameter id role v

section

variable [Scalar α]

theorem mean (xs : List Nat) :
    Mirrored keeps front (mean xs) (Drafting.mean (xs.map (· + front.entries.size)))
      (· + front.entries.size) := by
  unfold Drafting.mean
  rw [List.length_map]
  exact (sum xs).bind fun total => (literal _).bind fun scale => binary .mul total scale

theorem variance (xs : List Nat) :
    Mirrored keeps front (variance xs) (Drafting.variance (xs.map (· + front.entries.size)))
      (· + front.entries.size) := by
  unfold Drafting.variance
  rw [List.length_map]
  split_ifs
  · exact literal _
  · refine (mean xs).bind fun m =>
      (listMapM (g := (· + front.entries.size)) (fun x => ?_) xs).bind fun squares => ?_
    · exact (binary .sub x m).bind fun d => unary _ d
    · exact (sum squares).bind fun total => (literal _).bind fun scale => binary .mul total scale

theorem aggregate (g : Aggregate) (xs : List Nat) :
    Mirrored keeps front (aggregate g xs)
      (Drafting.aggregate g (xs.map (· + front.entries.size))) (· + front.entries.size) := by
  cases g with
  | sum => exact sum xs
  | mean => exact mean xs
  | variance => exact variance xs
  | deviation => exact (variance xs).bind fun v => unary _ v
  | length =>
    simp only [Drafting.aggregate, List.length_map]
    exact literal _

end

end Mirrored

end Drafting

end SymbolicFit
