import Mathlib
import SymbolicFit.DesignMatrix
import SymbolicFit.Evaluation
import SymbolicFit.Proofs.DraftLogic
import SymbolicFit.Proofs.ExactArithmetic
import SymbolicFit.Proofs.ShapedRelation
import SymbolicFit.Proofs.TapeValues

/-!
The values of a draft. An entry keeps its value while the draft grows, so each action can be told by
the value of the entry it returns.
-/

namespace SymbolicFit

variable {α β γ : Type}

/-- A later draft. -/
def Draft.Extends (d d' : Draft α) : Prop := ∃ ps, d.Grows ps d'

theorem Draft.Extends.refl (d : Draft α) : d.Extends d := ⟨[], .refl d⟩

theorem Draft.Extends.trans {d d' d'' : Draft α} (h : d.Extends d') (h' : d'.Extends d'') :
    d.Extends d'' := by
  obtain ⟨ps, h⟩ := h
  obtain ⟨qs, h'⟩ := h'
  exact ⟨ps ++ qs, h.trans h'⟩

namespace Drafting

/-- Whenever `x` succeeds it extends the draft, and `Q` holds of the result. -/
def Yields (d : Draft α) (x : Drafting α β) (Q : β → Draft α → Prop) : Prop :=
  ∀ b d', x d = .ok (b, d') → d.Extends d' ∧ Q b d'

namespace Yields

variable {d : Draft α}

theorem pure {b : β} {Q : β → Draft α → Prop} (h : Q b d) : Yields d (Pure.pure b) Q := by
  intro c d' hc
  obtain ⟨rfl, rfl⟩ := pure_ok.1 hc
  exact ⟨.refl _, h⟩

theorem bind {x : Drafting α β} {f : β → Drafting α γ} {R : β → Draft α → Prop}
    {Q : γ → Draft α → Prop} (hx : Yields d x R)
    (hf : ∀ b d', d.Extends d' → R b d' → Yields d' (f b) Q) : Yields d (x >>= f) Q := by
  intro c d'' h
  obtain ⟨b, d', hb, hc⟩ := bind_ok.1 h
  obtain ⟨hd, hR⟩ := hx b d' hb
  obtain ⟨hd', hQ⟩ := hf b d' hd hR c d'' hc
  exact ⟨hd.trans hd', hQ⟩

theorem map {x : Drafting α β} {f : β → γ} {Q : γ → Draft α → Prop}
    (hx : Yields d x fun b d' => Q (f b) d') : Yields d (f <$> x) Q := by
  intro c d' h
  obtain ⟨b, hb, rfl⟩ := map_ok.1 h
  exact hx b d' hb

theorem imp {x : Drafting α β} {Q R : β → Draft α → Prop} (hx : Yields d x R)
    (h : ∀ b d', R b d' → Q b d') : Yields d x Q :=
  fun b d' hb => (hx b d' hb).imp_right (h b d')

theorem grows {ps : List (Parameter α)} {x y : Drafting α β} {Q : β → Draft α → Prop}
    (hf : Follows ps x y) (hx : Yields d x Q) : Yields d x fun b d' => d.Grows ps d' ∧ Q b d' :=
  fun b d' h => ⟨(hx b d' h).1, (hf d d (.refl d) b d' h).1, (hx b d' h).2⟩

theorem lift {x : Except Failure β} {Q : β → Draft α → Prop} (h : ∀ b, x = .ok b → Q b d) :
    Yields d (StateT.lift x) Q := by
  intro b d' hb
  obtain ⟨hx, rfl⟩ := lift_ok.1 hb
  exact ⟨.refl _, h b hx⟩

theorem unsupported {id : Nat} {s : Symbol α} {Q : β → Draft α → Prop} :
    Yields d (unsupported id s) Q := fun _ _ h => absurd h unsupported_ok

end Yields

end Drafting

/-- The parameters and the row that a draft is evaluated on. -/
structure Point (α : Type) where
  params : List α
  data : Dataset α
  row : Nat

variable [Scalar α]

/-- The list holds the values of the inputs. -/
def Point.Reads (e : Point α) (inputs : List ColumnRead) (xs : List α) : Prop :=
  ∀ (c : Nat) (r : ColumnRead), inputs[c]? = some r → r.value e.data e.row = .ok (xs.getD c 0)

theorem Point.Reads.of_prefix {e : Point α} {rs rs' : List ColumnRead} {xs : List α}
    (h : rs <+: rs') (hx : e.Reads rs' xs) : e.Reads rs xs := by
  intro c r hr
  obtain ⟨hc, -⟩ := List.getElem?_eq_some_iff.1 hr
  obtain ⟨rs'', rfl⟩ := h
  exact hx c r (by rw [List.getElem?_append_left hc, hr])

namespace Draft

def values (d : Draft α) (params xs : List α) : Scratch α :=
  Tape.pass (Tape.entryValue params xs) d.entries.toList

theorem values_push {d d' : Draft α} {t : Tape.Entry α} (h : d'.entries = d.entries.push t)
    (params xs : List α) :
    (d'.values params xs).getD d.entries.size 0 =
      Tape.entryValue params xs (d.values params xs) t := by
  rw [values, h, Array.toList_push, Tape.pass_append_singleton, Scratch.getD_push, if_pos (by simp)]
  rfl

/-- The entry at position `i` has value `v`, whichever list holds the values of the inputs. -/
def Holds (e : Point α) (d : Draft α) (i : Nat) (v : α) : Prop :=
  i < d.entries.size ∧ ∀ xs, e.Reads d.inputs xs → (d.values e.params xs).getD i 0 = v

theorem Holds.extend {e : Point α} {d d' : Draft α} {i : Nat} {v : α} (h : d.Extends d')
    (hi : Holds e d i v) : Holds e d' i v := by
  obtain ⟨ps, ⟨es, he⟩, -, hr⟩ := h
  have hl : i < d.entries.toList.length := by simpa using hi.1
  refine ⟨?_, fun xs hx => ?_⟩
  · rw [← Array.length_toList, ← he, List.length_append]
    omega
  · rw [values, ← he, Tape.getD_pass_append _ _ _ _ hl]
    exact hi.2 xs (hx.of_prefix hr)

end Draft

namespace Drafting.Yields

open Draft (Holds)

variable {e : Point α} {d : Draft α}

theorem emit {t : Tape.Entry α} {v : α}
    (hv : ∀ xs, e.Reads d.inputs xs →
      Tape.entryValue e.params xs (d.values e.params xs) t = v) :
    Yields d (emit t) fun i d' => Holds e d' i v := by
  intro i d' h
  obtain ⟨rfl, rfl⟩ := emit_ok.1 h
  exact ⟨⟨[], ⟨by simp, by simp, List.prefix_rfl⟩⟩, by simp,
    fun xs hx => (Draft.values_push rfl _ _).trans (hv xs hx)⟩

theorem literal (v : α) : Yields d (Drafting.emit (.literal v)) fun i d' => Holds e d' i v :=
  emit fun _ _ => rfl

theorem unary {i : Nat} {v : α} (op : UnaryOp) (hi : Holds e d i v) :
    Yields d (Drafting.unary op i) fun j d' => Holds e d' j (op.apply v) :=
  emit fun xs hx => by rw [Tape.entryValue, hi.2 xs hx]

theorem binary {i j : Nat} {v w : α} (op : BinaryOp) (hi : Holds e d i v) (hj : Holds e d j w) :
    Yields d (Drafting.binary op i j) fun k d' => Holds e d' k (op.apply v w) :=
  emit fun xs hx => by rw [Tape.entryValue, hi.2 xs hx, hj.2 xs hx]

theorem sum {is : List Nat} {vs : List α} (h : List.Forall₂ (Holds e d) is vs) :
    Yields d (Drafting.emit (.sum is)) fun j d' => Holds e d' j (Scalar.sum vs) := by
  refine emit fun xs hx => ?_
  rw [Tape.entryValue]
  congr 1
  induction h with
  | nil => rfl
  | cons hi _ ih => rw [List.map_cons, hi.2 xs hx, ih]

theorem parameter (node : Nat) (role : ParameterRole) (v : α) :
    Yields d (Drafting.parameter node role v) fun i d' =>
      Holds e d' i (e.params.getD d.parameters.length 0) := by
  intro i d' h
  obtain ⟨rfl, rfl⟩ := parameter_ok.1 h
  exact ⟨⟨[⟨node, role, v⟩], ⟨by simp, rfl, List.prefix_rfl⟩⟩, by simp,
    fun xs _ => Draft.values_push (t := .param d.parameters.length) rfl e.params xs⟩

theorem input {r : ColumnRead} {v : α} (hv : ∀ z, r.value e.data e.row = .ok z → z = v) :
    Yields d (Drafting.input r) fun i d' => Holds e d' i v := by
  intro i d' h
  have hread : ∀ {d' : Draft α} {c : Nat}, d'.entries = d.entries.push (.input c) →
      d'.inputs[c]? = some r → Holds e d' d.entries.size v := by
    intro d' c hd hc
    refine ⟨by simp [hd], fun xs hx => (Draft.values_push hd _ _).trans ?_⟩
    exact hv _ (hx c r hc)
  obtain ⟨rfl, ⟨c, hc, rfl⟩ | ⟨hn, rfl⟩⟩ := input_ok.1 h
  · obtain ⟨hlt, hr, -⟩ := List.idxOf?_eq_some_iff.1 hc
    exact ⟨⟨[], ⟨by simp, by simp, List.prefix_rfl⟩⟩,
      hread rfl (List.getElem?_eq_some_iff.2 ⟨hlt, hr⟩)⟩
  · exact ⟨⟨[], ⟨by simp, by simp, List.prefix_append _ _⟩⟩, hread rfl (by simp)⟩

theorem mapM {f : β → Drafting α Nat} {bs : List β} {vs : List α}
    (h : List.Forall₂ (fun b v => ∀ d', d.Extends d' →
      Yields d' (f b) fun i d'' => Holds e d'' i v) bs vs) :
    Yields d (bs.mapM f) fun is d' => List.Forall₂ (Holds e d') is vs := by
  -- the draft grows from item to item
  suffices hs : ∀ d', d.Extends d' →
      Yields d' (bs.mapM f) fun is d'' => List.Forall₂ (Holds e d'') is vs from hs d (.refl d)
  induction h with
  | nil => exact fun d' _ => pure .nil
  | cons hb _ ih =>
    intro d₁ h₁
    rw [List.mapM_cons]
    refine (hb d₁ h₁).bind fun i d₂ h₂ hi => ?_
    refine (ih d₂ (h₁.trans h₂)).bind fun is d₃ h₃ his => ?_
    exact pure (.cons (hi.extend h₃) his)

theorem shapedMapM {f : β → Drafting α Nat} {a : Shaped β} {v : Shaped α}
    (h : a.Related (fun b v => ∀ d', d.Extends d' →
      Yields d' (f b) fun i d'' => Holds e d'' i v) v) :
    Yields d (a.mapM f) fun out d' => out.Related (Holds e d') v := by
  cases a with
  | scalar b =>
    cases v with
    | scalar w => exact map (h d (.refl d))
    | vector ws => exact h.elim
  | vector bs =>
    cases v with
    | scalar w => exact h.elim
    | vector ws => exact map (mapM h)

theorem unaryOn {a : Shaped Nat} {v : Shaped α} (op : UnaryOp) (h : a.Related (Holds e d) v) :
    Yields d (a.mapM (Drafting.unary op)) fun out d' =>
      out.Related (Holds e d') (v.map op.apply) := by
  refine shapedMapM (h.map_right ?_)
  intro i w hi d' hd
  exact unary op (hi.extend hd)

theorem combine {a b : Shaped Nat} {v w : Shaped α} (id : Nat) (op : BinaryOp)
    (ha : a.Related (Holds e d) v) (hb : b.Related (Holds e d) w) :
    Yields d (Drafting.combine id op a b) fun out d' =>
      ∃ u, Shaped.zipWith id op.apply v w = .ok u ∧ out.Related (Holds e d') u := by
  have hpairs : Yields d (StateT.lift (a.broadcast id b)) fun pairs d' =>
      ∃ q, v.broadcast id w = .ok q ∧
        pairs.Related (fun x y => Holds e d' x.1 y.1 ∧ Holds e d' x.2 y.2) q :=
    lift fun pairs hp => ha.broadcast hb hp
  refine hpairs.bind fun pairs d₁ _ hq => ?_
  obtain ⟨q, hq, hr⟩ := hq
  have hz : Shaped.zipWith id op.apply v w = .ok (q.map fun p => op.apply p.1 p.2) := by
    rw [Shaped.zipWith, hq]
    rfl
  refine (shapedMapM (hr.map_right ?_)).imp fun out d₂ ho => ⟨_, hz, ho⟩
  intro x y hxy d' hd
  exact binary op (hxy.1.extend hd) (hxy.2.extend hd)

theorem foldlM {id : Nat} (op : BinaryOp) {args : List (Shaped Nat)} {vs : List (Shaped α)}
    {a : Shaped Nat} {v : Shaped α}
    (h : List.Forall₂ (fun b w => b.Related (Holds e d) w) args vs) (ha : a.Related (Holds e d) v) :
    Yields d (args.foldlM (Drafting.combine id op) a) fun out d' =>
      ∃ u, vs.foldlM (Shaped.zipWith id op.apply) v = .ok u ∧ out.Related (Holds e d') u := by
  -- the accumulator holds in a later draft than the arguments do
  suffices hs : ∀ d', d.Extends d' → ∀ a v, a.Related (Holds e d') v →
      Yields d' (args.foldlM (Drafting.combine id op) a) fun out d'' =>
        ∃ u, vs.foldlM (Shaped.zipWith id op.apply) v = .ok u ∧ out.Related (Holds e d'') u from
    hs d (.refl d) a v ha
  clear ha
  induction h with
  | nil => exact fun d' _ a v ha => pure ⟨v, rfl, ha⟩
  | cons hb _ ih =>
    intro d₁ h₁ a v ha
    rw [List.foldlM_cons]
    refine (combine id op ha (hb.imp fun _ _ hi => hi.extend h₁)).bind fun x d₂ h₂ hx => ?_
    obtain ⟨u, hu, hx⟩ := hx
    refine (ih d₂ (h₁.trans h₂) x u hx).imp fun out d₃ ho => ?_
    obtain ⟨w, hw, ho⟩ := ho
    refine ⟨w, ?_, ho⟩
    rw [List.foldlM_cons, hu]
    exact hw

section Aggregates

variable {α : Type} [ExactArithmetic α] {e : Point α} {d : Draft α} {is : List Nat} {vs : List α}

theorem mean (h : List.Forall₂ (Holds e d) is vs) :
    Yields d (Drafting.mean is) fun j d' => Holds e d' j (Scalar.sum vs / (vs.length : α)) := by
  rw [← ExactArithmetic.mul_one_div, ← h.length_eq]
  exact (sum h).bind fun total d₁ _ ht =>
    (literal _).bind fun scale d₂ h₂ hs => binary .mul (ht.extend h₂) hs

theorem variance (h : List.Forall₂ (Holds e d) is vs) :
    Yields d (Drafting.variance is) fun j d' => Holds e d' j (sampleVariance vs) := by
  unfold Drafting.variance sampleVariance
  rw [h.length_eq]
  split
  · exact literal _
  · dsimp only
    set m := Scalar.sum vs / (vs.length : α)
    set squares := vs.map fun x => (x - m) * (x - m)
    refine (mean h).bind fun i d₁ h₁ hi => ?_
    have hs : Yields d₁ (is.mapM fun x => do
        let j ← Drafting.binary .sub x i
        Drafting.unary (.elementary .square) j) fun js d' =>
          List.Forall₂ (Holds e d') js squares := by
      refine mapM (List.forall₂_map_right_iff.2 (h.imp fun x v hx d' hd => ?_))
      exact (binary .sub (hx.extend (h₁.trans hd)) (hi.extend hd)).bind fun j d'' _ hj =>
        unary (.elementary .square) hj
    rw [← ExactArithmetic.mul_one_div (Scalar.sum squares)]
    exact hs.bind fun js d₂ _ hjs => (sum hjs).bind fun total d₃ _ ht =>
      (literal _).bind fun scale d₄ h₄ hs => binary .mul (ht.extend h₄) hs

theorem aggregate (g : Aggregate) (h : List.Forall₂ (Holds e d) is vs) :
    Yields d (Drafting.aggregate g is) fun j d' => Holds e d' j (g.apply vs) := by
  cases g with
  | sum => exact sum h
  | mean => exact mean h
  | variance => exact variance h
  | deviation => exact (variance h).bind fun _ _ _ hv => unary (.elementary .sqrt) hv
  | length =>
    rw [Drafting.aggregate, h.length_eq]
    exact literal _

end Aggregates

end Drafting.Yields

end SymbolicFit
