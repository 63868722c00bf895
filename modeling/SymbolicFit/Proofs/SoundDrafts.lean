import Mathlib
import SymbolicFit.Proofs.CompiledSlots
import SymbolicFit.Proofs.DraftValues
import SymbolicFit.Proofs.RowReads

/-!
Every draft is sound, whatever the tree and the trace: its entries read earlier ones, each parameter
has one entry and each input at least one, and exponents are small. Each action keeps that and
returns places inside the draft.
-/

namespace SymbolicFit

variable {α β γ : Type}

/-- The exponent leaves room to subtract one, and a root has an order. -/
def UnaryOp.Bounded : UnaryOp → Prop
  | power n => n.toInt.natAbs ≤ 2147483647
  | root n => n ≠ 0 ∧ n.toInt.natAbs ≤ 2147483647
  | _ => True

theorem getElem?_push_iff {xs : Array β} {x y : β} {i : Nat} :
    (xs.push x)[i]? = some y ↔ xs[i]? = some y ∨ i = xs.size ∧ y = x := by
  rw [Array.getElem?_push]
  split_ifs with h
  · simp [h, eq_comm]
  · simp [h]

/-- Entries that read earlier ones, with small exponents. -/
structure Tape.Ordered (es : Array (Entry α)) : Prop where
  operands : ∀ (i : Nat) (e : Entry α), es[i]? = some e → ∀ a ∈ e.operands, a < i
  bounded : ∀ (i : Nat) (op : UnaryOp) (a : Nat), es[i]? = some (.unary op a) → op.Bounded

theorem Tape.Ordered.push {es : Array (Entry α)} (h : Ordered es) {e : Entry α}
    (ho : ∀ a ∈ e.operands, a < es.size) (hb : ∀ op a, e = .unary op a → op.Bounded) :
    Ordered (es.push e) where
  operands i e' hi a ha := by
    rcases getElem?_push_iff.1 hi with hi | ⟨rfl, rfl⟩
    · exact h.operands i e' hi a ha
    · exact ho a ha
  bounded i op a hi := by
    rcases getElem?_push_iff.1 hi with hi | ⟨-, he⟩
    · exact h.bounded i op a hi
    · exact hb op a he.symm

namespace Draft

/-- In order, with one entry for each parameter, and entries for all inputs, which are distinct. -/
structure Sound (d : Draft α) : Prop extends Tape.Ordered d.entries where
  params : ∀ i : Nat, (∃ k : Nat, d.entries[k]? = some (.param i)) ↔ i < d.parameters.length
  unique : ∀ i k k' : Nat, d.entries[k]? = some (.param i) → d.entries[k']? = some (.param i) →
    k = k'
  distinct : d.inputs.Nodup
  inputs : ∀ c : Nat, (∃ k : Nat, d.entries[k]? = some (.input c)) ↔ c < d.inputs.length

theorem sound_empty : Sound (empty : Draft α) := by
  constructor <;> first | constructor <;> simp [empty] | simp [empty]

/-- The place is one of the draft. -/
def Has (d : Draft α) (i : Nat) : Prop := i < d.entries.size

theorem Has.extend {d d' : Draft α} {i : Nat} (h : d.Extends d') (hi : d.Has i) : d'.Has i := by
  obtain ⟨ps, h⟩ := h
  have := h.entries.length_le
  simp only [Array.length_toList] at this
  exact Nat.lt_of_lt_of_le hi this

/-- An entry that a draft can take as it is. -/
structure Fits (d : Draft α) (e : Tape.Entry α) : Prop where
  operands : ∀ a ∈ e.operands, d.Has a
  bounded : ∀ op a, e = .unary op a → op.Bounded
  param : ∀ i, e ≠ .param i
  input : ∀ c, e = .input c → c < d.inputs.length

namespace Sound

variable {d : Draft α}

theorem push (h : d.Sound) {e : Tape.Entry α} (he : d.Fits e) :
    Sound { d with entries := d.entries.push e } where
  toOrdered := h.toOrdered.push he.operands he.bounded
  params i := by
    rw [← h.params i]
    simp only [getElem?_push_iff, exists_or]
    exact or_iff_left fun ⟨k, _, hk⟩ => he.param i hk.symm
  unique i k k' hk hk' := by
    have hold : ∀ k : Nat, (d.entries.push e)[k]? = some (.param i) →
        d.entries[k]? = some (.param i) :=
      fun k hk => (getElem?_push_iff.1 hk).resolve_right fun hn => he.param i hn.2.symm
    exact h.unique i k k' (hold k hk) (hold k' hk')
  distinct := h.distinct
  inputs c := by
    rw [← h.inputs c]
    simp only [getElem?_push_iff, exists_or]
    refine or_iff_left_of_imp ?_
    rintro ⟨k, -, hk⟩
    exact (h.inputs c).2 (he.input c hk.symm)

theorem push_param (h : d.Sound) (p : Parameter α) :
    Sound ⟨d.entries.push (.param d.parameters.length), d.parameters ++ [p], d.inputs⟩ where
  toOrdered := h.toOrdered.push nofun nofun
  params i := by
    have hi := h.params i
    simp only [getElem?_push_iff, exists_or, List.length_append, List.length_singleton, hi,
      Tape.Entry.param.injEq, exists_eq_left]
    omega
  unique i k k' hk hk' := by
    -- the earlier entries are of smaller parameters
    have hold : ∀ k : Nat, d.entries[k]? = some (.param i) → i ≠ d.parameters.length :=
      fun k hk => Nat.ne_of_lt ((h.params i).1 ⟨k, hk⟩)
    rcases getElem?_push_iff.1 hk with hk | ⟨rfl, he⟩
    · rcases getElem?_push_iff.1 hk' with hk' | ⟨-, he⟩
      · exact h.unique i k k' hk hk'
      · exact absurd (Tape.Entry.param.inj he) (hold k hk)
    · rcases getElem?_push_iff.1 hk' with hk' | ⟨rfl, -⟩
      · exact absurd (Tape.Entry.param.inj he) (hold k' hk')
      · rfl
  distinct := h.distinct
  inputs c := by
    rw [← h.inputs c]
    simp [getElem?_push_iff]

theorem push_input (h : d.Sound) {r : ColumnRead} (hr : r ∉ d.inputs) :
    Sound ⟨d.entries.push (.input d.inputs.length), d.parameters, d.inputs ++ [r]⟩ where
  toOrdered := h.toOrdered.push nofun nofun
  params i := by
    rw [← h.params i]
    simp [getElem?_push_iff]
  unique i k k' hk hk' := by
    have hold : ∀ k : Nat, (d.entries.push (.input d.inputs.length))[k]? = some (.param i) →
        d.entries[k]? = some (.param i) :=
      fun k hk => (getElem?_push_iff.1 hk).resolve_right fun hn => nomatch hn.2
    exact h.unique i k k' (hold k hk) (hold k' hk')
  distinct := List.nodup_append.2 ⟨h.distinct, List.nodup_singleton r, fun a ha b hb =>
    ne_of_mem_of_not_mem ha (List.mem_singleton.1 hb ▸ hr)⟩
  inputs c := by
    have hc := h.inputs c
    simp only [getElem?_push_iff, exists_or, List.length_append, List.length_singleton, hc,
      Tape.Entry.input.injEq, exists_eq_left]
    omega

end Sound

def HasAll (d : Draft α) (is : List Nat) : Prop := ∀ i ∈ is, d.Has i

theorem HasAll.extend {d d' : Draft α} {is : List Nat} (h : d.Extends d') (his : d.HasAll is) :
    d'.HasAll is := fun i hi => (his i hi).extend h

end Draft

namespace Shaped

theorem mem_stretch {a : Shaped β} {n : Nat} {x : β} (h : x ∈ a.stretch n) : x ∈ a.toList := by
  unfold stretch at h
  split at h
  · simpa [toList] using (List.mem_replicate.1 h).2
  · simpa [toList] using (List.mem_replicate.1 h).2
  · exact h

theorem mem_broadcast {id : Nat} {a : Shaped β} {b : Shaped γ} {ps : Shaped (β × γ)}
    (h : a.broadcast id b = .ok ps) {p : β × γ} (hp : p ∈ ps.toList) :
    p.1 ∈ a.toList ∧ p.2 ∈ b.toList := by
  unfold broadcast at h
  split at h
  · cases h
    obtain rfl := List.mem_singleton.1 hp
    exact ⟨List.mem_singleton_self _, List.mem_singleton_self _⟩
  · obtain ⟨n, -, h⟩ := bind_eq_ok.1 h
    cases h
    obtain ⟨h₁, h₂⟩ := List.of_mem_zip hp
    exact ⟨mem_stretch h₁, mem_stretch h₂⟩

end Shaped

namespace Drafting

/-- If the action succeeds on a sound draft it leaves a sound one, and `Q` holds of the result. -/
def Builds (d : Draft α) (x : Drafting α β) (Q : β → Draft α → Prop) : Prop :=
  d.Sound → Yields d x fun b d' => d'.Sound ∧ Q b d'

namespace Builds

open Draft (Has HasAll)

variable {d : Draft α}

theorem pure {b : β} {Q : β → Draft α → Prop} (h : Q b d) : Builds d (Pure.pure b) Q :=
  fun hd => .pure ⟨hd, h⟩

theorem bind {x : Drafting α β} {f : β → Drafting α γ} {R : β → Draft α → Prop}
    {Q : γ → Draft α → Prop} (hx : Builds d x R)
    (hf : ∀ b d', d.Extends d' → R b d' → Builds d' (f b) Q) : Builds d (x >>= f) Q :=
  fun hd => (hx hd).bind fun b d' h hb => hf b d' h hb.2 hb.1

theorem map {x : Drafting α β} {f : β → γ} {Q : γ → Draft α → Prop}
    (hx : Builds d x fun b d' => Q (f b) d') : Builds d (f <$> x) Q := fun hd => .map (hx hd)

theorem imp {x : Drafting α β} {Q R : β → Draft α → Prop} (hx : Builds d x Q)
    (h : ∀ b d', Q b d' → R b d') : Builds d x R :=
  fun hd => (hx hd).imp fun b d' hb => ⟨hb.1, h b d' hb.2⟩

theorem lift {x : Except Failure β} {Q : β → Draft α → Prop} (h : ∀ b, x = .ok b → Q b d) :
    Builds d (StateT.lift x) Q := fun hd => .lift fun b hb => ⟨hd, h b hb⟩

theorem unsupported {id : Nat} {s : Symbol α} {Q : β → Draft α → Prop} :
    Builds d (unsupported id s) Q := fun _ => .unsupported

theorem emit {e : Tape.Entry α} (he : d.Fits e) :
    Builds d (emit e) fun i d' => d'.Has i := by
  intro hd i d' h
  obtain ⟨rfl, rfl⟩ := emit_ok.1 h
  exact ⟨⟨[], ⟨by simp, by simp, List.prefix_rfl⟩⟩, hd.push he, by simp [Has]⟩

theorem literal (v : α) : Builds d (Drafting.emit (.literal v)) fun i d' => d'.Has i :=
  emit ⟨nofun, nofun, nofun, nofun⟩

theorem sum {is : List Nat} (h : d.HasAll is) :
    Builds d (Drafting.emit (.sum is)) fun i d' => d'.Has i := emit ⟨h, nofun, nofun, nofun⟩

theorem unary {op : UnaryOp} {i : Nat} (hop : op.Bounded) (hi : d.Has i) :
    Builds d (Drafting.unary op i) fun j d' => d'.Has j :=
  emit ⟨fun a ha => List.mem_singleton.1 ha ▸ hi, fun _ _ h => by cases h; exact hop, nofun, nofun⟩

theorem binary (op : BinaryOp) {i j : Nat} (hi : d.Has i) (hj : d.Has j) :
    Builds d (Drafting.binary op i j) fun k d' => d'.Has k := by
  refine emit ⟨fun a ha => ?_, nofun, nofun, nofun⟩
  rcases List.mem_pair.1 ha with rfl | rfl
  · exact hi
  · exact hj

theorem parameter (node : Nat) (role : ParameterRole) (v : α) :
    Builds d (Drafting.parameter node role v) fun i d' => d'.Has i := by
  intro hd i d' h
  obtain ⟨rfl, rfl⟩ := parameter_ok.1 h
  exact ⟨⟨[⟨node, role, v⟩], ⟨by simp, rfl, List.prefix_rfl⟩⟩, hd.push_param _, by simp [Has]⟩

theorem input (r : ColumnRead) : Builds d (Drafting.input r) fun i d' => d'.Has i := by
  intro hd i d' h
  obtain ⟨rfl, ⟨c, hc, rfl⟩ | ⟨hn, rfl⟩⟩ := input_ok.1 h
  · obtain ⟨hlt, -⟩ := List.idxOf?_eq_some_iff.1 hc
    have he : d.Fits (.input c) := ⟨nofun, nofun, nofun, fun _ h => by cases h; exact hlt⟩
    exact ⟨⟨[], ⟨by simp, by simp, List.prefix_rfl⟩⟩, hd.push he, by simp [Has]⟩
  · exact ⟨⟨[], ⟨by simp, by simp, List.prefix_append _ _⟩⟩,
      hd.push_input (List.idxOf?_eq_none_iff.1 hn), by simp [Has]⟩

theorem weight (o : FitOptions) (id : Nat) (role : ParameterRole) (v : α) :
    Builds d (Drafting.weight o id role v) fun i d' => d'.Has i := by
  unfold Drafting.weight
  split_ifs
  · exact parameter id role v
  · exact literal v

theorem weighted (r : ColumnRead) {w : Nat} (hw : d.Has w) :
    Builds d (Drafting.weighted r w) fun i d' => d'.Has i :=
  (input r).bind fun _ _ hd hx => binary .mul hx (hw.extend hd)

theorem mapM {f : β → Drafting α Nat} {bs : List β}
    (h : ∀ b ∈ bs, ∀ d', d.Extends d' → Builds d' (f b) fun i d'' => d''.Has i) :
    Builds d (bs.mapM f) fun is d' => d'.HasAll is := by
  -- the draft grows from item to item
  suffices hs : ∀ d', d.Extends d' → Builds d' (bs.mapM f) fun is d'' => d''.HasAll is from
    hs d (.refl d)
  induction bs with
  | nil => exact fun d' _ => pure nofun
  | cons b bs ih =>
    rw [List.forall_mem_cons] at h
    intro d₁ h₁
    rw [List.mapM_cons]
    refine (h.1 d₁ h₁).bind fun i d₂ h₂ hi => ?_
    refine (ih h.2 d₂ (h₁.trans h₂)).bind fun is d₃ h₃ his => ?_
    exact pure (List.forall_mem_cons.2 ⟨hi.extend h₃, his⟩)

theorem scalar {x : Drafting α Nat} (hx : Builds d x fun i d' => d'.Has i) :
    Builds d (Shaped.scalar <$> x) fun out d' => d'.HasAll out.toList :=
  map (hx.imp fun _ _ hi => List.forall_mem_singleton.2 hi)

theorem vector {x : Drafting α (List Nat)} (hx : Builds d x fun is d' => d'.HasAll is) :
    Builds d (Shaped.vector <$> x) fun out d' => d'.HasAll out.toList := map hx

theorem shapedMapM {f : β → Drafting α Nat} {a : Shaped β}
    (h : ∀ b ∈ a.toList, ∀ d', d.Extends d' → Builds d' (f b) fun i d'' => d''.Has i) :
    Builds d (a.mapM f) fun out d' => d'.HasAll out.toList := by
  cases a with
  | scalar b => exact scalar (h b (List.mem_singleton_self b) d (.refl d))
  | vector bs => exact vector (mapM h)

theorem unaryOn {op : UnaryOp} (hop : op.Bounded) {a : Shaped Nat} (ha : d.HasAll a.toList) :
    Builds d (a.mapM (Drafting.unary op)) fun out d' => d'.HasAll out.toList :=
  shapedMapM fun i hi _ hd => unary hop ((ha i hi).extend hd)

theorem combine (id : Nat) (op : BinaryOp) {a b : Shaped Nat} (ha : d.HasAll a.toList)
    (hb : d.HasAll b.toList) :
    Builds d (Drafting.combine id op a b) fun out d' => d'.HasAll out.toList := by
  have hpairs : Builds d (StateT.lift (a.broadcast id b)) fun ps d' =>
      ∀ p ∈ ps.toList, d'.Has p.1 ∧ d'.Has p.2 :=
    lift fun ps hps p hp => (Shaped.mem_broadcast hps hp).imp (ha p.1) (hb p.2)
  exact hpairs.bind fun ps d' _ hps => shapedMapM fun p hp d'' hd =>
    binary op ((hps p hp).1.extend hd) ((hps p hp).2.extend hd)

theorem foldlM (id : Nat) (op : BinaryOp) {args : List (Shaped Nat)} {a : Shaped Nat}
    (h : ∀ b ∈ args, d.HasAll b.toList) (ha : d.HasAll a.toList) :
    Builds d (args.foldlM (Drafting.combine id op) a) fun out d' => d'.HasAll out.toList := by
  induction args generalizing d a with
  | nil => exact pure ha
  | cons b args ih =>
    rw [List.forall_mem_cons] at h
    rw [List.foldlM_cons]
    exact (combine id op ha h.1).bind fun x d' hd hx =>
      ih (fun b hb => (h.2 b hb).extend hd) hx

section

variable [Scalar α]

theorem mean {is : List Nat} (h : d.HasAll is) :
    Builds d (Drafting.mean is) fun i d' => d'.Has i :=
  (sum h).bind fun _ _ _ ht => (literal _).bind fun _ _ hd hs => binary .mul (ht.extend hd) hs

theorem variance {is : List Nat} (h : d.HasAll is) :
    Builds d (Drafting.variance is) fun i d' => d'.Has i := by
  unfold Drafting.variance
  split
  · exact literal _
  · refine (mean h).bind fun m d₁ h₁ hm => ?_
    have hs : Builds d₁ (is.mapM fun x => do
        let j ← Drafting.binary .sub x m
        Drafting.unary (.elementary .square) j) fun js d' => d'.HasAll js :=
      mapM fun x hx d' hd => (binary .sub (((h x hx).extend h₁).extend hd) (hm.extend hd)).bind
        fun j _ _ hj => unary trivial hj
    exact hs.bind fun js d₂ _ hjs => (sum hjs).bind fun total d₃ _ ht =>
      (literal _).bind fun scale d₄ h₄ hs => binary .mul (ht.extend h₄) hs

theorem aggregate (g : Aggregate) {is : List Nat} (h : d.HasAll is) :
    Builds d (Drafting.aggregate g is) fun i d' => d'.Has i := by
  cases g with
  | sum => exact sum h
  | mean => exact mean h
  | variance => exact variance h
  | deviation => exact (variance h).bind fun _ _ _ hv => unary trivial hv
  | length => exact literal _

end

end Builds

end Drafting

end SymbolicFit
