import Mathlib
import SymbolicFit.Random

/-!
What is drawn as positions. Both ways of drawing, by extending a selection and by shuffling all
positions, give as many different positions as were asked for.
-/

namespace SymbolicFit

variable {γ : Type}

namespace Random

/-- The high part of a product is below the factor, and the carry of the low part does not bring it
there. -/
theorem high_lt {w n a b : Nat} (ha : a < w) (hb : b < w) (hn : 0 < n) :
    a * n / w < n ∧ (w ≤ a * n % w + b * n / w → a * n / w + 1 < n) := by
  have hlt : ∀ c < w, c * n / w < n := fun c hc =>
    Nat.div_lt_of_lt_mul (Nat.mul_lt_mul_of_pos_right hc hn)
  refine ⟨hlt a ha, fun hcarry => ?_⟩
  have hdiv := Nat.div_add_mod (a * n) w
  have hb' := hlt b hb
  have htop : a * n + n ≤ w * n := by
    rw [← Nat.succ_mul]
    exact Nat.mul_le_mul_right n ha
  have hmul : w * (a * n / w + 1) < w * n := by
    rw [Nat.mul_add, Nat.mul_one]
    omega
  exact Nat.lt_of_mul_lt_mul_left hmul

variable [RandomSource γ]

theorem nextHalf_lt (g : γ) : (nextHalf g).1 < UInt32.size := Nat.mod_lt _ (by decide)

/-- What is drawn: the high part of a product of a half word, or one more if there is a carry. -/
theorem between_cases (low high : Nat) (g : γ) :
    ∃ a < UInt32.size, ∃ b < UInt32.size,
      (between low high g).1 = low + a * (high - low + 1) / UInt32.size ∨
      UInt32.size ≤ a * (high - low + 1) % UInt32.size + b * (high - low + 1) / UInt32.size ∧
        (between low high g).1 = low + (a * (high - low + 1) / UInt32.size + 1) := by
  refine ⟨_, nextHalf_lt g, _, nextHalf_lt (nextHalf g).2, ?_⟩
  generalize hrun : between low high g = r
  change (if _ then _ else _ : StateM γ Nat) _ = r at hrun
  split_ifs at hrun with hrest
  · cases hrun
    change low + (if _ then _ else _) = _ ∨ _ ∧ low + (if _ then _ else _) = _
    split_ifs with hcarry
    · exact .inr ⟨hcarry, rfl⟩
    · exact .inl rfl
  · cases hrun
    exact .inl rfl

theorem between_mem {low high : Nat} (h : low ≤ high) (g : γ) :
    low ≤ (between low high g).1 ∧ (between low high g).1 ≤ high := by
  obtain ⟨a, ha, b, hb, hdraw⟩ := between_cases low high g
  have hpos : 0 < high - low + 1 := Nat.succ_pos _
  obtain ⟨hhigh, hcarry⟩ := high_lt ha hb hpos
  generalize a * (high - low + 1) / UInt32.size = q at hhigh hcarry hdraw
  rcases hdraw with hdraw | ⟨hlow, hdraw⟩
  · omega
  · have := hcarry hlow
    omega

end Random

namespace Sampling

/-- Different positions below `length`, as many as the amount. -/
structure Positions (length amount : Nat) (ps : List Nat) : Prop where
  length_eq : ps.length = amount
  nodup : ps.Nodup
  lt : ∀ p ∈ ps, p < length

/-- The sampler gives different positions, as many as asked for if there are so many. -/
def Samples (sample : Nat → Nat → StateM γ (List Nat)) : Prop :=
  ∀ length amount g, amount ≤ length → Positions length amount (sample length amount g).1

theorem Positions.nil (length : Nat) : Positions length 0 [] := ⟨rfl, List.nodup_nil, nofun⟩

theorem Positions.range (length : Nat) : Positions length length (List.range length) :=
  ⟨List.length_range, List.nodup_range, fun _ => List.mem_range.1⟩

variable {length amount : Nat} {ps : List Nat}

theorem Positions.mono {length' : Nat} (h : Positions length amount ps) (hle : length ≤ length') :
    Positions length' amount ps := ⟨h.length_eq, h.nodup, fun p hp => (h.lt p hp).trans_le hle⟩

theorem Positions.append {t : Nat} (h : Positions length amount ps) (ht : t ∉ ps)
    (hlt : t < length) : Positions length (amount + 1) (ps ++ [t]) where
  length_eq := by rw [List.length_append, h.length_eq, List.length_singleton]
  nodup := List.nodup_append_comm.1 (List.nodup_cons.2 ⟨ht, h.nodup⟩)
  lt p hp := by
    rcases List.mem_append.1 hp with hp | hp
    · exact h.lt p hp
    · rwa [List.mem_singleton.1 hp]

theorem Positions.perm {ps' : List Nat} (h : Positions length amount ps) (hp : ps'.Perm ps) :
    Positions length amount ps' :=
  ⟨hp.length_eq.trans h.length_eq, hp.nodup_iff.2 h.nodup, fun p hmem => h.lt p (hp.subset hmem)⟩

theorem Positions.take {n : Nat} (h : Positions length amount ps) (hn : n ≤ amount) :
    Positions length n (ps.take n) :=
  ⟨List.length_take_of_le (h.length_eq ▸ hn), h.nodup.sublist (List.take_sublist n ps),
    fun p hp => h.lt p (List.mem_of_mem_take hp)⟩

/-- A position that gives its place to a new one and goes to the end. -/
theorem perm_replace {t j : Nat} (h : t ∈ ps) : (ps.replace t j ++ [t]).Perm (ps ++ [j]) := by
  induction ps with
  | nil => cases h
  | cons p ps ih =>
    by_cases hp : t = p
    · subst hp
      rw [List.replace_cons_self]
      exact (List.perm_append_singleton t (j :: ps)).trans
        ((List.Perm.swap j t ps).trans (List.perm_append_singleton j (t :: ps)).symm)
    · have hmem : t ∈ ps := (List.mem_cons.1 h).resolve_left hp
      rw [List.replace_cons, beq_false_of_ne hp]
      exact (ih hmem).cons p

section Draws

variable [RandomSource γ]

theorem Positions.extend (h : Positions length amount ps) (g : γ) :
    Positions (length + 1) (amount + 1) (extend ps length g).1 := by
  obtain ⟨t, ht⟩ : ∃ t, t = (Random.between 0 length g).1 := ⟨_, rfl⟩
  have hle : t ≤ length := ht ▸ (Random.between_mem (Nat.zero_le length) g).2
  have hextend : (Sampling.extend ps length g).1 =
      (if t ∈ ps then ps.replace t length else ps) ++ [t] := by
    rw [ht]
    rfl
  have hnew : length ∉ ps := fun hmem => Nat.lt_irrefl _ (h.lt _ hmem)
  have hmono := h.mono (Nat.le_succ length)
  rw [hextend]
  split_ifs with hmem
  · exact (hmono.append hnew (Nat.lt_succ_self length)).perm (perm_replace hmem)
  · exact hmono.append hmem (Nat.lt_succ_of_le hle)

/-- Extensions at the next bounds, one after the other. -/
theorem Positions.extendAll (h : Positions length amount ps) (n : Nat) (g : γ) :
    Positions (length + n) (amount + n)
      ((List.range' length n).foldlM Sampling.extend ps g).1 := by
  induction n generalizing length amount ps g with
  | zero => exact h
  | succ n ih =>
    have hnext := ih (h.extend g) (Sampling.extend ps length g).2
    rw [Nat.add_right_comm, Nat.add_right_comm amount] at hnext
    exact hnext

theorem byExtension_samples : Samples (@byExtension γ _) := by
  intro length amount g h
  have hpositions := (Positions.nil (length - amount)).extendAll amount g
  rwa [Nat.sub_add_cancel h, Nat.zero_add] at hpositions

theorem perm_swapIfInBounds {α : Type} (xs : Array α) (i j : Nat) :
    (xs.swapIfInBounds i j).toList.Perm xs.toList := by
  unfold Array.swapIfInBounds
  split_ifs
  · exact (Array.swap_perm _ _).toList
  · exact .refl _
  · exact .refl _

theorem perm_shuffle (bound : Nat) (is : List Nat) (xs : Array Nat) (g : γ) :
    ((is.foldlM (fun (a : Array Nat) i => do
      let j ← Random.between i bound
      return a.swapIfInBounds i j) xs : StateM γ (Array Nat)) g).1.toList.Perm xs.toList := by
  induction is generalizing xs g with
  | nil => exact .refl _
  | cons i is ih =>
    exact (ih _ _).trans (perm_swapIfInBounds xs i (Random.between i bound g).1)

theorem byShuffle_samples : Samples (@byShuffle γ _) := by
  intro length amount g h
  have hperm := perm_shuffle (length - 1) (List.range amount) (Array.range length) g
  rw [Array.toList_range] at hperm
  exact ((Positions.range length).perm hperm).take h

theorem positions_samples : Samples (@positions γ _) := by
  intro length amount g h
  unfold positions
  split_ifs
  · exact byShuffle_samples length amount g h
  · exact byExtension_samples length amount g h

end Draws

end Sampling

end SymbolicFit
