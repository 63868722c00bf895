import Mathlib
import SymbolicFit.Quality
import SymbolicFit.Tuning
import SymbolicFit.Proofs.CompiledSlots
import SymbolicFit.Proofs.DraftOutcomes

/-!
The failures of each layer before a fit. Reading data, evaluating, scoring and compiling a tree,
tabulating and writing parameters fail recoverably, so none of them is ever cancelled.
-/

namespace SymbolicFit

variable {α β γ : Type}

/-- A failure of `x`, if there is one, leaves the tree as it is. -/
def Recoverable (x : Except Failure β) : Prop := ∀ e, x = .error e → e.isRecoverable = true

namespace Recoverable

theorem ok (b : β) : Recoverable (.ok b : Except Failure β) := nofun

theorem error {e : Failure} (h : e.isRecoverable = true) :
    Recoverable (.error e : Except Failure β) := by
  rintro _ ⟨⟩
  exact h

theorem bind_ok {x : Except Failure β} {f : β → Except Failure γ} (hx : Recoverable x)
    (hf : ∀ b, x = .ok b → Recoverable (f b)) : Recoverable (x >>= f) := by
  cases x with
  | error e => exact error (hx e rfl)
  | ok b => exact hf b rfl

theorem bind {x : Except Failure β} {f : β → Except Failure γ} (hx : Recoverable x)
    (hf : ∀ b, Recoverable (f b)) : Recoverable (x >>= f) := bind_ok hx fun b _ => hf b

theorem map {x : Except Failure β} (f : β → γ) (hx : Recoverable x) : Recoverable (x.map f) := by
  cases x with
  | error e => exact error (hx e rfl)
  | ok b => exact ok _

theorem mapM {f : β → Except Failure γ} (h : ∀ b, Recoverable (f b)) (bs : List β) :
    Recoverable (bs.mapM f) := by
  induction bs with
  | nil => exact ok _
  | cons b bs ih =>
    rw [List.mapM_cons]
    exact (h b).bind fun _ => ih.bind fun _ => ok _

theorem foldlM {f : β → γ → Except Failure β} (h : ∀ b c, Recoverable (f b c)) (b : β)
    (cs : List γ) : Recoverable (cs.foldlM f b) := by
  induction cs generalizing b with
  | nil => exact ok _
  | cons c cs ih => exact (h b c).bind ih

theorem forM {f : β → Except Failure Unit} (h : ∀ b, Recoverable (f b)) (bs : List β) :
    Recoverable (bs.forM f) := by
  induction bs with
  | nil => exact ok _
  | cons b bs ih => exact (h b).bind fun _ => ih

end Recoverable

namespace Dataset

variable (d : Dataset α)

theorem laggedRow_recoverable (row : Nat) (lag : Int) : Recoverable (d.laggedRow row lag) := by
  unfold laggedRow
  dsimp only
  split_ifs
  · exact .ok _
  · exact .error rfl

theorem read_recoverable (type : ColumnType) (entries : Column α → Option (Array β))
    (name : String) (row : Nat) : Recoverable (d.read type entries name row) := by
  refine .bind ?_ fun _ => ?_
  · unfold checkRow
    split_ifs
    · exact .ok _
    · exact .error rfl
  · split
    · exact .error rfl
    · split
      · exact .error rfl
      · split
        · exact .error rfl
        · exact .ok _

theorem numbers_recoverable (name : String) (rows : List Nat) :
    Recoverable (d.numbers name rows) :=
  .mapM (fun row => d.read_recoverable _ _ name row) rows

theorem element_recoverable (name : String) (xs : List α) (index : Nat) :
    Recoverable (element name xs index) := by
  unfold element
  split
  · exact .ok _
  · exact .error rfl

end Dataset

namespace Shaped

variable {δ : Type}

theorem broadcast_recoverable (id : Nat) (a : Shaped β) (b : Shaped γ) :
    Recoverable (a.broadcast id b) := by
  have hn : ∀ m n, Recoverable (commonLength id m n) := by
    intro m n
    unfold commonLength
    split_ifs
    · exact .ok _
    · exact .ok _
    · exact .ok _
    · exact .error rfl
  unfold broadcast
  split
  · exact .ok _
  · exact (hn _ _).bind fun _ => .ok _

theorem zipWith_recoverable (id : Nat) (f : β → γ → δ) (a : Shaped β) (b : Shaped γ) :
    Recoverable (zipWith id f a b) :=
  (broadcast_recoverable id a b).map _

end Shaped

section Evaluation

variable [Scalar α] (d : Dataset α) (row : Nat)

namespace Symbol

theorem leaf_recoverable (id : Nat) {s : Symbol α} {value : Except Failure (Shaped α)}
    (h : s.leaf? d row id = some value) : Recoverable value := by
  cases s with
  | constant | fixed =>
    cases h
    exact .ok _
  | column name weight lag index =>
    cases h
    refine (d.laggedRow_recoverable row lag).bind fun r => ?_
    split
    · exact (d.read_recoverable _ _ name r).bind fun _ => .ok _
    · refine (d.read_recoverable _ _ name r).bind fun xs => ?_
      split
      · exact (Dataset.element_recoverable name xs _).bind fun _ => .ok _
      · exact .ok _
    · exact .error rfl
    · exact .error rfl
  | indicator | factor =>
    cases h
    exact (d.read_recoverable _ _ _ row).bind fun _ => .ok _
  | unknown =>
    cases h
    exact .error rfl
  | _ => cases h

theorem combine_recoverable (id : Nat) (s : Symbol α) (vs : List (Shaped α)) :
    Recoverable (s.combine id vs) := by
  unfold combine
  split
  case h_2 => exact .foldlM (fun _ _ => Shaped.zipWith_recoverable id _ _ _) _ _
  case h_3 => exact Shaped.zipWith_recoverable id _ _ _
  case h_10 =>
    exact (Shaped.broadcast_recoverable id _ _).bind fun _ =>
      (Shaped.broadcast_recoverable id _ _).bind fun _ => .ok _
  case h_11 => exact .error rfl
  all_goals exact .ok _

end Symbol

namespace Tree

mutual

theorem evaluateAt_recoverable : ∀ (t : Tree α) (id : Nat), Recoverable (t.evaluateAt d row id)
  | node s cs, id => by
    unfold evaluateAt
    split
    · rename_i value h
      exact (Symbol.leaf_recoverable d row id h).bind fun _ => .ok _
    · exact (evaluateAllAt_recoverable cs (id + 1)).bind fun p =>
        (s.combine_recoverable id p.1).bind fun _ => .ok _

theorem evaluateAllAt_recoverable : ∀ (ts : List (Tree α)) (id : Nat),
    Recoverable (evaluateAllAt d row id ts)
  | [], _ => .ok _
  | t :: ts, id => by
    unfold evaluateAllAt
    exact (evaluateAt_recoverable t id).bind fun _ =>
      (evaluateAllAt_recoverable ts (id + t.reach)).bind fun _ => .ok _

end

theorem valueAt_recoverable (t : Tree α) : Recoverable (t.valueAt d row) := by
  refine (evaluateAt_recoverable d row t 0).bind fun p => ?_
  split
  · exact .ok _
  · exact .error rfl

theorem quality_recoverable (t : Tree α) (target : String) (rows : List Nat) (l : Limits α) :
    Recoverable (t.quality d target rows l) := by
  unfold quality
  split_ifs
  · exact .error (e := .emptyRows) rfl
  · exact (Recoverable.mapM (t.valueAt_recoverable d) rows).bind fun _ =>
      (d.numbers_recoverable target rows).bind fun _ => .ok _

theorem neededTrace_recoverable (t : Tree α) (rows : List Nat) :
    Recoverable (t.neededTrace d rows) := by
  unfold neededTrace
  split_ifs
  · refine Recoverable.map _ ?_
    cases rows with
    | nil => exact .error rfl
    | cons first rest =>
      refine (t.evaluateAt_recoverable d first 0).bind fun p => .bind (.forM (fun row => ?_) rest)
        fun _ => .ok _
      refine (t.evaluateAt_recoverable d row 0).bind fun q => ?_
      dsimp only
      split
      · exact .error rfl
      · exact .ok _
  · exact .ok _

end Tree

end Evaluation

namespace Drafting

/-- The action succeeds or fails recoverably. -/
abbrev FailsRecoverably (x : Drafting α β) : Prop :=
  Compiles (fun e => e.isRecoverable = true) (fun _ => True) x fun _ => True

namespace FailsRecoverably

theorem unsupported (id : Nat) (s : Symbol α) :
    FailsRecoverably (unsupported id s : Drafting α β) := .throw rfl

theorem unaryOn (op : UnaryOp) (a : Shaped Nat) :
    FailsRecoverably (a.mapM (unary op) : Drafting α (Shaped Nat)) :=
  (Compiles.shapedMapM (fun _ => .emit _) a).weaken

theorem combine (id : Nat) (op : BinaryOp) (a b : Shaped Nat) :
    FailsRecoverably (combine id op a b : Drafting α (Shaped Nat)) :=
  (Compiles.lift (Q := fun _ => True) (fun _ _ => trivial) (a.broadcast_recoverable id b)).bind
    fun pairs _ => (Compiles.shapedMapM (fun _ => .emit _) pairs).weaken

end FailsRecoverably

end Drafting

open Drafting (Compiles FailsRecoverably)

namespace Symbol

theorem compileLeaf_recoverable {o : FitOptions} {shape : Shape} {id : Nat} {s : Symbol α}
    {x : Drafting α (Shaped Nat)} (h : s.compileLeaf? o shape id = some x) :
    FailsRecoverably x := by
  cases s with
  | constant v =>
    cases h
    refine .map ?_
    split_ifs
    · exact .parameter id _ v
    · exact .emit _
  | fixed v =>
    cases h
    exact .map (.emit _)
  | column name v lag index =>
    cases h
    refine (Compiles.weight o id _ v).bind fun i _ => ?_
    split
    · exact .map (Compiles.mapM fun _ _ => .weighted trivial i).weaken
    · exact .map (.weighted trivial i)
  | indicator name category v =>
    cases h
    exact (Compiles.weight o id _ v).bind fun i _ => .map (.weighted trivial i)
  | factor name ws =>
    cases h
    refine (Compiles.mapM fun cw _ => ?_).bind fun addends _ => .map (.emit _)
    exact (Compiles.weight o id _ cw.2).bind fun i _ => .weighted trivial i
  | _ => cases h

theorem assemble_recoverable [Scalar α] (id : Nat) (s : Symbol α) (args : List (Shaped Nat)) :
    FailsRecoverably (s.assemble id args) := by
  unfold assemble
  split
  case h_1 =>
    split
    · exact .pure trivial
    · exact .unaryOn _ _
    · exact .foldlM (FailsRecoverably.combine id _) _ _
    · exact .unsupported id _
  case h_2 => exact .combine id _ _ _
  case h_3 => exact .unaryOn _ _
  case h_4 => exact .map (.aggregate _ _)
  case h_5 => exact .pure trivial
  case h_6 => exact .unsupported id _

end Symbol

section Compiling

variable [Scalar α]

namespace Tree

mutual

theorem compileAt_recoverable (o : FitOptions) (trace : Option Trace) :
    ∀ (t : Tree α) (id : Nat), FailsRecoverably (t.compileAt o trace id)
  | node s cs, id => by
    cases hl : s.isLeaf
    · by_cases ha : s.accepts (Trace.shapeOf trace (id + 1)) cs.length = true
      · rcases exponent_cases s cs with ⟨he, base, exponent, rfl⟩ | he
        · rw [compileAt_exponent he]
          refine (compileAt_recoverable o trace base (id + 1)).bind fun x _ => ?_
          split
          · exact FailsRecoverably.unaryOn _ x
          · exact FailsRecoverably.unsupported id s
        · rw [compileAt_other hl he ha]
          exact (compileAllAt_recoverable o trace cs (id + 1)).bind
            fun args _ => s.assemble_recoverable id args
      · rw [compileAt_rejected hl ha]
        exact .unsupported id s
    · obtain ⟨x, hx⟩ := Symbol.compileLeaf?_of_isLeaf hl o (Trace.shapeOf trace id) id
      rw [compileAt_leaf hx]
      exact Symbol.compileLeaf_recoverable hx

theorem compileAllAt_recoverable (o : FitOptions) (trace : Option Trace) :
    ∀ (ts : List (Tree α)) (id : Nat), FailsRecoverably (compileAllAt o trace id ts)
  | [], _ => .pure trivial
  | t :: ts, id => by
    unfold compileAllAt
    exact (compileAt_recoverable o trace t id).bind fun _ _ =>
      (compileAllAt_recoverable o trace ts (id + t.reach)).bind fun _ _ => .pure trivial

end

theorem compile_recoverable (t : Tree α) (o : FitOptions) (trace : Option Trace) :
    Recoverable (t.compile o trace) := by
  have hs : ∀ x, FailsRecoverably (compileOutput.scalar (α := α) x) := by
    rintro (x | xs)
    · exact .pure trivial
    · exact .throw rfl
  have ht : FailsRecoverably (t.compileOutput o trace) := by
    unfold compileOutput
    split_ifs
    · exact (Compiles.parameter 0 _ _).bind fun _ _ =>
        (Compiles.parameter 0 _ _).bind fun _ _ =>
        (t.compileAt_recoverable o trace 0).bind fun x _ => (hs x).bind fun _ _ =>
        (Compiles.emit _).bind fun _ _ => .emit _
    · exact (t.compileAt_recoverable o trace 0).bind fun x _ => hs x
  have hrun : Recoverable (t.compileOutput o trace .empty) := fun e he => ht.error he
  exact hrun.bind fun _ => .ok _

omit [Scalar α] in
theorem withParameters_recoverable (t : Tree α) (o : FitOptions) (params : List α) :
    Recoverable (t.withParameters o params) := by
  unfold withParameters
  dsimp only
  split_ifs
  · exact .ok _
  · exact .error rfl

end Tree

namespace Dataset

variable (d : Dataset α)

theorem value_recoverable (r : ColumnRead) (row : Nat) : Recoverable (r.value d row) := by
  refine (d.laggedRow_recoverable row r.lag).bind fun i => ?_
  split
  · exact (d.read_recoverable _ _ r.name i).bind fun _ => .ok _
  · split
    · exact (d.read_recoverable _ _ r.name i).bind fun xs => element_recoverable r.name xs _
    · exact d.read_recoverable _ _ r.name i

theorem tabulate_recoverable (inputs : List ColumnRead) (target : String) (rows : List Nat) :
    Recoverable (d.tabulate inputs target rows) := by
  unfold tabulate
  split_ifs
  · exact .error rfl
  · refine (Recoverable.mapM (fun row => .mapM (fun r => d.value_recoverable r row) inputs)
      rows).bind fun entries => .bind ?_ fun _ => (d.numbers_recoverable target rows).bind fun _ =>
      .ok _
    unfold DesignMatrix.ofData
    split_ifs
    · exact .ok _
    · exact .error rfl

end Dataset

end Compiling

end SymbolicFit
