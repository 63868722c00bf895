import Mathlib
import SymbolicFit.Proofs.CompiledSlots
import SymbolicFit.Proofs.MirroredDrafts

/-!
What the options of a fit change in a compiled tree. Numbers that are not tuned become literals, a
rescaling is wrapped around the rest, and nothing else depends on the options.
-/

namespace SymbolicFit

open Drafting (Mirrored)

variable {α : Type}

namespace FitOptions

/-- The parameter belongs to the rescaling, or to a number that is tuned. -/
def keeps (o : FitOptions) (q : Parameter α) : Bool :=
  match q.role with
  | .constant => o.tunes q.node
  | .columnWeight | .categoryWeight _ => o.tunesWeights q.node
  | .offset | .factor => true

/-- The second options rescale like the first; they exclude the same nodes or more, and they may
leave out the weights. -/
structure Freezes (o o' : FitOptions) : Prop where
  rescale : o'.rescale = o.rescale
  excluded : o.excluded ⊆ o'.excluded
  weights : o'.weights = true → o.weights = true

/-- The second options tune what the first do and `keeps` lets through. -/
structure Narrows (keeps : Parameter α → Bool) (o o' : FitOptions) : Prop where
  constant : ∀ id v, o'.tunes id = (o.tunes id && keeps ⟨id, .constant, v⟩)
  column : ∀ id v, o'.tunesWeights id = (o.tunesWeights id && keeps ⟨id, .columnWeight, v⟩)
  category : ∀ id c v,
    o'.tunesWeights id = (o.tunesWeights id && keeps ⟨id, .categoryWeight c, v⟩)

theorem tunes_iff {o : FitOptions} {id : Nat} : o.tunes id = true ↔ id ∉ o.excluded := by
  simp [tunes]

theorem tunesWeights_iff {o : FitOptions} {id : Nat} :
    o.tunesWeights id = true ↔ o.weights = true ∧ o.tunes id = true := Bool.and_eq_true_iff

theorem Freezes.narrows {o o' : FitOptions} (h : o.Freezes o') :
    Narrows (o'.keeps (α := α)) o o' := by
  have htunes : ∀ id, o'.tunes id = true → o.tunes id = true := fun id hid =>
    tunes_iff.2 fun hmem => tunes_iff.1 hid (h.excluded hmem)
  have hweights : ∀ id, o'.tunesWeights id = true → o.tunesWeights id = true := by
    intro id hid
    obtain ⟨hw, ht⟩ := tunesWeights_iff.1 hid
    exact tunesWeights_iff.2 ⟨h.weights hw, htunes id ht⟩
  exact ⟨fun id _ => (Bool.and_eq_right_iff_imp.2 (htunes id)).symm,
    fun id _ => (Bool.and_eq_right_iff_imp.2 (hweights id)).symm,
    fun id _ _ => (Bool.and_eq_right_iff_imp.2 (hweights id)).symm⟩

end FitOptions

variable {keeps : Parameter α → Bool} {front : Draft α} {o o' : FitOptions}

namespace Symbol

theorem compileLeaf_mirrored (h : FitOptions.Narrows keeps o o') {shape : Shape} {id : Nat}
    {s : Symbol α} {x : Drafting α (Shaped Nat)} (hx : s.compileLeaf? o shape id = some x) :
    ∃ y, s.compileLeaf? o' shape id = some y ∧
      Mirrored keeps front x y (Shaped.map (· + front.entries.size)) := by
  cases s with
  | constant v =>
    cases hx
    refine ⟨_, rfl, Mirrored.map (g := (· + front.entries.size)) ?_ fun _ => rfl⟩
    rw [h.constant id v]
    cases o.tunes id
    · exact .literal v
    · exact .parameter id .constant v
  | fixed v =>
    cases hx
    exact ⟨_, rfl, (Mirrored.literal v).map fun _ => rfl⟩
  | column name v lag index =>
    cases hx
    refine ⟨_, rfl, (Mirrored.weight (h.column id v)).bind fun w => ?_⟩
    split
    · refine Mirrored.map (g := List.map (· + front.entries.size)) ?_ fun _ => rfl
      exact .mapM (List.forall₂_same.2 fun k _ => .weighted _ w)
    · exact (Mirrored.weighted _ w).map fun _ => rfl
  | indicator name category v =>
    cases hx
    exact ⟨_, rfl, (Mirrored.weight (h.column id v)).bind fun w =>
      (Mirrored.weighted _ w).map fun _ => rfl⟩
  | factor name ws =>
    cases hx
    refine ⟨_, rfl, (Mirrored.mapM (g := (· + front.entries.size))
      (List.forall₂_same.2 fun cw _ => ?_)).bind fun addends => ?_⟩
    · exact (Mirrored.weight (h.category id cw.1 cw.2)).bind fun w => .weighted _ w
    · exact (Mirrored.sum addends).map fun _ => rfl
  | _ => cases hx

variable [Scalar α]

theorem assemble_mirrored (id : Nat) (s : Symbol α) (args : List (Shaped Nat)) :
    Mirrored keeps front (s.assemble id args)
      (s.assemble id (args.map (Shaped.map (· + front.entries.size))))
      (Shaped.map (· + front.entries.size)) := by
  cases s with
  | fold op =>
    cases args with
    | nil => exact .throw _ _
    | cons a rest =>
      simp only [assemble, List.map_cons]
      rcases op.primitive? with _ | ⟨binary, _ | f⟩
      · exact .throw _ _
      · cases rest with
        | nil => exact .pure a
        | cons b rest => exact .combineAll id binary a (b :: rest)
      · cases rest with
        | nil => exact .unaryOn f a
        | cons b rest => exact .combineAll id binary a (b :: rest)
  | pair op =>
    cases op with
    | quotient =>
      rcases args with _ | ⟨a, _ | ⟨b, _ | ⟨c, args⟩⟩⟩
      · exact .throw _ _
      · exact .throw _ _
      · exact .combine id .quotient a b
      · exact .throw _ _
    | _ => exact .throw _ _
  | elementary f =>
    rcases args with _ | ⟨a, _ | ⟨b, args⟩⟩
    · exact .throw _ _
    · exact .unaryOn (.elementary f) a
    · exact .throw _ _
  | aggregate g =>
    rcases args with _ | ⟨a, _ | ⟨b, args⟩⟩
    · exact .throw _ _
    · have hitems : (a.map (· + front.entries.size)).toList =
          a.toList.map (· + front.entries.size) := by cases a <;> rfl
      simp only [assemble, List.map_cons, List.map_nil, hitems]
      exact (Mirrored.aggregate g a.toList).map fun _ => rfl
    · exact .throw _ _
  | program =>
    rcases args with _ | ⟨a, _ | ⟨b, args⟩⟩
    · exact .throw _ _
    · exact .pure a
    · exact .throw _ _
  | _ => exact .throw _ _

end Symbol

namespace Tree

variable [Scalar α] {trace : Option Trace}

mutual

/-- With fewer numbers to tune, a tree is compiled to the mirror image. -/
theorem compileAt_mirrored (h : FitOptions.Narrows keeps o o') : ∀ (t : Tree α) (id : Nat),
    Mirrored keeps front (t.compileAt o trace id) (t.compileAt o' trace id)
      (Shaped.map (· + front.entries.size))
  | node s cs, id => by
    cases hs : s.isLeaf
    · by_cases ha : s.accepts (Trace.shapeOf trace (id + 1)) cs.length = true
      · rcases exponent_cases s cs with ⟨he, base, exponent, rfl⟩ | he
        · rw [compileAt_exponent he, compileAt_exponent he]
          refine (compileAt_mirrored h base (id + 1)).bind fun x => ?_
          split
          · exact .unaryOn _ x
          · exact .throw _ _
        · rw [compileAt_other hs he ha, compileAt_other hs he ha]
          exact (compileAllAt_mirrored h cs (id + 1)).bind (Symbol.assemble_mirrored id s)
      · rw [compileAt_rejected hs ha, compileAt_rejected hs ha]
        exact .throw _ _
    · obtain ⟨x, hx⟩ := Symbol.compileLeaf?_of_isLeaf hs o (Trace.shapeOf trace id) id
      obtain ⟨y, hy, hxy⟩ := Symbol.compileLeaf_mirrored h hx
      rw [compileAt_leaf hx, compileAt_leaf hy]
      exact hxy

theorem compileAllAt_mirrored (h : FitOptions.Narrows keeps o o') :
    ∀ (ts : List (Tree α)) (id : Nat),
      Mirrored keeps front (compileAllAt o trace id ts) (compileAllAt o' trace id ts)
        (List.map (Shaped.map (· + front.entries.size)))
  | [], id => .pure (g := List.map (Shaped.map (· + front.entries.size))) []
  | t :: ts, id => by
    rw [compileAllAt, compileAllAt]
    exact (compileAt_mirrored h t id).bind fun x =>
      (compileAllAt_mirrored h ts (id + t.reach)).map fun xs => rfl

end

omit [Scalar α] in
theorem scalar_mirrored (x : Shaped Nat) :
    Mirrored keeps front (compileOutput.scalar x)
      (compileOutput.scalar (x.map (· + front.entries.size))) (· + front.entries.size) := by
  cases x with
  | scalar i => exact .pure (g := (· + front.entries.size)) i
  | vector is =>
    simp only [compileOutput.scalar, Shaped.map, List.length_map]
    exact .throw _ _

/-- Compiling a tree to a scalar, without a rescaling. -/
def compileScalar (t : Tree α) (o : FitOptions) (trace : Option Trace) : Drafting α Nat :=
  t.compileAt o trace 0 >>= compileOutput.scalar

theorem compileScalar_mirrored (h : FitOptions.Narrows keeps o o') (t : Tree α) :
    Mirrored keeps front (t.compileScalar o trace) (t.compileScalar o' trace)
      (· + front.entries.size) :=
  (compileAt_mirrored h t 0).bind scalar_mirrored

/-- The given number is multiplied by the factor, and the offset is added. -/
def rescaleWith (offset factor x : Nat) : Drafting α Nat := do
  let scaled ← Drafting.binary .mul factor x
  Drafting.binary .add scaled offset

omit [Scalar α] in
theorem rescaleWith_apply (offset factor x : Nat) (d : Draft α) :
    rescaleWith offset factor x d = .ok (d.entries.size + 1,
      ⟨(d.entries.push (.binary .mul factor x)).push (.binary .add d.entries.size offset),
        d.parameters, d.inputs⟩) := by
  rw [← Array.size_push (.binary .mul factor x)]
  rfl

theorem compileOutput_unscaled (ho : o.rescale = false) (t : Tree α) :
    t.compileOutput o trace = t.compileScalar o trace := by
  unfold compileOutput
  rw [ho]
  rfl

theorem compileOutput_scaled (ho : o.rescale = true) (t : Tree α) :
    t.compileOutput o trace = (do
      let offset ← Drafting.parameter 0 .offset 0
      let factor ← Drafting.parameter 0 .factor 1
      let x ← t.compileScalar o trace
      rescaleWith offset factor x) := by
  unfold compileOutput compileScalar
  rw [if_pos ho]
  simp only [bind_assoc]
  rfl

theorem compileOutput_mirrored (h : FitOptions.Narrows keeps o o') (hr : o'.rescale = o.rescale)
    (hoffset : keeps ⟨0, .offset, 0⟩ = true) (hfactor : keeps ⟨0, .factor, 1⟩ = true) (t : Tree α) :
    Mirrored keeps front (t.compileOutput o trace) (t.compileOutput o' trace)
      (· + front.entries.size) := by
  cases ho : o.rescale
  · rw [compileOutput_unscaled ho, compileOutput_unscaled (hr.trans ho)]
    exact compileScalar_mirrored h t
  · rw [compileOutput_scaled ho, compileOutput_scaled (hr.trans ho)]
    exact (Mirrored.parameter_of_keeps hoffset).bind fun offset =>
      (Mirrored.parameter_of_keeps hfactor).bind fun factor =>
        (compileScalar_mirrored h t).bind fun x => (Mirrored.binary .mul factor x).bind fun y =>
          .binary .add y offset

theorem compile_eq (t : Tree α) (o : FitOptions) (trace : Option Trace) :
    t.compile o trace = (t.compileOutput o trace .empty).map fun p =>
      ⟨⟨p.2.entries, some p.1⟩, p.2.parameters, p.2.inputs, o.rescale⟩ := by
  unfold compile
  cases h : t.compileOutput o trace .empty <;>
    simp [StateT.run, h, bind, Except.bind, Except.map, pure, Except.pure]

/-- Options that tune fewer numbers give the compiled tree with the other numbers frozen. -/
theorem compile_freeze (h : o.Freezes o') (t : Tree α) (trace : Option Trace) :
    t.compile o' trace = (t.compile o trace).map (CompiledTree.freeze o'.keeps) := by
  have hmirrored : Mirrored o'.keeps .empty (t.compileOutput o trace) (t.compileOutput o' trace)
      (· + 0) := compileOutput_mirrored h.narrows h.rescale rfl rfl t
  have houtput := (hmirrored .empty Draft.bounded_empty).1
  rw [Draft.mirror_empty _ _ rfl] at houtput
  rw [compile_eq, compile_eq, houtput, h.rescale]
  cases t.compileOutput o trace .empty with
  | error e => rfl
  | ok p => exact congrArg Except.ok (by simp only [Prod.map, Draft.mirror_behind_empty]; rfl)

/-- The draft in which a rescaled tree is compiled. -/
def scalingDraft : Draft α := ⟨#[.param 0, .param 1], [⟨0, .offset, 0⟩, ⟨0, .factor, 1⟩], []⟩

theorem compileOutput_scalingDraft (ho : o.rescale = true) (t : Tree α) :
    t.compileOutput o trace .empty =
      (t.compileScalar o trace >>= rescaleWith 0 1) scalingDraft := by
  rw [compileOutput_scaled ho]
  rfl

/-- A rescaling is wrapped around the compiled tree. -/
theorem compile_rescale (t : Tree α) (o : FitOptions) (trace : Option Trace) :
    t.compile { o with rescale := true } trace =
      (t.compile { o with rescale := false } trace).map fun c =>
        ⟨c.tape.rescale, ⟨0, .offset, 0⟩ :: ⟨0, .factor, 1⟩ :: c.parameters, c.inputs, true⟩ := by
  have hnarrows : FitOptions.Narrows (fun _ : Parameter α => true) { o with rescale := false }
      { o with rescale := true } :=
    ⟨fun _ _ => (Bool.and_true _).symm, fun _ _ => (Bool.and_true _).symm,
      fun _ _ _ => (Bool.and_true _).symm⟩
  -- behind the two parameters nothing is frozen, and everything is moved by two places
  have hmirrored : Mirrored (fun _ => true) scalingDraft
      (t.compileScalar { o with rescale := false } trace)
      (t.compileScalar { o with rescale := true } trace) (· + 2) :=
    compileScalar_mirrored hnarrows t
  obtain ⟨hscalar, hbounded⟩ := hmirrored .empty Draft.bounded_empty
  rw [Draft.mirror_empty _ _ rfl] at hscalar
  rw [compile_eq, compile_eq, compileOutput_scalingDraft rfl, compileOutput_unscaled rfl,
    Drafting.bind_apply, hscalar]
  cases hc : t.compileScalar { o with rescale := false } trace .empty with
  | error e => rfl
  | ok p =>
    obtain ⟨out, d⟩ := p
    have hsize := Draft.size_mirror (fun _ => true) scalingDraft d
    have hd : Draft.mirror (fun _ => true) scalingDraft d = _ :=
      Draft.mirror_all (hbounded out d hc)
    change (rescaleWith 0 1 (out + 2) (Draft.mirror (fun _ => true) scalingDraft d)).map _ = _
    rw [rescaleWith_apply, hsize, hd]
    rfl

/-- Whether a tree compiles, and how it fails, does not depend on the options. -/
theorem compile_outcome (t : Tree α) (o o' : FitOptions) (trace : Option Trace) :
    (t.compile o trace).map (fun _ => ()) = (t.compile o' trace).map fun _ => () := by
  have hmap : ∀ (x : Except Failure (CompiledTree α)) (f : CompiledTree α → CompiledTree α),
      (x.map f).map (fun _ => ()) = x.map fun _ => () := by
    rintro (e | c) f <;> rfl
  -- both options are compared with ones that tune no more than either
  let least : FitOptions := ⟨false, false, o.excluded ++ o'.excluded⟩
  have hleast : ∀ p : FitOptions, p.excluded ⊆ least.excluded →
      (t.compile p trace).map (fun _ => ()) = (t.compile least trace).map fun _ => () := by
    intro p hp
    have hfreezes : p.Freezes { least with rescale := p.rescale } := ⟨rfl, hp, nofun⟩
    have hfrozen := congrArg (Except.map fun _ => ()) (compile_freeze hfreezes t trace)
    rw [hmap] at hfrozen
    rw [← hfrozen]
    cases p.rescale
    · rfl
    · rw [compile_rescale t least trace, hmap]
  rw [hleast o (List.subset_append_left _ _), hleast o' (List.subset_append_right _ _)]

/-- Options only freeze or wrap. Whether a tree compiles does not depend on them. Where the second
options tune fewer numbers, the others become literals: the inputs and the entries stay, and so do
the value and the remaining derivatives. A rescaling adds two parameters in front, the offset and
the factor of the value. -/
theorem compile_choices (t : Tree α) (trace : Option Trace) :
    (∀ o o', (t.compile o trace).map (fun _ => ()) = (t.compile o' trace).map fun _ => ()) ∧
      (∀ o o' c, o.Freezes o' → t.compile o trace = .ok c →
        t.compile o' trace = .ok (c.freeze o'.keeps) ∧
          c.Restricts o'.keeps (c.freeze o'.keeps)) ∧
      ∀ (o : FitOptions) c, t.compile { o with rescale := false } trace = .ok c →
        ∃ c', t.compile { o with rescale := true } trace = .ok c' ∧
          c'.parameters = ⟨0, .offset, 0⟩ :: ⟨0, .factor, 1⟩ :: c.parameters ∧
          ∀ offset factor params inputs w w',
            (c'.tape.evaluate (offset :: factor :: params) inputs w').1 =
              factor * (c.tape.evaluate params inputs w).1 + offset := by
  refine ⟨fun o o' => compile_outcome t o o' trace, fun o o' c h hc => ?_, fun o c hc => ?_⟩
  · have hfreeze := compile_freeze h t trace
    rw [hc] at hfreeze
    exact ⟨hfreeze, CompiledTree.restricts_freeze _ c⟩
  · have hrescale := compile_rescale t o trace
    rw [hc] at hrescale
    obtain ⟨out, d, -, rfl⟩ := compile_ok.1 hc
    exact ⟨_, hrescale, rfl, fun offset factor params inputs w w' =>
      Tape.evaluate_rescale (t := ⟨d.entries, some out⟩) rfl offset factor params inputs w w'⟩

end Tree

section Slope

/-- The tree `2 x + 3`. -/
def slopeTree : Tree Float :=
  .node (.fold .add) [.node (.column "x" 2 0 none) [], .node (.constant 3) []]

/-- The tape of `2 x + 3` with a weight and a constant to fit. -/
def slopeCompiled : CompiledTree Float where
  tape := ⟨#[.param 0, .input 0, .binary .mul 1 0, .param 1, .binary .add 2 3], some 4⟩
  parameters := [⟨1, .columnWeight, 2⟩, ⟨2, .constant, 3⟩]
  inputs := [⟨"x", none, 0, none⟩]
  rescaled := false

theorem compile_choices_slope :
    slopeTree.compile { weights := false } none =
        .ok (slopeCompiled.freeze ({ weights := false } : FitOptions).keeps) ∧
      (∀ v x : Float,
        ((slopeCompiled.freeze ({ weights := false } : FitOptions).keeps).tape.evaluate
          [v] [x] .empty).1 = (slopeCompiled.tape.evaluate [2, v] [x] .empty).1) ∧
      ∃ c, slopeTree.compile { rescale := true } none = .ok c ∧ ∀ a b v w x : Float,
        (c.tape.evaluate [b, a, w, v] [x] .empty).1 =
          a * (slopeCompiled.tape.evaluate [w, v] [x] .empty).1 + b := by
  have hc : slopeTree.compile {} none = .ok slopeCompiled := rfl
  have hfreezes : ({} : FitOptions).Freezes { weights := false } := ⟨rfl, List.Subset.refl _, nofun⟩
  obtain ⟨-, hfreeze, hrescale⟩ := Tree.compile_choices slopeTree none
  obtain ⟨hfrozen, hrestricts⟩ := hfreeze {} { weights := false } slopeCompiled hfreezes hc
  obtain ⟨c, hscaled, -, hvalue⟩ := hrescale {} slopeCompiled hc
  refine ⟨hfrozen, fun v x => ?_, c, hscaled, fun a b v w x => hvalue b a [w, v] [x] .empty .empty⟩
  exact hrestricts.value [v] [x] .empty .empty rfl

end Slope

end SymbolicFit
